import FormCompiler.Optimize.Constant
import FormCompiler.Proofs.Machine.Allocated

/-!
# Operands of selected code

Selection leaves out the code of immediate variables and of fused comparisons. So whatever way control takes
through selected code, a register that is read is a parameter or has been written before. An operand is the
register of the variable in the same place of the instruction that the code was made from, or the number that this
variable is set to; only operands that can be exchanged are, and a number is never the left operand of an operation
(`sound_operands_select`).
-/

namespace FormCompiler.Machine

open FormCompiler.Flow

/-! ## Ways through selected code -/

/-- Control can take some steps from the start of a function to the start of a block. -/
inductive SelectedFunction.Comes (f : SelectedFunction) : List Access → SelectedBlock → Prop
  | first {b : SelectedBlock} (h : f.blocks.head? = some b) : Comes f [] b
  | next {steps : List Access} {b b' : SelectedBlock} (h : Comes f steps b) (hb : b' ∈ f.blocks)
    (hnext : b'.id ∈ b.control.successors) : Comes f (steps ++ b.accesses) b'

/-- A register is a parameter, or some step has written it. -/
def SelectedFunction.IsSet (f : SelectedFunction) (steps : List Access) (v : VReg) : Prop :=
  v ∈ f.params ∨ ∃ step ∈ steps, v ∈ step.defs

theorem SelectedFunction.IsSet.append {f : SelectedFunction} {steps : List Access} {v : VReg} (h : f.IsSet steps v)
    (more : List Access) :
  f.IsSet (steps ++ more) v
  := by
  rcases h with h | ⟨step, hstep, hv⟩
  · exact .inl h
  · exact .inr ⟨step, List.mem_append_left _ hstep, hv⟩

theorem liveBefore_of_forall {live : VReg → Prop} {steps : List Access} {v : VReg}
    (h : ∀ step ∈ steps, v ∉ step.defs) (hlive : live v) :
  LiveBefore live steps v
  := by
  induction steps with
  | nil => exact hlive
  | cons step steps ih =>
    rw [List.forall_mem_cons] at h
    exact .inr ⟨h.1, ih h.2⟩

section

variable {f : Flow.Function} {selected : SelectedFunction} {count : Nat}

/-- A block that control comes to stands where its name says. -/
theorem IsSelected.getElem?_idxOf (h : IsSelected f selected count) {b : SelectedBlock} (hb : b ∈ selected.blocks) :
  selected.blocks[(selected.blocks.map (·.id)).idxOf b.id]? = some b
  := by
  obtain ⟨k, hk⟩ := List.getElem?_of_mem hb
  have hid : (selected.blocks.map (·.id))[k]? = some b.id := by rw [List.getElem?_map, hk, Option.map_some]
  obtain ⟨hlt, hget⟩ := List.getElem?_eq_some_iff.mp hid
  have hnodup : (selected.blocks.map (·.id)).Nodup := h.ids ▸ f.nodup_reversePostorder
  rw [← hget, hnodup.idxOf_getElem k hlt, hk]

/-- What is live in a block is set when control is there. -/
theorem IsSelected.isSet_of_liveBefore (h : IsSelected f selected count) (hf : f.verify = .ok ())
    {steps : List Access} {b : SelectedBlock} (hcomes : selected.Comes steps b) {before after : List Access}
    (hsplit : b.accesses = before ++ after) {v : VReg}
    (hlive : LiveBefore (LiveOut selected.blocks b) after v) :
  selected.IsSet (steps ++ before) v
  := by
  induction hcomes generalizing before after v with
  | @first b hhead =>
    by_cases hwritten : ∃ step ∈ before, v ∈ step.defs
    · exact .inr hwritten
    · have hstart : LiveBefore (LiveOut selected.blocks b) b.accesses v := by
        rw [hsplit, liveBefore_append]
        exact liveBefore_of_forall (by simpa using hwritten) hlive
      have hget : selected.blocks[0]? = some b := by rw [← List.head?_eq_getElem?, hhead]
      exact .inl (h.mem_params_of_liveIn hf (liveIn_iff.mpr ⟨b, hget, hstart⟩))
  | @next steps b b' hcomes hb hnext ih =>
    by_cases hwritten : ∃ step ∈ before, v ∈ step.defs
    · obtain ⟨step, hstep, hv⟩ := hwritten
      exact .inr ⟨step, List.mem_append_right _ hstep, hv⟩
    · have hstart : LiveBefore (LiveOut selected.blocks b') b'.accesses v := by
        rw [hsplit, liveBefore_append]
        exact liveBefore_of_forall (by simpa using hwritten) hlive
      have hout : LiveOut selected.blocks b v :=
        ⟨_, List.mem_map_of_mem hnext, liveIn_iff.mpr ⟨b', h.getElem?_idxOf hb, hstart⟩⟩
      exact (ih (List.append_nil _).symm hout).append before

end

/-! ## What operands stand for -/

/-- An operand stands for a variable: it is its register, or the number that the variable is set to. -/
def Operand.StandsFor (f : Flow.Function) (v : VarId) : Operand VReg → Prop
  | reg r => r = v
  | imm n => ∃ b ∈ f.blocks, ∃ c, .set v (.const c) ∈ b.instrs ∧ immediateValue? c = some n
  | float _ | frame _ => False

/-- The operand that a constant is. -/
def constOperand? : Const → Option (Operand VReg)
  | .float bits => some (.float bits)
  | c => (immediateValue? c).map .imm

/-- The variables whose values an instruction puts into memory. -/
def storedVars : Flow.Instr → List VarId
  | .store _ v | .storeElement _ _ v => [v]
  | .makeArray _ elements | .makeTuple _ elements => elements
  | _ => []

/--
The operands of an operation on two variables: they stand for these in order, or the other way round if the operator
allows it, and the left one is no number.
-/
structure OperandsOf (f : Flow.Function) (op : BinaryOp) (x y : VarId) (lhs rhs : Operand VReg) : Prop where
  order : lhs.StandsFor f x ∧ rhs.StandsFor f y ∨ isCommutative op = true ∧ lhs.StandsFor f y ∧ rhs.StandsFor f x
  number : lhs.isImmediate = false

/-- Code that is made from an instruction has operands that stand for its variables. -/
def MadeFrom (f : Flow.Function) (i : Flow.Instr) : Instr VReg → Prop
  | .move dst source => (∃ c, i = .set dst (.const c) ∧ constOperand? c = some source)
    ∨ ∃ v, i = .set dst (.copy v) ∧ source.StandsFor f v
  | .binary op dst lhs rhs => ∃ x y, i = .set dst (.binary op x y) ∧ OperandsOf f op x y lhs rhs
  | .unary op dst source => ∃ v, i = .set dst (.unary op v) ∧ source.StandsFor f v
  | .convert dst source _ => ∃ v, i = .set dst (.cast v) ∧ source.StandsFor f v
  | .store _ source => ∃ v ∈ storedVars i, source.StandsFor f v
  | .check index length => ∃ v, i = .boundsCheck v length ∧ index.StandsFor f v
  | .call callee convention args _ => ∃ dst vs isTail, i = .call dst callee vs convention isTail
    ∧ List.Forall₂ (fun v arg => arg.StandsFor f v) vs args
  | .alloc dst size => ∃ v, i = .alloc dst v ∧ size.StandsFor f v
  | .storeLanes _ source _ => ∃ slot start v, i = .storeLanes slot start v ∧ source.StandsFor f v
  | .load .. | .locate .. | .copy .. | .free _ | .loadLanes .. | .binaryLanes .. => True

/--
The operands at the end of selected code stand for variables of the block that it is made from: moves for the
arguments of its jump, and a branch that compares for the operands of the comparison, of which one is no number.
-/
structure EndsFrom (f : Flow.Function) (b : Flow.Block) (moves : List (VReg × Operand VReg))
    (control : Control VReg) : Prop where
  moves : ∀ m ∈ moves, ∃ target args arg, b.terminator = .jump target args
    ∧ (m.1, arg) ∈ (f.block target).params.zip args ∧ m.2.StandsFor f arg
  control : match control with
    | .compareBranch op lhs rhs thenBlock elseBlock => ∃ test x y, b.terminator = .branch test thenBlock elseBlock
      ∧ .set test (.binary op x y) ∈ b.instrs ∧ lhs.StandsFor f x ∧ rhs.StandsFor f y
      ∧ ¬(lhs.isImmediate = true ∧ rhs.isImmediate = true)
    | .ret (some value) => ∃ v, b.terminator = .ret (some v) ∧ value.StandsFor f v
    | .jump _ | .branch .. | .ret none | .trap => True

/-- All operands of a selected block stand for variables of the block that it is made from. -/
structure SelectedBlock.IsMadeFrom (f : Flow.Function) (b : SelectedBlock) : Prop where
  body : ∀ j ∈ b.body, ∃ i ∈ (f.block b.id).instrs, MadeFrom f i j
  ends : EndsFrom f (f.block b.id) b.moves b.control

/-- Operands that can be exchanged give the same constant either way. -/
theorem binary?_comm {op : BinaryOp} (h : isCommutative op = true) {a : Const}
    (ha : (immediateValue? a).isSome = true) (b : Const) (type : ValueType) :
  Const.binary? op a b type = Const.binary? op b a type
  := by
  cases a with
  | int m =>
    cases b with
    | int n =>
      have hcompare : (compare m n == .eq) = (compare n m == .eq) := by
        rw [Bool.eq_iff_iff, beq_iff_eq, beq_iff_eq, compare_eq_iff_eq, compare_eq_iff_eq, eq_comm]
      cases op <;> simp_all [isCommutative, Const.binary?, Const.binaryInt?, Const.comparison?,
        Const.arithmetic?, BinaryOp.isComparison, Int.add_comm, Int.mul_comm, Word.bitAnd, Word.bitOr,
        Word.bitXor, BitVec.and_comm, BitVec.or_comm, BitVec.xor_comm, bne]
    | float | bool | str => rfl
  | bool m =>
    cases b with
    | bool n => cases op <;> simp_all [isCommutative, Const.binary?, Bool.and_comm, Bool.or_comm, Bool.beq_comm, bne]
    | int | float | str => rfl
  | float | str => cases ha

section

variable {f : Flow.Function} {b : Flow.Block}

theorem lookup_numberConstants {v : VarId} {n : Int} (h : (immediates f).lookup v = some n) :
  ((numberConstants f).lookup v).isSome = true
  := by
  have hmem : (v, n) ∈ numberConstants f := (List.mem_filter.mp (mem_of_lookup_eq_some h)).1
  cases hlookup : (numberConstants f).lookup v with
  | some m => rfl
  | none => exact absurd rfl (List.lookup_eq_none_iff.mp hlookup (v, n) hmem |> bne_iff_ne.mp)

/-- An immediate on the left can be exchanged with the right operand, which is none. -/
theorem immediate_lhs (hb : b ∈ f.blocks) {dst x y : VarId} {op : BinaryOp}
    (hi : .set dst (.binary op x y) ∈ b.instrs) {n : Int} (hx : (immediates f).lookup x = some n) :
  isCommutative op = true ∧ (immediates f).lookup y = none
  := by
  obtain ⟨-, hfree⟩ := List.mem_filter.mp (mem_of_lookup_eq_some hx)
  have hpermits : x ∈ immediateUses (fun v => ((numberConstants f).lookup v).isSome)
      (.set dst (.binary op x y)) := by
    by_contra hnot
    refine absurd ?_ (Bool.eq_false_iff.mp (Bool.not_eq_true' _ ▸ hfree))
    rw [List.contains_iff_mem, List.mem_flatMap]
    refine ⟨b, hb, List.mem_append_left _ (List.mem_flatMap.mpr ⟨_, hi, ?_⟩)⟩
    simp [Flow.Instr.uses, Value.uses, hnot]
  simp only [immediateUses] at hpermits
  split at hpermits
  · cases hpermits
  · next hne =>
    split at hpermits
    · next hexchange =>
      rw [Bool.and_eq_true, Bool.not_eq_true', Option.isSome_eq_false_iff, Option.isNone_iff_eq_none] at hexchange
      refine ⟨hexchange.1, ?_⟩
      cases hy : (immediates f).lookup y with
      | none => rfl
      | some m => exact absurd (lookup_numberConstants hy) (by rw [hexchange.2]; exact Bool.false_ne_true)
    · exact absurd (List.mem_singleton.mp hpermits) hne

theorem standsFor_operandFor (f : Flow.Function) (v : VarId) :
  (operandFor f v).StandsFor f v
  := by
  unfold operandFor
  cases hlookup : (immediates f).lookup v with
  | none => rfl
  | some n => exact mem_numberConstants (List.mem_filter.mp (mem_of_lookup_eq_some hlookup)).1

theorem isImmediate_operandFor {v : VarId} (h : (operandFor f v).isImmediate = true) :
  ∃ n, (immediates f).lookup v = some n
  := by
  unfold operandFor at h
  cases hlookup : (immediates f).lookup v with
  | none => simp [hlookup, Operand.isImmediate] at h
  | some n => exact ⟨n, rfl⟩

/-! ## Code of instructions -/

section

variable {i : Flow.Instr} {code : List (Instr VReg)} {areas : List Area}

theorem LoadCode.madeFrom {dst : VReg} {type : ValueType} {address : Address VReg}
    (h : LoadCode dst type address code areas) :
  ∀ j ∈ code, MadeFrom f i j
  := by
  cases h with
  | word => simp [MadeFrom]
  | value => simp [MadeFrom]

theorem madeFrom_storeCode {value : VarId} (hvalue : value ∈ storedVars i) (address : Address VReg)
    (type : ValueType) :
  MadeFrom f i (storeCode f address type value)
  := by
  unfold storeCode
  split
  · trivial
  · exact ⟨value, hvalue, standsFor_operandFor f value⟩

theorem madeFrom_partsCode {parts : List (VarId × ValueType)} (hparts : ∀ part ∈ parts, part.1 ∈ storedVars i)
    (offset : Nat) :
  ∀ j ∈ partsCode f offset parts, MadeFrom f i j
  := by
  induction parts generalizing offset with
  | nil => exact List.forall_mem_nil _
  | cons part parts ih =>
    rw [List.forall_mem_cons] at hparts
    exact List.forall_mem_cons.mpr ⟨madeFrom_storeCode hparts.1 _ _, ih hparts.2 _⟩

/-- The operands of an operation. -/
theorem madeFrom_binary (hb : b ∈ f.blocks) {dst x y : VarId} {op : BinaryOp}
    (hi : .set dst (.binary op x y) ∈ b.instrs) (label : String) :
  MadeFrom f (.set dst (.binary op x y)) (setCode f label dst (.binary op x y))
  := by
  have hx := standsFor_operandFor f x
  have hy := standsFor_operandFor f y
  rw [setCode]
  split
  · next himmediate =>
    obtain ⟨n, hn⟩ := isImmediate_operandFor himmediate
    obtain ⟨hexchange, hnone⟩ := immediate_lhs hb hi hn
    have hreg : operandFor f y = .reg y := by rw [operandFor, hnone]
    exact ⟨x, y, rfl, .inr ⟨hexchange, hy, hx⟩, by rw [hreg]; rfl⟩
  · next himmediate => exact ⟨x, y, rfl, .inl ⟨hx, hy⟩, Bool.eq_false_iff.mpr himmediate⟩

theorem madeFrom_setCode (hb : b ∈ f.blocks) {dst : VarId} {value : Value} (hi : .set dst value ∈ b.instrs)
    (label : String) :
  MadeFrom f (.set dst value) (setCode f label dst value)
  := by
  cases value with
  | const k =>
    cases k with
    | str text => trivial
    | int | bool | float => exact .inl ⟨_, rfl, rfl⟩
  | copy source => exact .inr ⟨source, rfl, standsFor_operandFor f source⟩
  | unary op source | cast source => exact ⟨source, rfl, standsFor_operandFor f source⟩
  | binary op lhs rhs => exact madeFrom_binary hb hi label

/-- The code of an instruction has operands that stand for the variables of the instruction. -/
theorem Selects.madeFrom {slots : List Nat} {count : Nat} (h : Selects f slots count i code areas)
    (hb : b ∈ f.blocks) (hi : i ∈ b.instrs) :
  ∀ j ∈ code, MadeFrom f i j
  := by
  have hargs : ∀ args : List VarId, List.Forall₂ (fun v (arg : Operand VReg) => arg.StandsFor f v) args
      (args.map (operandFor f)) := fun args =>
    List.forall₂_map_right_iff.mpr (List.forall₂_same.mpr fun v _ => standsFor_operandFor f v)
  cases h with
  | skip => exact List.forall_mem_nil _
  | set label => exact List.forall_mem_singleton.mpr (madeFrom_setCode hb hi label)
  | call => exact List.forall_mem_singleton.mpr ⟨_, _, _, rfl, hargs _⟩
  | callValue => exact List.forall_mem_cons.mpr ⟨⟨_, _, _, rfl, hargs _⟩, by simp [MadeFrom]⟩
  | load h | loadElement _ h | extract h => exact h.madeFrom
  | store | storeElement =>
    exact List.forall_mem_singleton.mpr (madeFrom_storeCode (by simp [storedVars]) _ _)
  | locateGlobal | loadGlobal | free | loadLanes | binaryLanes => simp [MadeFrom]
  | @boundsCheck index => exact List.forall_mem_singleton.mpr ⟨index, rfl, standsFor_operandFor f index⟩
  | @alloc _ size => exact List.forall_mem_singleton.mpr ⟨size, rfl, standsFor_operandFor f size⟩
  | @storeLanes slot start _ value => exact List.forall_mem_singleton.mpr ⟨slot, start, value, rfl, rfl⟩
  | @make _ _ elements _ hmake =>
    have hstored : elements ⊆ storedVars i := by rcases hmake with rfl | rfl <;> simp [storedVars]
    refine List.forall_mem_append.mpr ⟨madeFrom_partsCode (fun part hpart => ?_) _, by simp [MadeFrom]⟩
    exact hstored (List.of_mem_zip hpart).1

/-! ## Ends of blocks -/

theorem Ends.endsFrom {id : BlockId} (hb : f.blocks[id]? = some b) {moves : List (VReg × Operand VReg)}
    {control : Control VReg} (h : Ends f b.terminator moves control) :
  EndsFrom f b moves control
  := by
  have hstands := standsFor_operandFor f
  cases hterminator : b.terminator with
  | unreachable =>
    rw [hterminator] at h
    cases h
    exact ⟨by simp, trivial⟩
  | ret value =>
    rw [hterminator] at h
    cases h
    cases value with
    | none => exact ⟨by simp, trivial⟩
    | some value => exact ⟨by simp, value, hterminator, hstands value⟩
  | jump target args =>
    rw [hterminator] at h
    cases h
    refine ⟨fun m hm => ?_, trivial⟩
    rw [List.zip_map_right, List.mem_map] at hm
    obtain ⟨⟨param, arg⟩, hm, rfl⟩ := hm
    exact ⟨target, args, arg, hterminator, hm, hstands arg⟩
  | branch test thenBlock elseBlock =>
    rw [hterminator] at h
    cases h with
    | branch => exact ⟨by simp, trivial⟩
    | @compare _ comparison _ _ hfused =>
      have huse : test ∈ b.uses := by simp [Flow.Block.uses, hterminator, Terminator.uses]
      obtain ⟨-, hcomparison, -⟩ := eq_block_of_fused hfused hb huse
      obtain ⟨j, hj⟩ := exists_comparison hcomparison
      have hmem := List.mem_of_getElem? hj
      refine ⟨by simp, test, comparison.lhs, comparison.rhs, hterminator, hmem, hstands _, hstands _, ?_⟩
      rintro ⟨hlhs, hrhs⟩
      obtain ⟨n, hn⟩ := isImmediate_operandFor hlhs
      obtain ⟨m, hm⟩ := isImmediate_operandFor hrhs
      obtain ⟨-, hnone⟩ := immediate_lhs (List.mem_of_getElem? hb) hmem hn
      rw [hnone] at hm
      cases hm

end

/-- The operands of a selected block stand for the variables of the block that it is made from. -/
theorem SelectsBlock.isMadeFrom {slots : List Nat} {count : Nat} {b : SelectedBlock} {areas : List Area}
    (h : SelectsBlock f slots count b areas) (hb : f.blocks[b.id]? = some (f.block b.id)) :
  b.IsMadeFrom f
  := by
  obtain ⟨⟨pieces, hbody, -, hpieces⟩, hends⟩ := h
  refine ⟨fun j hj => ?_, hends.endsFrom hb⟩
  rw [hbody] at hj
  obtain ⟨piece, hpiece, hj⟩ := List.mem_flatMap.mp hj
  obtain ⟨line, hline, hselects⟩ := exists_of_mem_forall₂ hpieces hpiece
  have hmem := List.mem_map_of_mem (f := Line.instr) hline
  exact ⟨line.instr, hmem, hselects.madeFrom (List.mem_of_getElem? hb) hmem j hj⟩

end

theorem isMadeFrom_select {f : Flow.Function} (hf : f.verify = .ok ()) {p : Program} {target : Target}
    {strings strings' : List String} {selected : SelectedFunction}
    (h : select p target strings f = .ok (selected, strings')) :
  ∀ b ∈ selected.blocks, b.IsMadeFrom f
  := by
  obtain ⟨slots, size, count, made, hselects⟩ := selects_select h
  intro b hb
  obtain ⟨areas, -, hblock⟩ := exists_of_mem_forall₂ hselects.blocks.flip hb
  exact hblock.isMadeFrom (Verify.getElem?_of_mem_reversePostorder hf (hselects.ids ▸ List.mem_map_of_mem hb))

/--
Whatever way control takes through selected code, a register that is read is a parameter or has been written
before. All operands stand for variables of the block that the code is made from, in the order of the instruction
if they cannot be exchanged; and operands that can be give the same constant either way.
-/
theorem sound_operands_select {f : Flow.Function} (hf : f.verify = .ok ()) {p : Program} {target : Target}
    {strings strings' : List String} {selected : SelectedFunction}
    (h : select p target strings f = .ok (selected, strings')) :
  (∀ steps b, selected.Comes steps b → ∀ before access after, b.accesses = before ++ access :: after →
      ∀ v ∈ access.uses, selected.IsSet (steps ++ before) v)
    ∧ (∀ b ∈ selected.blocks, b.IsMadeFrom f)
    ∧ ∀ op, isCommutative op = true → ∀ a, (immediateValue? a).isSome = true → ∀ b type,
      Const.binary? op a b type = Const.binary? op b a type
  := by
  obtain ⟨count, hselected⟩ := isSelected_select hf h
  refine ⟨?_, isMadeFrom_select hf h, fun op hop a ha => binary?_comm hop ha⟩
  intro steps b hcomes before access after hsplit v hv
  exact hselected.isSet_of_liveBefore hf hcomes hsplit (.inl hv)

/-- A function whose operations and comparisons read numbers. -/
def summing : Flow.Function :=
  { name := "summing"
    params := [0]
    result := .int 64
    blocks := [⟨[0],
        [⟨.set 1 (.const (.int 5)), none⟩,
          ⟨.set 2 (.binary .add 1 0), none⟩,
          ⟨.set 3 (.binary .sub 2 1), none⟩,
          ⟨.set 4 (.binary .lt 3 1), none⟩],
        .branch 4 1 2⟩,
      ⟨[], [], .ret (some 2)⟩,
      ⟨[], [], .ret (some 3)⟩]
    entry := 0
    varTypes := [.int 64, .int 64, .int 64, .int 64, .bool]
    slots := []
    loops := []
    flags := .none }

/-- The code of the function. -/
def summingCode : SelectedFunction :=
  ⟨"summing", [0], [⟨0, [.binary .add 2 (.reg 0) (.imm 5), .binary .sub 3 (.reg 2) (.imm 5)], [],
      .compareBranch .lt (.reg 3) (.imm 5) 1 2⟩, ⟨2, [], [], .ret (some (.reg 3))⟩, ⟨1, [], [], .ret (some (.reg 2))⟩],
    0, [1, 1, 1, 1, 1]⟩

theorem summing_operands :
  (∀ b ∈ summingCode.blocks, b.IsMadeFrom summing) ∧ summingCode.IsSet (summingCode.blocks[0].accesses ++ [⟨[], []⟩]) 3
  := by
  have hselect : select ⟨[summing], [], []⟩ .tiny [] summing = .ok (summingCode, []) := by cbv
  obtain ⟨hset, hmade, -⟩ := sound_operands_select (f := summing) rfl hselect
  have hfirst : summingCode.Comes [] summingCode.blocks[0] := .first rfl
  have hcomes : summingCode.Comes summingCode.blocks[0].accesses summingCode.blocks[1] :=
    hfirst.next (by simp [summingCode]) (by simp [summingCode, Control.successors])
  exact ⟨hmade, hset _ _ hcomes [⟨[], []⟩] ⟨[3], []⟩ [] rfl 3 (by simp)⟩

end FormCompiler.Machine
