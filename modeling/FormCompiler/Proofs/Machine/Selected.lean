import FormCompiler.Proofs.Flow.Defined
import FormCompiler.Proofs.Flow.Uses
import FormCompiler.Proofs.Machine.Blocks

/-!
# Selected code

What instruction selection makes of a well-formed function. The code of an instruction reads only
registers of variables that the instruction reads, writes the register of the variable it defines,
and looks at no more lanes of a register than there are. So the registers that are live at the start
of a block stand for variables that are defined there, and at the start of the function only its
parameters are live.

Immediate variables and fused comparisons are not computed into registers. Immediate variables are
integers or truth values, and no terminator reads them. A fused comparison is read by the branch of
its own block and by nothing else.
-/

namespace FormCompiler.Machine

open FormCompiler.Flow

/-! ## Variables in registers -/

/-- A variable is computed into a register. -/
structure IsKept (f : Flow.Function) (v : VarId) : Prop where
  immediate : (immediates f).lookup v = none
  fused : (fusedComparisons f).lookup v = none

/-! ### Immediate variables -/

section

variable {f : Flow.Function} {id : BlockId} {b : Flow.Block} {v : VarId}

theorem mem_numberConstants {n : Int} (h : (v, n) ∈ numberConstants f) :
  ∃ b ∈ f.blocks, ∃ c, .set v (.const c) ∈ b.instrs ∧ immediateValue? c = some n
  := by
  obtain ⟨i, hmem, hsome⟩ := List.mem_filterMap.mp h
  obtain ⟨b, hb, hi⟩ := List.mem_flatMap.mp hmem
  split at hsome
  · next _ dst c =>
    obtain ⟨m, hm, heq⟩ := Option.map_eq_some_iff.mp hsome
    obtain ⟨rfl, rfl⟩ := Prod.mk.inj heq
    exact ⟨b, hb, c, hi, hm⟩
  · cases hsome

/-- The type of an integer or a truth value. -/
def isWhole (type : ValueType) : Bool := type.isInt || type = .bool

/-- An immediate variable is an integer or a truth value. -/
theorem isWhole_of_immediate (h : f.verify = .ok ()) {n : Int}
    (hv : (immediates f).lookup v = some n) :
  ∃ t, f.varTypes[v]? = some t ∧ isWhole t = true
  := by
  have hmem : (v, n) ∈ numberConstants f := (List.mem_filter.mp (mem_of_lookup_eq_some hv)).1
  obtain ⟨b, hb, c, hi, hvalue⟩ := mem_numberConstants hmem
  obtain ⟨id, hid⟩ := List.getElem?_of_mem hb
  have hcheck := Verify.instr_eq_ok h hid hi
  obtain ⟨t, ht, htype⟩ := Verify.expectThat_eq_ok.mp hcheck
  refine ⟨t, ht, ?_⟩
  cases c with
  | int m =>
    have hint : t.isInt = true := htype
    simp [isWhole, hint]
  | bool x =>
    have hbool : t = .bool := by simpa [Verify.constHasType] using htype
    simp [isWhole, hbool]
  | float | str => cases hvalue

/-- No terminator reads an immediate variable. -/
theorem immediate_eq_none_of_terminator (hb : b ∈ f.blocks) (hv : v ∈ b.terminator.uses) :
  (immediates f).lookup v = none
  := by
  cases hlookup : (immediates f).lookup v with
  | none => rfl
  | some n =>
    obtain ⟨-, hfree⟩ := List.mem_filter.mp (mem_of_lookup_eq_some hlookup)
    refine absurd ?_ (Bool.eq_false_iff.mp (Bool.not_eq_true' _ ▸ hfree))
    rw [List.contains_iff_mem, List.mem_flatMap]
    exact ⟨b, hb, List.mem_append_right _ hv⟩

/-! ### Fused comparisons -/

theorem exists_comparison {c : Comparison} (h : comparisonIn? b v = some c) :
  ∃ j : Nat, b.instrs[j]? = some (.set v (.binary c.op c.lhs c.rhs))
  := by
  obtain ⟨i, hi, hsome⟩ := List.exists_of_findSome?_eq_some h
  split at hsome
  · next dst op lhs rhs =>
    split at hsome
    · next hdst =>
      obtain ⟨rfl, -⟩ := hdst
      obtain rfl := Option.some.inj hsome
      exact List.getElem?_of_mem hi
    · cases hsome
  · cases hsome

/-- Where a fused comparison comes from. -/
theorem exists_block_of_fused {c : Comparison} (h : (fusedComparisons f).lookup v = some c) :
  ∃ (id : BlockId) (b : Flow.Block) (thenBlock elseBlock : BlockId), f.blocks[id]? = some b
    ∧ b.terminator = .branch v thenBlock elseBlock ∧ f.useCount v = 1 ∧ comparisonIn? b v = some c
  := by
  obtain ⟨b, hb, hfused⟩ := List.mem_filterMap.mp (mem_of_lookup_eq_some h)
  obtain ⟨id, hid⟩ := List.getElem?_of_mem hb
  unfold fusedIn? at hfused
  split at hfused
  · next test thenBlock elseBlock hterminator =>
    split at hfused
    · next hcount =>
      obtain ⟨c', hc', heq⟩ := Option.map_eq_some_iff.mp hfused
      obtain ⟨rfl, rfl⟩ := Prod.mk.inj heq
      exact ⟨id, b, thenBlock, elseBlock, hid, hterminator, hcount, hc'⟩
    · cases hfused
  · cases hfused

/-- A fused comparison is read once, by the branch of its block. -/
theorem eq_block_of_fused
    {c : Comparison} (h : (fusedComparisons f).lookup v = some c) (hb : f.blocks[id]? = some b)
    (hv : v ∈ b.uses) :
  (∃ thenBlock elseBlock, b.terminator = .branch v thenBlock elseBlock)
    ∧ comparisonIn? b v = some c ∧ v ∉ b.instrs.flatMap Flow.Instr.uses
  := by
  obtain ⟨id', b', thenBlock, elseBlock, hb', hterminator, hcount, hcomparison⟩ :=
    exists_block_of_fused h
  have hv' : v ∈ b'.uses := by simp [Flow.Block.uses, hterminator, Terminator.uses]
  obtain ⟨rfl, hone⟩ := eq_of_useCount_eq_one hcount hb hb' hv hv'
  rw [hb] at hb'
  obtain rfl := Option.some.inj hb'
  refine ⟨⟨thenBlock, elseBlock, hterminator⟩, hcomparison, fun hmem => ?_⟩
  have hpos := List.count_pos_iff.mpr hmem
  rw [Flow.Block.uses, List.count_append, hterminator] at hone
  simp only [Terminator.uses, List.count_singleton_self] at hone
  omega

/-- No instruction reads a fused comparison. -/
theorem fused_eq_none_of_mem_uses (hb : f.blocks[id]? = some b) {i : Flow.Instr}
    (hi : i ∈ b.instrs) (hv : v ∈ i.uses) :
  (fusedComparisons f).lookup v = none
  := by
  have hmem : v ∈ b.instrs.flatMap Flow.Instr.uses := List.mem_flatMap.mpr ⟨i, hi, hv⟩
  cases hlookup : (fusedComparisons f).lookup v with
  | none => rfl
  | some c =>
    obtain ⟨-, -, hnot⟩ := eq_block_of_fused hlookup hb (List.mem_append_left _ hmem)
    exact absurd hmem hnot

/-- Only a branch reads a fused comparison. -/
theorem fused_eq_none_of_terminator (hb : f.blocks[id]? = some b) (hv : v ∈ b.terminator.uses)
    (hbranch : ∀ thenBlock elseBlock, b.terminator ≠ .branch v thenBlock elseBlock) :
  (fusedComparisons f).lookup v = none
  := by
  cases hlookup : (fusedComparisons f).lookup v with
  | none => rfl
  | some c =>
    obtain ⟨⟨thenBlock, elseBlock, hterminator⟩, -⟩ :=
      eq_block_of_fused hlookup hb (List.mem_append_right _ hv)
    exact absurd hterminator (hbranch thenBlock elseBlock)

end

/-! ## Operands and sizes -/

/-- The operand that a variable is read as. -/
def operandFor (f : Flow.Function) (v : VarId) : Operand VReg :=
  match (immediates f).lookup v with
  | some n => .imm n
  | none => .reg v

/-- The number of bytes that so many words take in a frame. -/
abbrev bytesFor (words : Nat) : Nat := min (words * wordBytes) maxOffset

/-- The offset of an element of a type. -/
abbrev elementOffsetFor (slots : List Nat) (slot : SlotId) (element : ValueType) (position : Nat) : Nat :=
  min (slots.getD slot 0 + bytesFor element.words * min position maxOffset) maxOffset

/-- So many bytes from an address on. -/
def Area.ofSize (start size : Nat) : Area := ⟨start, start + size⟩

/-- Areas lie one behind the other between two addresses. -/
def Stacked (low : Nat) : List Area → Nat → Prop
  | [], high => low = high
  | area :: rest, high => area.start = low ∧ area.start ≤ area.stop ∧ Stacked area.stop rest high

theorem stacked_ofSize (low size : Nat) :
  Stacked low [Area.ofSize low size] (low + size)
  := ⟨rfl, Nat.le_add_right low size, rfl⟩

theorem Stacked.append {low mid high : Nat} {areas areas' : List Area} (h : Stacked low areas mid)
    (h' : Stacked mid areas' high) :
  Stacked low (areas ++ areas') high
  := by
  induction areas generalizing low with
  | nil =>
    obtain rfl : low = mid := h
    exact h'
  | cons area areas ih => exact ⟨h.1, h.2.1, ih h.2.2⟩

/-! ## Code -/

/-- The code that gives a variable of a type the value at an address, and the area that is made for it. -/
inductive LoadCode (dst : VReg) (type : ValueType) (address : Address VReg) : List (Instr VReg) → List Area → Prop
  | word (h : isAggregate type = false) : LoadCode dst type address [.load dst address] []
  | value (o : Nat) : LoadCode dst type address
    [.copy (.frame o) address type.words, .locate dst (.frame o)] [.ofSize o (bytesFor type.words)]

/-- The instruction that stores a value of a type. -/
def storeCode (f : Flow.Function) (address : Address VReg) (type : ValueType) (value : VarId) : Instr VReg :=
  if isAggregate type then .copy address (.based value 0) type.words else .store address (operandFor f value)

/-- The instructions that store the parts of an array or tuple one behind the other. -/
def partsCode (f : Flow.Function) : Nat → List (VarId × ValueType) → List (Instr VReg)
  | _, [] => []
  | offset, (value, type) :: parts =>
    storeCode f (.frame offset) type value :: partsCode f (offset + bytesFor type.words) parts

/-- The instruction that sets a variable; a string is found under a label. -/
def setCode (f : Flow.Function) (label : String) (dst : VarId) : Value → Instr VReg
  | .const (.int n) => .move dst (.imm n)
  | .const (.bool b) => .move dst (.imm b.toInt)
  | .const (.float bits) => .move dst (.float bits)
  | .const (.str _) => .locate dst (.symbol label)
  | .copy source => .move dst (operandFor f source)
  | .binary op lhs rhs =>
    if (operandFor f lhs).isImmediate then .binary op dst (operandFor f rhs) (operandFor f lhs)
    else .binary op dst (operandFor f lhs) (operandFor f rhs)
  | .unary op source => .unary op dst (operandFor f source)
  | .cast source => .convert dst (operandFor f source) (f.varType dst)

/-- An address of an element, which is computed from no register but that of the index. -/
structure IsElement (f : Flow.Function) (slots : List Nat) (slot : SlotId) (index : VarId)
    (address : Address VReg) : Prop where
  reg : address.reg? = (operandFor f index).reg?
  place : ∀ element length, f.slotType slot = .array element length →
    (∃ n : Int, (immediates f).lookup index = some n
        ∧ address = .frame (elementOffsetFor slots slot element (if n < 0 then maxOffset else n.toNat)))
      ∨ address = .element (slots.getD slot 0) index (bytesFor element.words)

/-- An offset of the element at a position. -/
def IsOffset (f : Flow.Function) (slots : List Nat) (slot : SlotId) (position offset : Nat) : Prop :=
  ∀ element length, f.slotType slot = .array element length → offset = elementOffsetFor slots slot element position

/--
The code that is selected for an instruction, and the areas of the frame that are made for it; `count` is at least
the number of registers so far that stand for no variable.
-/
inductive Selects (f : Flow.Function) (slots : List Nat) (count : Nat) :
    Flow.Instr → List (Instr VReg) → List Area → Prop
  | skip {dst : VarId} {value : Value} (h : ¬IsKept f dst) : Selects f slots count (.set dst value) [] []
  | set {dst : VarId} {value : Value} (label : String) :
    Selects f slots count (.set dst value) [setCode f label dst value] []
  | call {dst : Option VarId} {callee : String} {args : List VarId} {convention : Convention} {isTail : Bool} :
    Selects f slots count (.call dst callee args convention isTail)
      [.call callee convention (args.map (operandFor f)) dst] []
  | callValue {dst : VarId} {callee : String} {args : List VarId} {convention : Convention} {isTail : Bool}
    {returned : VReg} (o : Nat) (h : returned < f.varTypes.length + count) :
    Selects f slots count (.call (some dst) callee args convention isTail)
      [.call callee convention (args.map (operandFor f)) (some returned),
        .copy (.frame o) (.based returned 0) (f.varType dst).words, .locate dst (.frame o)]
      [.ofSize o (bytesFor (f.varType dst).words)]
  | load {dst : VarId} {slot : SlotId} {code : List (Instr VReg)} {areas : List Area}
    (h : LoadCode dst (f.varType dst) (.frame (slots.getD slot 0)) code areas) :
    Selects f slots count (.load dst slot) code areas
  | store {slot : SlotId} {value : VarId} : Selects f slots count (.store slot value)
    [storeCode f (.frame (slots.getD slot 0)) (f.slotType slot) value] []
  | locateGlobal {dst : VarId} {name : String} :
    Selects f slots count (.loadGlobal dst name) [.locate dst (.symbol name)] []
  | loadGlobal {dst : VarId} {name : String} :
    Selects f slots count (.loadGlobal dst name) [.load dst (.symbol name)] []
  | loadElement {dst index : VarId} {slot : SlotId} {address : Address VReg} {code : List (Instr VReg)}
    {areas : List Area} (haddress : IsElement f slots slot index address)
    (h : LoadCode dst (f.varType dst) address code areas) :
    Selects f slots count (.loadElement dst slot index) code areas
  | storeElement {index value : VarId} {slot : SlotId} {address : Address VReg} {type : ValueType}
    (haddress : IsElement f slots slot index address)
    (htype : ∀ element length, f.slotType slot = .array element length → type = element) :
    Selects f slots count (.storeElement slot index value) [storeCode f address type value] []
  | boundsCheck {index : VarId} {length : Nat} :
    Selects f slots count (.boundsCheck index length) [.check (operandFor f index) length] []
  | make {i : Flow.Instr} {dst : VarId} {elements : List VarId} (o : Nat)
    (h : i = .makeArray dst elements ∨ i = .makeTuple dst elements) : Selects f slots count i
      (partsCode f o (elements.zip (partTypes (f.varType dst) elements.length)) ++ [.locate dst (.frame o)])
      [.ofSize o (bytesFor (f.varType dst).words)]
  | extract {dst tuple : VarId} {index : Nat} {code : List (Instr VReg)} {areas : List Area}
    (h : LoadCode dst (f.varType dst)
      (.based tuple (bytesFor (totalWords ((partTypes (f.varType tuple) 0).take index)))) code areas) :
    Selects f slots count (.extract dst tuple index) code areas
  | alloc {dst size : VarId} : Selects f slots count (.alloc dst size) [.alloc dst (operandFor f size)] []
  | free {i : Flow.Instr} {pointer : VarId} (h : i = .free pointer ∨ i = .release pointer) :
    Selects f slots count i [.free pointer] []
  | loadLanes {dst : VarId} {slot : SlotId} {start offset : Nat} (h : IsOffset f slots slot start offset) :
    Selects f slots count (.loadLanes dst slot start)
      [.loadLanes dst (.frame offset) (registerWords (f.varType dst))] []
  | storeLanes {slot : SlotId} {start offset : Nat} {value : VarId} (h : IsOffset f slots slot start offset) :
    Selects f slots count (.storeLanes slot start value)
      [.storeLanes (.frame offset) (.reg value) (registerWords (f.varType value))] []
  | binaryLanes {dst lhs rhs : VarId} {op : BinaryOp} : Selects f slots count (.binaryLanes dst op lhs rhs)
    [.binaryLanes op dst lhs rhs (registerWords (f.varType dst))] []

/-- The moves and the control that are selected for a terminator. -/
inductive Ends (f : Flow.Function) : Terminator → List (VReg × Operand VReg) → Control VReg → Prop
  | unreachable : Ends f .unreachable [] .trap
  | ret (value : Option VarId) : Ends f (.ret value) [] (.ret (value.map (operandFor f)))
  | jump (target : BlockId) (args : List VarId) :
    Ends f (.jump target args) ((f.block target).params.zip (args.map (operandFor f))) (.jump target)
  | compare {test : VarId} {c : Comparison} (thenBlock elseBlock : BlockId)
    (h : (fusedComparisons f).lookup test = some c) : Ends f (.branch test thenBlock elseBlock) []
      (.compareBranch c.op (operandFor f c.lhs) (operandFor f c.rhs) thenBlock elseBlock)
  | branch {test : VarId} (thenBlock elseBlock : BlockId) (h : (fusedComparisons f).lookup test = none) :
    Ends f (.branch test thenBlock elseBlock) [] (.branch test thenBlock elseBlock)

/-- The code that is selected for some lines. -/
def SelectsLines (f : Flow.Function) (slots : List Nat) (count : Nat) :
    List Line → List (List (Instr VReg) × List Area) → Prop :=
  List.Forall₂ fun line piece => Selects f slots count line.instr piece.1 piece.2

/-- The code that is selected for a block, and the areas that are made for it. -/
structure SelectsBlock (f : Flow.Function) (slots : List Nat) (count : Nat) (b : SelectedBlock)
    (areas : List Area) : Prop where
  lines : ∃ pieces, b.body = pieces.flatMap (·.1) ∧ areas = pieces.flatMap (·.2)
    ∧ SelectsLines f slots count (f.block b.id).body pieces
  ends : Ends f (f.block b.id).terminator b.moves b.control

/-- A context of selection is about a function. -/
structure SelectContext.IsAbout (c : SelectContext) (f : Flow.Function) : Prop where
  function : c.function = f
  immediates : c.immediates = Machine.immediates f
  fused : c.fused = fusedComparisons f

/-- Areas have been added to the frame. -/
structure Enlarges (s s' : SelectState) (areas : List Area) : Prop where
  temporaries : s.temporaries ≤ s'.temporaries
  stacked : Stacked s.frameSize areas s'.frameSize
  small : s.frameSize ≤ maxOffset → s'.frameSize ≤ maxOffset

/-- Code has been added to a block, and areas to the frame. -/
structure Adds (s s' : SelectState) (code : List (Instr VReg)) (areas : List Area) : Prop
    extends Enlarges s s' areas where
  body : s'.body = s.body ++ code

theorem Enlarges.refl (s : SelectState) :
  Enlarges s s []
  := ⟨le_rfl, rfl, id⟩

theorem Enlarges.trans {s t s' : SelectState} {areas areas' : List Area} (h : Enlarges s t areas) (h' : Enlarges t s' areas') :
  Enlarges s s' (areas ++ areas')
  := ⟨h.temporaries.trans h'.temporaries, h.stacked.append h'.stacked, h'.small ∘ h.small⟩

theorem Adds.refl (s : SelectState) :
  Adds s s [] []
  := ⟨.refl s, (List.append_nil _).symm⟩

theorem Adds.trans {s t s' : SelectState} {code code' : List (Instr VReg)} {areas areas' : List Area}
    (h : Adds s t code areas) (h' : Adds t s' code' areas') :
  Adds s s' (code ++ code') (areas ++ areas')
  := ⟨h.toEnlarges.trans h'.toEnlarges, by rw [h'.body, h.body, List.append_assoc]⟩

/-! ## Actions of selection -/

namespace Select

section

variable {α β : Type} {f : Flow.Function} {c : SelectContext} {s s' : SelectState}

theorem bind_run {x : Select α} {g : α → Select β} {b : β} :
  ((x >>= g).run c).run s = .ok (b, s')
    ↔ ∃ a t, (x.run c).run s = .ok (a, t) ∧ ((g a).run c).run t = .ok (b, s')
  := by
  simp only [ReaderT.run_bind, StateT.run_bind, bind_eq_ok, Prod.exists]

theorem pure_run {a b : α} :
  (((pure a : Select α).run c).run s = .ok (b, s')) ↔ a = b ∧ s = s'
  := by
  change (Except.ok (a, s) : Except CodegenError (α × SelectState)) = .ok (b, s') ↔ _
  simp

theorem read_run {a : SelectContext} :
  (((read : Select SelectContext).run c).run s = .ok (a, s')) ↔ c = a ∧ s = s'
  := by
  change (Except.ok (c, s) : Except CodegenError (SelectContext × SelectState)) = .ok (a, s') ↔ _
  simp

theorem get_run {a : SelectState} :
  (((get : Select SelectState).run c).run s = .ok (a, s')) ↔ s = a ∧ s = s'
  := by
  change (Except.ok (s, s) : Except CodegenError (SelectState × SelectState)) = .ok (a, s') ↔ _
  simp

theorem modify_run {g : SelectState → SelectState} {a : Unit} :
  (((modify g : Select Unit).run c).run s = .ok (a, s')) ↔ g s = s'
  := by
  change (Except.ok ((), g s) : Except CodegenError (Unit × SelectState)) = .ok (a, s') ↔ _
  simp

theorem throw_run {e : CodegenError} {a : α} :
  ¬((throw e : Select α).run c).run s = .ok (a, s')
  := by
  intro h
  cases h

theorem tooLarge_run {a : α} :
  ¬((tooLarge : Select α).run c).run s = .ok (a, s')
  := by
  rw [tooLarge, bind_run]
  rintro ⟨_, _, -, h⟩
  exact throw_run h

theorem bytes_run {words a : Nat} (h : ((bytes words).run c).run s = .ok (a, s')) :
  a = bytesFor words ∧ s = s'
  := by
  unfold bytes at h
  split at h
  · obtain ⟨rfl, rfl⟩ := pure_run.mp h
    exact ⟨rfl, rfl⟩
  · exact absurd h tooLarge_run

theorem after_run {offset size a : Nat} (h : ((after offset size).run c).run s = .ok (a, s')) :
  (a = offset + size ∧ a ≤ maxOffset) ∧ s = s'
  := by
  unfold after at h
  split at h
  · next hle =>
    obtain ⟨rfl, rfl⟩ := pure_run.mp h
    exact ⟨⟨rfl, hle⟩, rfl⟩
  · exact absurd h tooLarge_run

theorem slotOffset_run {slot : SlotId} {a : Nat} :
  ((slotOffset slot).run c).run s = .ok (a, s') ↔ c.slots.getD slot 0 = a ∧ s = s'
  := by
  change (Except.ok (c.slots.getD slot 0, s) : Except CodegenError (Nat × SelectState)) = .ok (a, s') ↔ _
  simp

theorem resolve_run {callee : String} {a : Unit}
    (h : ((resolve callee).run c).run s = .ok (a, s')) :
  s = s'
  := by
  simp only [resolve, bind_run, read_run] at h
  obtain ⟨_, _, ⟨rfl, rfl⟩, h⟩ := h
  split at h
  · exact absurd h throw_run
  · exact (pure_run.mp h).2

/-! ### What adds to code and frame -/

theorem adds_emit {i : Instr VReg} {a : Unit} (h : ((emit i).run c).run s = .ok (a, s')) :
  Adds s s' [i] []
  := by
  obtain rfl := modify_run.mp h
  exact ⟨⟨le_rfl, rfl, id⟩, rfl⟩

theorem adds_frameArea {words o : Nat} (h : ((frameArea words).run c).run s = .ok (o, s')) :
  Adds s s' [] [.ofSize o (bytesFor words)]
  := by
  simp only [frameArea, bind_run, get_run, pure_run] at h
  obtain ⟨_, _, ⟨rfl, rfl⟩, _, _, hbytes, _, _, hafter, _, _, hmodify, rfl, rfl⟩ := h
  obtain ⟨rfl, rfl⟩ := bytes_run hbytes
  obtain ⟨⟨rfl, hsmall⟩, rfl⟩ := after_run hafter
  obtain rfl := modify_run.mp hmodify
  exact ⟨⟨le_rfl, stacked_ofSize _ _, fun _ => hsmall⟩, (List.append_nil _).symm⟩

theorem adds_copyValue {dst : VReg} {type : ValueType} {source : Address VReg} {a : Unit}
    (h : ((copyValue dst type source).run c).run s = .ok (a, s')) :
  ∃ o, Adds s s' [.copy (.frame o) source type.words, .locate dst (.frame o)] [.ofSize o (bytesFor type.words)]
  := by
  simp only [copyValue, bind_run] at h
  obtain ⟨o, _, harea, _, _, hcopy, hlocate⟩ := h
  exact ⟨o, ((adds_frameArea harea).trans (adds_emit hcopy)).trans (adds_emit hlocate)⟩

theorem adds_stringLabel {text a : String} (h : ((stringLabel text).run c).run s = .ok (a, s')) :
  Adds s s' [] []
  := by
  simp only [stringLabel, bind_run, get_run] at h
  obtain ⟨_, _, ⟨rfl, rfl⟩, h⟩ := h
  split at h
  · obtain ⟨-, rfl⟩ := pure_run.mp h
    exact Adds.refl _
  · simp only [bind_run, modify_run, pure_run] at h
    obtain ⟨_, _, rfl, -, rfl⟩ := h
    exact ⟨⟨le_rfl, rfl, id⟩, (List.append_nil _).symm⟩

/-! ### In a context -/

section

variable (hc : c.IsAbout f)

include hc

theorem operand_run {v : VarId} {a : Operand VReg} :
  ((operand v).run c).run s = .ok (a, s') ↔ operandFor f v = a ∧ s = s'
  := by
  have hpure : ((operand v).run c).run s = .ok (operandFor f v, s) := by
    unfold operand operandFor
    rw [bind_run, ← hc.immediates]
    refine ⟨c, s, rfl, ?_⟩
    cases c.immediates.lookup v <;> rfl
  rw [hpure]
  simp

theorem operands_run {vs : List VarId} {a : List (Operand VReg)} :
  ((vs.mapM operand).run c).run s = .ok (a, s') ↔ vs.map (operandFor f) = a ∧ s = s'
  := by
  induction vs generalizing a s with
  | nil => exact pure_run
  | cons v vs ih =>
    simp only [List.mapM_cons, bind_run, operand_run hc, pure_run]
    constructor
    · rintro ⟨_, _, ⟨rfl, rfl⟩, _, _, hrest, rfl, rfl⟩
      obtain ⟨rfl, rfl⟩ := ih.mp hrest
      exact ⟨rfl, rfl⟩
    · rintro ⟨rfl, rfl⟩
      exact ⟨_, _, ⟨rfl, rfl⟩, _, _, ih.mpr ⟨rfl, rfl⟩, rfl, rfl⟩

theorem typeOf_run {v : VarId} {a : ValueType} :
  ((typeOf v).run c).run s = .ok (a, s') ↔ f.varType v = a ∧ s = s'
  := by
  change (Except.ok (c.function.varType v, s) : Except CodegenError (ValueType × SelectState)) = .ok (a, s') ↔ _
  simp [hc.function]

theorem elementType_run {slot : SlotId} {a : ValueType}
    (h : ((elementType slot).run c).run s = .ok (a, s')) :
  s = s' ∧ ∀ element length, f.slotType slot = .array element length → a = element
  := by
  simp only [elementType, bind_run, read_run] at h
  obtain ⟨_, _, ⟨rfl, rfl⟩, h⟩ := h
  rw [hc.function] at h
  split at h
  · next element length htype =>
    obtain ⟨rfl, rfl⟩ := pure_run.mp h
    refine ⟨rfl, ?_⟩
    rintro _ _ heq
    rw [htype] at heq
    cases heq
    rfl
  · next hne =>
    obtain ⟨-, rfl⟩ := pure_run.mp h
    exact ⟨rfl, fun element length heq => absurd heq (hne element length)⟩

theorem elementOffset_run {slot : SlotId} {position a : Nat}
    (h : ((elementOffset slot position).run c).run s = .ok (a, s')) :
  s = s' ∧ IsOffset f c.slots slot position a
  := by
  simp only [elementOffset, bind_run, pure_run, slotOffset_run] at h
  obtain ⟨_, _, htype, _, _, hscale, _, _, ⟨rfl, rfl⟩, rfl, rfl⟩ := h
  obtain ⟨rfl, helement⟩ := elementType_run hc htype
  obtain ⟨rfl, rfl⟩ := bytes_run hscale
  refine ⟨rfl, fun element length harray => ?_⟩
  rw [helement element length harray]

theorem elementAddress_run {slot : SlotId} {index : VarId} {a : Address VReg}
    (h : ((elementAddress slot index).run c).run s = .ok (a, s')) :
  s = s' ∧ IsElement f c.slots slot index a
  := by
  simp only [elementAddress, bind_run, operand_run hc] at h
  obtain ⟨_, _, ⟨rfl, rfl⟩, h⟩ := h
  cases hlookup : (immediates f).lookup index with
  | some n =>
    have hoperand : operandFor f index = .imm n := by rw [operandFor, hlookup]
    simp only [hoperand, bind_run, pure_run] at h
    obtain ⟨_, _, hoffset, rfl, rfl⟩ := h
    obtain ⟨rfl, helement⟩ := elementOffset_run hc hoffset
    exact ⟨rfl, by rw [hoperand]; rfl, fun element length harray =>
      .inl ⟨n, hlookup, congrArg _ (helement element length harray)⟩⟩
  | none =>
    have hoperand : operandFor f index = .reg index := by rw [operandFor, hlookup]
    simp only [hoperand, bind_run, pure_run, slotOffset_run] at h
    obtain ⟨_, _, htype, _, _, hscale, _, _, ⟨rfl, rfl⟩, rfl, rfl⟩ := h
    obtain ⟨rfl, helement⟩ := elementType_run hc htype
    obtain ⟨rfl, rfl⟩ := bytes_run hscale
    refine ⟨rfl, by rw [hoperand]; rfl, fun element length harray => .inr ?_⟩
    rw [helement element length harray]

/-- An instruction on lanes works on as many as the register of a variable has. -/
theorem lanes_run {v : VarId} {instruction : String} {a : Nat}
    (h : ((lanes v instruction).run c).run s = .ok (a, s')) :
  registerWords (f.varType v) = a ∧ s = s'
  := by
  simp only [lanes, bind_run, read_run, typeOf_run hc] at h
  obtain ⟨_, _, ⟨rfl, rfl⟩, _, _, ⟨rfl, rfl⟩, h⟩ := h
  split at h
  · exact pure_run.mp h
  · obtain ⟨_, _, hthrow, -⟩ := bind_run.mp h
    exact absurd hthrow throw_run

theorem adds_storeValue {address : Address VReg} {type : ValueType} {value : VarId} {a : Unit}
    (h : ((storeValue address type value).run c).run s = .ok (a, s')) :
  Adds s s' [storeCode f address type value] []
  := by
  unfold storeValue at h
  unfold storeCode
  split at h
  · next htype =>
    rw [if_pos htype]
    exact adds_emit h
  · next htype =>
    simp only [bind_run, operand_run hc] at h
    obtain ⟨_, _, ⟨rfl, rfl⟩, h⟩ := h
    rw [if_neg htype]
    exact adds_emit h

theorem adds_loadValue {dst : VarId} {address : Address VReg} {a : Unit}
    (h : ((loadValue dst address).run c).run s = .ok (a, s')) :
  ∃ code areas, Adds s s' code areas ∧ LoadCode dst (f.varType dst) address code areas
  := by
  simp only [loadValue, bind_run, typeOf_run hc] at h
  obtain ⟨_, _, ⟨rfl, rfl⟩, h⟩ := h
  split at h
  · obtain ⟨o, hadds⟩ := adds_copyValue h
    exact ⟨_, _, hadds, .value o⟩
  · next htype => exact ⟨_, _, adds_emit h, .word (Bool.eq_false_iff.mpr htype)⟩

theorem adds_storeParts {offset : Nat} {parts : List (VarId × ValueType)} {a : Unit}
    (h : ((storeParts offset parts).run c).run s = .ok (a, s')) :
  Adds s s' (partsCode f offset parts) []
  := by
  induction parts generalizing offset s with
  | nil =>
    obtain ⟨-, rfl⟩ := pure_run.mp h
    exact Adds.refl s
  | cons part parts ih =>
    simp only [storeParts, bind_run] at h
    obtain ⟨_, _, hstore, _, _, hbytes, _, _, hafter, hrest⟩ := h
    obtain ⟨rfl, rfl⟩ := bytes_run hbytes
    obtain ⟨⟨rfl, -⟩, rfl⟩ := after_run hafter
    exact (adds_storeValue hc hstore).trans (ih hrest)

theorem adds_set {dst : VarId} {value : Value} {a : Unit} (h : ((set dst value).run c).run s = .ok (a, s')) :
  ∃ label, Adds s s' [setCode f label dst value] []
  := by
  cases value with
  | const k =>
    cases k with
    | str text =>
      simp only [set, bind_run] at h
      obtain ⟨label, _, hlabel, hemit⟩ := h
      exact ⟨label, (adds_stringLabel hlabel).trans (adds_emit hemit)⟩
    | int | bool | float => exact ⟨"", adds_emit h⟩
  | copy source | unary op source =>
    simp only [set, bind_run, operand_run hc] at h
    obtain ⟨_, _, ⟨rfl, rfl⟩, h⟩ := h
    exact ⟨"", adds_emit h⟩
  | cast source =>
    simp only [set, bind_run, operand_run hc, typeOf_run hc] at h
    obtain ⟨_, _, ⟨rfl, rfl⟩, _, _, ⟨rfl, rfl⟩, h⟩ := h
    exact ⟨"", adds_emit h⟩
  | binary op lhs rhs =>
    simp only [set, bind_run, operand_run hc] at h
    obtain ⟨_, _, ⟨rfl, rfl⟩, _, _, ⟨rfl, rfl⟩, h⟩ := h
    refine ⟨"", ?_⟩
    rw [setCode]
    split at h
    · next himmediate =>
      rw [if_pos himmediate]
      exact adds_emit h
    · next himmediate =>
      rw [if_neg himmediate]
      exact adds_emit h

theorem selects_call {dst : Option VarId} {callee : String} {args : List VarId} {convention : Convention}
    (isTail : Bool) {a : Unit} (h : ((call dst callee args convention).run c).run s = .ok (a, s')) :
  ∃ code areas, Adds s s' code areas ∧ ∀ count, s'.temporaries ≤ count →
    Selects f c.slots count (.call dst callee args convention isTail) code areas
  := by
  simp only [call, bind_run, operands_run hc] at h
  obtain ⟨_, _, hresolve, _, _, ⟨rfl, rfl⟩, h⟩ := h
  obtain rfl := resolve_run hresolve
  cases dst with
  | none => exact ⟨_, _, adds_emit h, fun _ _ => .call⟩
  | some dst =>
    simp only [bind_run, typeOf_run hc] at h
    obtain ⟨_, _, ⟨rfl, rfl⟩, h⟩ := h
    split at h
    · simp only [bind_run, read_run, get_run, modify_run] at h
      obtain ⟨_, _, ⟨rfl, rfl⟩, _, _, ⟨rfl, rfl⟩, _, _, rfl, _, _, hemit, hcopy⟩ := h
      obtain ⟨o, hadds⟩ := adds_copyValue hcopy
      have hall := (adds_emit hemit).trans hadds
      rw [hc.function] at hall
      refine ⟨_, _, ⟨⟨(Nat.le_succ _).trans hall.temporaries, hall.stacked, hall.small⟩, hall.body⟩,
        fun count hcount => .callValue o ?_⟩
      exact Nat.add_lt_add_left (hall.temporaries.trans hcount) _
    · exact ⟨_, _, adds_emit h, fun _ _ => .call⟩

theorem selects_make {i : Flow.Instr} {dst : VarId} {elements : List VarId}
    (hi : i = .makeArray dst elements ∨ i = .makeTuple dst elements) {a : Unit}
    (h : ((make dst elements).run c).run s = .ok (a, s')) :
  ∃ code areas, Adds s s' code areas ∧ ∀ count, s'.temporaries ≤ count → Selects f c.slots count i code areas
  := by
  simp only [make, bind_run, typeOf_run hc] at h
  obtain ⟨_, _, ⟨rfl, rfl⟩, o, _, harea, _, _, hstore, hlocate⟩ := h
  exact ⟨_, _, ((adds_frameArea harea).trans (adds_storeParts hc hstore)).trans (adds_emit hlocate),
    fun _ _ => .make o hi⟩

/-- The code that is selected for an instruction. -/
theorem selects_instr {i : Flow.Instr} {a : Unit} (h : ((instr i).run c).run s = .ok (a, s')) :
  ∃ code areas, Adds s s' code areas ∧ ∀ count, s'.temporaries ≤ count → Selects f c.slots count i code areas
  := by
  cases i with
  | set dst value =>
    simp only [instr, bind_run, read_run] at h
    obtain ⟨_, _, ⟨rfl, rfl⟩, h⟩ := h
    split at h
    · next hskip =>
      obtain ⟨-, rfl⟩ := pure_run.mp h
      refine ⟨[], [], Adds.refl s, fun _ _ => .skip fun hkept => ?_⟩
      simp [hc.immediates, hc.fused, hkept.immediate, hkept.fused] at hskip
    · obtain ⟨label, hadds⟩ := adds_set hc h
      exact ⟨_, _, hadds, fun _ _ => .set label⟩
  | call dst callee args convention isTail => exact selects_call hc isTail h
  | load dst slot =>
    simp only [instr, bind_run, slotOffset_run] at h
    obtain ⟨_, _, ⟨rfl, rfl⟩, h⟩ := h
    obtain ⟨code, areas, hadds, hload⟩ := adds_loadValue hc h
    exact ⟨code, areas, hadds, fun _ _ => .load hload⟩
  | store slot value =>
    simp only [instr, bind_run, read_run, slotOffset_run] at h
    obtain ⟨_, _, ⟨rfl, rfl⟩, _, _, ⟨rfl, rfl⟩, h⟩ := h
    rw [hc.function] at h
    exact ⟨_, _, adds_storeValue hc h, fun _ _ => .store⟩
  | loadGlobal dst name =>
    simp only [instr, bind_run, typeOf_run hc] at h
    obtain ⟨_, _, ⟨rfl, rfl⟩, h⟩ := h
    split at h
    · exact ⟨_, _, adds_emit h, fun _ _ => .locateGlobal⟩
    · exact ⟨_, _, adds_emit h, fun _ _ => .loadGlobal⟩
  | loadElement dst slot index =>
    simp only [instr, bind_run] at h
    obtain ⟨_, _, haddress, h⟩ := h
    obtain ⟨rfl, hplace⟩ := elementAddress_run hc haddress
    obtain ⟨code, areas, hadds, hload⟩ := adds_loadValue hc h
    exact ⟨code, areas, hadds, fun _ _ => .loadElement hplace hload⟩
  | storeElement slot index value =>
    simp only [instr, bind_run] at h
    obtain ⟨_, _, haddress, _, _, htype, h⟩ := h
    obtain ⟨rfl, hplace⟩ := elementAddress_run hc haddress
    obtain ⟨rfl, helement⟩ := elementType_run hc htype
    exact ⟨_, _, adds_storeValue hc h, fun _ _ => .storeElement hplace helement⟩
  | boundsCheck index length =>
    simp only [instr, bind_run, operand_run hc] at h
    obtain ⟨_, _, ⟨rfl, rfl⟩, h⟩ := h
    exact ⟨_, _, adds_emit h, fun _ _ => .boundsCheck⟩
  | makeArray dst elements => exact selects_make hc (.inl rfl) h
  | makeTuple dst elements => exact selects_make hc (.inr rfl) h
  | extract dst tuple index =>
    simp only [instr, bind_run, typeOf_run hc] at h
    obtain ⟨_, _, ⟨rfl, rfl⟩, _, _, hbytes, h⟩ := h
    obtain ⟨rfl, rfl⟩ := bytes_run hbytes
    obtain ⟨code, areas, hadds, hload⟩ := adds_loadValue hc h
    exact ⟨code, areas, hadds, fun _ _ => .extract hload⟩
  | alloc dst size =>
    simp only [instr, bind_run, operand_run hc] at h
    obtain ⟨_, _, ⟨rfl, rfl⟩, h⟩ := h
    exact ⟨_, _, adds_emit h, fun _ _ => .alloc⟩
  | free pointer => exact ⟨_, _, adds_emit h, fun _ _ => .free (.inl rfl)⟩
  | release pointer => exact ⟨_, _, adds_emit h, fun _ _ => .free (.inr rfl)⟩
  | loadLanes dst slot start =>
    simp only [instr, bind_run] at h
    obtain ⟨_, _, hwidth, _, _, hoffset, h⟩ := h
    obtain ⟨rfl, rfl⟩ := lanes_run hc hwidth
    obtain ⟨rfl, hplace⟩ := elementOffset_run hc hoffset
    exact ⟨_, _, adds_emit h, fun _ _ => .loadLanes hplace⟩
  | storeLanes slot start value =>
    simp only [instr, bind_run] at h
    obtain ⟨_, _, hwidth, _, _, hoffset, h⟩ := h
    obtain ⟨rfl, rfl⟩ := lanes_run hc hwidth
    obtain ⟨rfl, hplace⟩ := elementOffset_run hc hoffset
    exact ⟨_, _, adds_emit h, fun _ _ => .storeLanes hplace⟩
  | binaryLanes dst op lhs rhs =>
    simp only [instr, bind_run] at h
    obtain ⟨_, _, hwidth, h⟩ := h
    obtain ⟨rfl, rfl⟩ := lanes_run hc hwidth
    exact ⟨_, _, adds_emit h, fun _ _ => .binaryLanes⟩

/-- The moves and the control that are selected for a terminator. -/
theorem ends_terminator {t : Terminator} {a : List (VReg × Operand VReg) × Control VReg}
    (h : ((terminator t).run c).run s = .ok (a, s')) :
  s = s' ∧ Ends f t a.1 a.2
  := by
  cases t with
  | unreachable =>
    obtain ⟨rfl, rfl⟩ := pure_run.mp h
    exact ⟨rfl, .unreachable⟩
  | ret value =>
    cases value with
    | none =>
      obtain ⟨rfl, rfl⟩ := pure_run.mp h
      exact ⟨rfl, .ret none⟩
    | some value =>
      simp only [terminator, bind_run, operand_run hc, pure_run] at h
      obtain ⟨_, _, ⟨rfl, rfl⟩, rfl, rfl⟩ := h
      exact ⟨rfl, .ret (some value)⟩
  | jump target args =>
    simp only [terminator, bind_run, operands_run hc, read_run, pure_run] at h
    obtain ⟨_, _, ⟨rfl, rfl⟩, _, _, ⟨rfl, rfl⟩, rfl, rfl⟩ := h
    rw [hc.function]
    exact ⟨rfl, .jump target args⟩
  | branch test thenBlock elseBlock =>
    simp only [terminator, bind_run, read_run] at h
    obtain ⟨_, _, ⟨rfl, rfl⟩, h⟩ := h
    rw [hc.fused] at h
    cases hfused : (fusedComparisons f).lookup test with
    | some comparison =>
      simp only [hfused, bind_run, operand_run hc, pure_run] at h
      obtain ⟨_, _, ⟨rfl, rfl⟩, _, _, ⟨rfl, rfl⟩, rfl, rfl⟩ := h
      exact ⟨rfl, .compare thenBlock elseBlock hfused⟩
    | none =>
      rw [hfused] at h
      obtain ⟨rfl, rfl⟩ := pure_run.mp h
      exact ⟨rfl, .branch thenBlock elseBlock hfused⟩

theorem selects_lines {lines : List Line} {a : Unit}
    (h : ((lines.forM fun line => ReaderT.adapt (fun c => { c with span := line.span })
      (Select.instr line.instr) : Select Unit).run c).run s = .ok (a, s')) :
  ∃ pieces : List (List (Instr VReg) × List Area), Adds s s' (pieces.flatMap (·.1)) (pieces.flatMap (·.2))
    ∧ ∀ count, s'.temporaries ≤ count → SelectsLines f c.slots count lines pieces
  := by
  induction lines generalizing s with
  | nil =>
    obtain ⟨-, rfl⟩ := pure_run.mp h
    exact ⟨[], Adds.refl s, fun _ _ => .nil⟩
  | cons line lines ih =>
    obtain ⟨_, t, hline, hrest⟩ := bind_run.mp h
    obtain ⟨code, areas, hadds, hcode⟩ := selects_instr (c := { c with span := line.span })
      ⟨hc.function, hc.immediates, hc.fused⟩ hline
    obtain ⟨pieces, hadds', hpieces⟩ := ih hrest
    exact ⟨(code, areas) :: pieces, hadds.trans hadds', fun count hcount =>
      .cons (hcode count (hadds'.temporaries.trans hcount)) (hpieces count hcount)⟩

theorem selects_block {id : BlockId} (hbody : s.body = []) {b : SelectedBlock}
    (h : ((block id (f.block id)).run c).run s = .ok (b, s')) :
  b.id = id ∧ s'.body = [] ∧ ∃ areas, Enlarges s s' areas
    ∧ ∀ count, s'.temporaries ≤ count → SelectsBlock f c.slots count b areas
  := by
  simp only [block, bind_run, get_run, modify_run, pure_run] at h
  obtain ⟨_, t, hlines, ⟨moves, control⟩, t', hterminator, _, _, ⟨rfl, rfl⟩, _, _, rfl, rfl, rfl⟩ := h
  obtain ⟨rfl, hends⟩ := ends_terminator hc hterminator
  obtain ⟨pieces, hadds, hpieces⟩ := selects_lines hc hlines
  refine ⟨rfl, rfl, _, ⟨hadds.temporaries, hadds.stacked, hadds.small⟩, fun count hcount => ⟨⟨pieces, ?_, rfl, ?_⟩, hends⟩⟩
  · rw [hadds.body, hbody, List.nil_append]
  · exact hpieces count hcount

theorem selects_blocks {ids : List BlockId} (hbody : s.body = []) {blocks : List SelectedBlock}
    (h : ((ids.mapM fun id => block id (f.block id)).run c).run s = .ok (blocks, s')) :
  blocks.map (·.id) = ids ∧ ∃ made : List (List Area), Enlarges s s' made.flatten
    ∧ ∀ count, s'.temporaries ≤ count → List.Forall₂ (SelectsBlock f c.slots count) blocks made
  := by
  induction ids generalizing s blocks with
  | nil =>
    obtain ⟨rfl, rfl⟩ := pure_run.mp h
    exact ⟨rfl, [], .refl s, fun _ _ => .nil⟩
  | cons id ids ih =>
    simp only [List.mapM_cons, bind_run, pure_run] at h
    obtain ⟨first, t, hfirst, rest, _, hrest, rfl, rfl⟩ := h
    obtain ⟨hid, hnext, areas, henlarges, hblock⟩ := selects_block hc hbody hfirst
    obtain ⟨hids, made, henlarges', hblocks⟩ := ih hnext hrest
    exact ⟨by rw [List.map_cons, hid, hids], areas :: made, henlarges.trans henlarges', fun count hcount =>
      .cons (hblock count (henlarges'.temporaries.trans hcount)) (hblocks count hcount)⟩

end

theorem layOutSlots_run {isUsed : SlotId → Bool} {slot : SlotId} {offset : Nat} {slots : List Slot}
    {a : List Nat × Nat} (h : ((layOutSlots isUsed slot offset slots).run c).run s = .ok (a, s')) :
  s = s'
  := by
  induction slots generalizing slot offset a s with
  | nil => exact (pure_run.mp h).2
  | cons first slots ih =>
    rw [layOutSlots] at h
    split at h
    · simp only [bind_run, pure_run] at h
      obtain ⟨_, _, hbytes, _, _, hafter, _, _, hrest, -, rfl⟩ := h
      obtain ⟨-, rfl⟩ := bytes_run hbytes
      obtain ⟨-, rfl⟩ := after_run hafter
      exact ih hrest
    · simp only [pure_bind, bind_run, pure_run] at h
      obtain ⟨_, _, hrest, -, rfl⟩ := h
      exact ih hrest

end

end Select

/-- The slots that an instruction reads or writes. -/
def slotsOf (i : Flow.Instr) : List SlotId := i.readSlot?.toList ++ i.writtenSlot?.toList

/-- The slots that instructions of a function read or write. -/
def usedSlots (f : Flow.Function) : List SlotId := (f.blocks.flatMap (·.instrs)).flatMap slotsOf

/--
What selection makes of a function: `count` registers stand for no variable, the areas that are made for each block
come behind the slots, which end at `size`, and the slots have been laid out.
-/
structure SelectsFunction (f : Flow.Function) (selected : SelectedFunction) (slots : List Nat) (size count : Nat)
    (made : List (List Area)) : Prop where
  params : selected.params = f.params
  ids : selected.blocks.map (·.id) = f.reversePostorder
  words : selected.regWords = f.varTypes.map registerWords ++ List.replicate count 1
  layout : ∃ c s, ((Select.layOutSlots (usedSlots f).contains 0 0 f.slots).run c).run s = .ok ((slots, size), s)
  stacked : Stacked size made.flatten selected.frameSize
  small : size ≤ maxOffset → selected.frameSize ≤ maxOffset
  blocks : List.Forall₂ (SelectsBlock f slots count) selected.blocks made

theorem selects_select {f : Flow.Function} {p : Program} {target : Target} {strings strings' : List String}
    {selected : SelectedFunction} (h : select p target strings f = .ok (selected, strings')) :
  ∃ slots size count made, SelectsFunction f selected slots size count made
  := by
  simp only [select, bind_eq_ok, Prod.exists, pure, Except.pure, Except.ok.injEq, Prod.mk.injEq] at h
  obtain ⟨_, state, hrun, rfl, -⟩ := h
  simp only [Select.function, Select.bind_run, Select.read_run, Select.modify_run, Select.get_run,
    Select.pure_run] at hrun
  obtain ⟨_, _, ⟨rfl, rfl⟩, ⟨offsets, size⟩, _, hslots, _, _, rfl, blocks, t, hblocks, _, _,
    ⟨rfl, rfl⟩, rfl, rfl⟩ := hrun
  obtain rfl := Select.layOutSlots_run hslots
  obtain ⟨hids, made, henlarges, hall⟩ := Select.selects_blocks (c := ⟨p, target, f, immediates f,
    fusedComparisons f, offsets, none⟩) ⟨rfl, rfl, rfl⟩ rfl hblocks
  exact ⟨offsets, size, t.temporaries, made, rfl, hids, rfl, ⟨_, _, hslots⟩, henlarges.stacked, henlarges.small,
    hall _ le_rfl⟩

end FormCompiler.Machine
