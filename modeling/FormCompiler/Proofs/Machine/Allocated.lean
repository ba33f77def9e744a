import FormCompiler.Proofs.Machine.Selected

/-!
# Allocated code runs like selected code

The registers that are live at the start of a selected block stand for variables that are defined
there. So nothing but the parameters is live at the start of a function, and what registers hold
there otherwise does not matter: by `run_blocks`, the allocated code of a well-formed function does
what the selected code does. `run_allocate` says so for every run.
-/

namespace FormCompiler.Machine

open FormCompiler.Flow

theorem exists_of_mem_forall₂ {α β : Type} {R : α → β → Prop} {xs : List α} {ys : List β} (h : List.Forall₂ R xs ys)
    {y : β} (hy : y ∈ ys) :
  ∃ x ∈ xs, R x y
  := by
  induction h with
  | nil => cases hy
  | cons hfirst _ ih =>
    rcases List.mem_cons.mp hy with rfl | hy
    · exact ⟨_, List.mem_cons_self, hfirst⟩
    · obtain ⟨x, hx, hR⟩ := ih hy
      exact ⟨x, List.mem_cons_of_mem _ hx, hR⟩

/-! ## Code of an instruction -/

/-- A register stands for a variable that is computed into it. -/
structure HasRegister (f : Flow.Function) (v : VarId) : Prop where
  lt : v < f.varTypes.length
  kept : IsKept f v

/-- The callees of a function take no more words of an argument than its register has. -/
structure World.Takes (W : World) (f : Flow.Function) : Prop where
  args : ∀ b ∈ f.blocks, ∀ dst callee args convention isTail,
    .call dst callee args convention isTail ∈ b.instrs → ∀ (i : Nat) (v : VarId),
    args[i]? = some v → W.argWords callee i ≤ registerWords (f.varType v)
  result : W.resultWords ≤ registerWords f.result

/-- The steps of some instructions. -/
def accessesOf (code : List (Instr VReg)) : List Access := code.map fun i => ⟨i.uses, i.def?.toList⟩

theorem liveBefore_append {live : VReg → Prop} {steps steps' : List Access} {v : VReg} :
  LiveBefore live (steps ++ steps') v ↔ LiveBefore (LiveBefore live steps') steps v
  := by
  induction steps with
  | nil => rfl
  | cons step steps ih => simp only [List.cons_append, LiveBefore, ih]

/--
Code that does what an instruction does to registers: it reads registers of `uses`, and writes that
of `dst`. There are `count` registers that stand for no variable.
-/
structure IsCode (f : Flow.Function) (W : World) (lanes : VReg → Nat) (count : Nat)
    (uses : List VarId) (dst : Option VarId) (code : List (Instr VReg)) : Prop where
  bounded : ∀ i ∈ code, ∀ v ∈ i.uses ++ i.def?.toList, v < f.varTypes.length + count
  live : ∀ {live : VReg → Prop} {v : VReg}, (∀ w, live w → HasRegister f w) →
    LiveBefore live (accessesOf code) v → (v ∈ uses ∧ HasRegister f v) ∨ (live v ∧ dst ≠ some v)
  fits : ∀ i ∈ code, i.Fits W lanes

section

variable {f : Flow.Function} {W : World} {lanes : VReg → Nat} {count : Nat} {uses : List VarId}
  {dst : Option VarId}

/-- An instruction reads registers of some variables. -/
def ReadsFrom (f : Flow.Function) (uses : List VarId) (i : Instr VReg) : Prop :=
  ∀ v ∈ i.uses, v ∈ uses ∧ HasRegister f v

theorem IsCode.single {i : Instr VReg} (hdef : i.def? = dst)
    (hdst : ∀ d, dst = some d → d < f.varTypes.length) (huses : ReadsFrom f uses i)
    (hfits : i.Fits W lanes) :
  IsCode f W lanes count uses dst [i]
  := by
  constructor
  · intro j hj v hv
    obtain rfl := List.mem_singleton.mp hj
    apply Nat.lt_add_right
    rcases List.mem_append.mp hv with hv | hv
    · exact (huses v hv).2.lt
    · rw [hdef] at hv
      exact hdst v (by simpa using hv)
  · rintro live v - (hv | ⟨hnot, hv⟩)
    · exact .inl (huses v hv)
    · exact .inr ⟨hv, by simpa [hdef] using hnot⟩
  · intro j hj
    obtain rfl := List.mem_singleton.mp hj
    exact hfits

/-- Code that defines nothing can stand in front. -/
theorem IsCode.append {code code' : List (Instr VReg)} (h : IsCode f W lanes count uses none code)
    (h' : IsCode f W lanes count uses dst code') :
  IsCode f W lanes count uses dst (code ++ code')
  := by
  constructor
  · intro i hi
    rcases List.mem_append.mp hi with hi | hi
    · exact h.bounded i hi
    · exact h'.bounded i hi
  · intro live v hkept hv
    rw [accessesOf, List.map_append, liveBefore_append] at hv
    have hkept' : ∀ w, LiveBefore live (accessesOf code') w → HasRegister f w := by
      intro w hw
      rcases h'.live hkept hw with ⟨-, hreg⟩ | ⟨hlive, -⟩
      · exact hreg
      · exact hkept w hlive
    rcases h.live hkept' hv with huse | ⟨hlive, -⟩
    · exact .inl huse
    · exact h'.live hkept hlive
  · intro i hi
    rcases List.mem_append.mp hi with hi | hi
    · exact h.fits i hi
    · exact h'.fits i hi

theorem IsCode.nil :
  IsCode f W lanes count uses none []
  := ⟨by simp, fun _ hv => .inr ⟨hv, by simp⟩, by simp⟩

end

/-- How variables may be read: as operands, and if they are no numbers, also as addresses. -/
structure CanRead (f : Flow.Function) (uses : List VarId) : Prop where
  operand : ∀ v ∈ uses, ∀ w, (operandFor f v).reg? = some w → w ∈ uses ∧ HasRegister f w
  direct : ∀ v ∈ uses, ∀ t, f.varTypes[v]? = some t → isWhole t = false → HasRegister f v

/-- Virtual registers have as many lanes as their variables need, and at least one. -/
def HasLanesOf (lanes : VReg → Nat) (f : Flow.Function) : Prop :=
  ∀ v, v < f.varTypes.length → lanes v = max 1 (registerWords (f.varType v))

section

variable {f : Flow.Function} {W : World} {lanes : VReg → Nat} {count : Nat} {uses : List VarId} {v w dst : VarId}

theorem reg?_operandFor (h : (operandFor f v).reg? = some w) :
  w = v ∧ (immediates f).lookup v = none
  := by
  unfold operandFor at h
  cases hlookup : (immediates f).lookup v with
  | some n =>
    rw [hlookup] at h
    cases h
  | none =>
    rw [hlookup] at h
    exact ⟨(Option.some.inj h).symm, rfl⟩

theorem operandFor_eq_reg (h : operandFor f v = .reg w) :
  w = v
  := (reg?_operandFor (by rw [h]; rfl)).1

theorem isPlain_operandFor (f : Flow.Function) (v : VarId) :
  (operandFor f v).IsPlain
  := by
  intro offset
  unfold operandFor
  split <;> simp

/-- What instructions of a well-formed function read can be read. -/
theorem canRead_of_mem
    (hf : f.verify = .ok ()) {id : BlockId} {b : Flow.Block} (hb : f.blocks[id]? = some b) {i : Flow.Instr}
    (hi : i ∈ b.instrs) (huses : ∀ v ∈ i.uses, v < f.varTypes.length) :
  CanRead f i.uses
  := by
  constructor
  · intro v hv w hw
    obtain ⟨rfl, himmediate⟩ := reg?_operandFor hw
    exact ⟨hv, huses w hv, himmediate, fused_eq_none_of_mem_uses hb hi hv⟩
  · intro v hv t ht hwhole
    refine ⟨huses v hv, ?_, fused_eq_none_of_mem_uses hb hi hv⟩
    cases hlookup : (immediates f).lookup v with
    | none => rfl
    | some n =>
      obtain ⟨t', ht', hwhole'⟩ := isWhole_of_immediate hf hlookup
      rw [ht] at ht'
      obtain rfl := Option.some.inj ht'
      rw [hwhole] at hwhole'
      cases hwhole'

/-- An instruction that reads one operand. -/
theorem readsFrom_operand (h : CanRead f uses) (hv : v ∈ uses) {i : Instr VReg}
    (hi : i.uses = (operandFor f v).reg?.toList) :
  ReadsFrom f uses i
  := by
  intro w hw
  rw [hi, Option.mem_toList] at hw
  exact h.operand v hv w hw

theorem readsFrom_nil {i : Instr VReg} (hi : i.uses = []) :
  ReadsFrom f uses i
  := by
  intro w hw
  rw [hi] at hw
  cases hw

section

variable {address : Address VReg} {type : ValueType}
  (haddress : ∀ v, address.reg? = some v → v ∈ uses ∧ HasRegister f v)

include haddress

/-- The code that loads a value from an address. -/
theorem LoadCode.isCode {code : List (Instr VReg)} {areas : List Area} (h : LoadCode dst type address code areas)
    (hdst : ∀ d, some dst = some d → d < f.varTypes.length) :
  IsCode f W lanes count uses (some dst) code
  := by
  have hreads : ∀ i : Instr VReg, i.uses = address.reg?.toList → ReadsFrom f uses i := by
    intro i hi v hv
    rw [hi, Option.mem_toList] at hv
    exact haddress v hv
  cases h with
  | word => exact .single rfl hdst (hreads _ (by simp [Instr.uses, Instr.operandUses, Instr.args])) trivial
  | value o =>
    have hcopy : IsCode f W lanes count uses none [.copy (.frame o) address type.words] :=
      .single rfl (by simp) (hreads _ (by simp [Instr.uses, Instr.operandUses, Instr.args, Address.reg?])) trivial
    exact hcopy.append (.single rfl hdst (readsFrom_nil rfl) trivial)

/-- A value that is stored is read as an operand, or through its address. -/
theorem isCode_storeCode (hread : CanRead f uses) {value : VarId} (hvalue : value ∈ uses)
    (htype : f.varTypes[value]? = some type) :
  IsCode f W lanes count uses none [storeCode f address type value]
  := by
  unfold storeCode
  split
  · next haggregate =>
    have hwhole : isWhole type = false := by
      cases type <;> simp_all [isAggregate, isWhole, ValueType.isInt]
    refine .single rfl (by simp) (fun v hv => ?_) trivial
    simp only [Instr.uses, Instr.operandUses, Instr.args, Address.reg?, List.filterMap_nil,
      List.append_nil, Option.toList_some, List.mem_append, List.mem_singleton,
      Option.mem_toList] at hv
    rcases hv with rfl | hv
    · exact ⟨hvalue, hread.direct v hvalue type htype hwhole⟩
    · exact haddress v hv
  · refine .single rfl (by simp) (fun v hv => ?_) (isPlain_operandFor f value)
    simp only [Instr.uses, Instr.operandUses, Instr.args, List.filterMap_nil, List.append_nil,
      List.mem_append, Option.mem_toList] at hv
    rcases hv with hv | hv
    · exact haddress v hv
    · exact hread.operand value hvalue v hv

end

theorem isCode_partsCode (hread : CanRead f uses) {parts : List (VarId × ValueType)}
    (hparts : ∀ part ∈ parts, part.1 ∈ uses ∧ f.varTypes[part.1]? = some part.2) (offset : Nat) :
  IsCode f W lanes count uses none (partsCode f offset parts)
  := by
  induction parts generalizing offset with
  | nil => exact IsCode.nil
  | cons part parts ih =>
    rw [List.forall_mem_cons] at hparts
    obtain ⟨⟨hpart, htype⟩, hrest⟩ := hparts
    exact (isCode_storeCode (by simp [Address.reg?]) hread hpart htype).append (ih hrest _)

/-- The code that sets a variable, which is computed into a register. -/
theorem isCode_setCode (hlanes : HasLanesOf lanes f) {value : Value} (hread : CanRead f value.uses)
    (hdst : ∀ d, some dst = some d → d < f.varTypes.length) (hcheck : Verify.value f dst value = .ok ())
    (label : String) :
  IsCode f W lanes count value.uses (some dst) [setCode f label dst value]
  := by
  cases value with
  | const k =>
    cases k with
    | str text => exact .single rfl hdst (readsFrom_nil rfl) trivial
    | int | bool | float =>
      exact .single rfl hdst (readsFrom_nil rfl) ⟨by simp [Operand.IsPlain], by simp⟩
  | copy source =>
    obtain ⟨t, ht, ht'⟩ := Verify.same_eq_ok.mp hcheck
    refine .single rfl hdst (readsFrom_operand hread (v := source) (by simp [Value.uses])
      (by simp [setCode, Instr.uses, Instr.operandUses, Instr.args])) ?_
    refine ⟨isPlain_operandFor f source, fun r hr => ?_⟩
    obtain rfl := operandFor_eq_reg hr
    obtain ⟨hlt, -⟩ := List.getElem?_eq_some_iff.mp ht'
    rw [hlanes dst (hdst dst rfl), hlanes r hlt]
    simp [Function.varType, ht, ht']
  | unary op source | cast source =>
    exact .single rfl hdst (readsFrom_operand hread (v := source) (by simp [Value.uses])
      (by simp [setCode, Instr.uses, Instr.operandUses, Instr.args])) (isPlain_operandFor f source)
  | binary op lhs rhs =>
    have hreads : ∀ w, (operandFor f lhs).reg? = some w ∨ (operandFor f rhs).reg? = some w →
        w ∈ (Value.binary op lhs rhs).uses ∧ HasRegister f w := by
      rintro w (hw | hw)
      · exact hread.operand lhs (by simp [Value.uses]) w hw
      · exact hread.operand rhs (by simp [Value.uses]) w hw
    rw [setCode]
    split
    · refine .single rfl hdst (fun w hw => hreads w ?_) ⟨isPlain_operandFor f rhs, isPlain_operandFor f lhs⟩
      simpa [Instr.uses, Instr.operandUses, Instr.args, or_comm] using hw
    · refine .single rfl hdst (fun w hw => hreads w ?_) ⟨isPlain_operandFor f lhs, isPlain_operandFor f rhs⟩
      simpa [Instr.uses, Instr.operandUses, Instr.args] using hw

section

variable {args : List VarId} {callee : String} {convention : Convention}

theorem readsFrom_call (hread : CanRead f args) (dst : Option VReg) :
  ReadsFrom f args (.call callee convention (args.map (operandFor f)) dst)
  := by
  intro w hw
  obtain ⟨v, hv, hreg⟩ : ∃ v ∈ args, (operandFor f v).reg? = some w := by
    simpa [Instr.uses, Instr.operandUses, Instr.args] using hw
  exact hread.operand v hv w hreg

theorem fits_call (hwords : ∀ (i : Nat) (v : VarId), args[i]? = some v → W.argWords callee i ≤ lanes v)
    (dst : Option VReg) :
  (Instr.call callee convention (args.map (operandFor f)) dst).Fits W lanes
  := by
  intro i arg harg
  rw [List.getElem?_map, Option.map_eq_some_iff] at harg
  obtain ⟨v, hv, rfl⟩ := harg
  refine ⟨isPlain_operandFor f v, fun r hr => ?_⟩
  obtain rfl := operandFor_eq_reg hr
  exact hwords i r hv

/-- What a call returns by its address is copied; the address comes in a register that stands for no variable. -/
theorem isCode_callValue (hread : CanRead f args)
    (hwords : ∀ (i : Nat) (v : VarId), args[i]? = some v → W.argWords callee i ≤ lanes v)
    (hdst : dst < f.varTypes.length) {returned : VReg} (hreturned : returned < f.varTypes.length + count)
    (o words : Nat) :
  IsCode f W lanes count args (some dst) [.call callee convention (args.map (operandFor f)) (some returned),
    .copy (.frame o) (.based returned 0) words, .locate dst (.frame o)]
  := by
  have hreads : ReadsFrom f args (.call callee convention (args.map (operandFor f)) (some returned)) :=
    readsFrom_call hread _
  constructor
  · simp only [List.forall_mem_cons, List.forall_mem_append]
    refine ⟨⟨fun v hv => Nat.lt_add_right _ (hreads v hv).2.lt, ?_⟩, ?_, ?_⟩
    · simpa [Instr.def?] using hreturned
    · simpa [Instr.uses, Instr.operandUses, Instr.args, Instr.def?, Address.reg?] using hreturned
    · simpa [Instr.uses, Instr.operandUses, Instr.args, Instr.def?, Address.reg?] using Nat.lt_add_right _ hdst
  · intro live v _ hv
    simp only [accessesOf, List.map_cons, List.map_nil, LiveBefore, Instr.def?, Option.toList_some,
      Option.toList_none, List.mem_singleton] at hv
    rcases hv with hv | ⟨hne, hv | ⟨-, hv | ⟨hne', hv⟩⟩⟩
    · exact .inl (hreads v hv)
    · exact absurd (by simpa [Instr.uses, Instr.operandUses, Instr.args, Address.reg?] using hv) hne
    · simp [Instr.uses, Instr.operandUses, Instr.args, Address.reg?] at hv
    · exact .inr ⟨hv, by simpa [eq_comm] using hne'⟩
  · exact List.forall_mem_cons.mpr ⟨fits_call hwords _, by simp [Instr.Fits]⟩

end

/-! ### What is checked -/

theorem Verify.varType_of_slot {slot : SlotId} (h : Verify.instr f (.store slot v) = .ok ()) :
  f.varTypes[v]? = some (f.slotType slot)
  := by
  simp only [Verify.instr, bind_eq_ok, Verify.slotType_eq_ok, Verify.expect_eq_ok] at h
  obtain ⟨type, ⟨slot', hslot, rfl⟩, htype⟩ := h
  simpa [Function.slotType, hslot] using htype

theorem Verify.varType_of_element {slot : SlotId} {index : VarId}
    (h : Verify.instr f (.storeElement slot index v) = .ok ()) :
  ∃ element length, f.slotType slot = .array element length ∧ f.varTypes[v]? = some element
  := by
  simp only [Verify.instr, bind_eq_ok, Prod.exists, Verify.arrayIn_eq_ok, Verify.expect_eq_ok] at h
  obtain ⟨element, length, ⟨slot', hslot, htype⟩, -, -, hvalue⟩ := h
  exact ⟨element, length, by simp [Function.slotType, hslot, htype], hvalue⟩

theorem Verify.varType_of_lanes {slot : SlotId} {start : Nat} (h : Verify.lanes f v slot start = .ok ()) :
  ∃ element length width, f.slotType slot = .array element length
    ∧ f.varTypes[v]? = some (.vector element width) ∧ start + width ≤ length
  := by
  simp only [Verify.lanes, bind_eq_ok, Prod.exists, Verify.arrayIn_eq_ok, Verify.varType_eq_ok] at h
  obtain ⟨element, length, ⟨slot', hslot, htype⟩, t, ht, h⟩ := h
  cases t with
  | vector lane width =>
    simp only [check_bind_eq_ok, Verify.ensure_eq_ok, decide_eq_true_eq] at h
    obtain ⟨rfl, hrange⟩ := h
    exact ⟨lane, length, width, by simp [Function.slotType, hslot, htype], ht, hrange⟩
  | int | float | bool | str | ptr | none | tuple | function | array =>
    simp [throw, throwThe, MonadExceptOf.throw] at h

theorem Verify.varType_of_extract {tuple : VarId} {index : Nat}
    (h : Verify.instr f (.extract dst tuple index) = .ok ()) :
  ∃ elements element, f.varTypes[tuple]? = some (.tuple elements) ∧ elements[index]? = some element
    ∧ f.varTypes[dst]? = some element
  := by
  simp only [Verify.instr, bind_eq_ok, Verify.varType_eq_ok] at h
  obtain ⟨t, ht, h⟩ := h
  cases t with
  | tuple elements =>
    simp only at h
    split at h
    · next element helement => exact ⟨elements, element, ht, helement, Verify.expect_eq_ok.mp h⟩
    · simp [throw, throwThe, MonadExceptOf.throw] at h
  | int | float | bool | str | ptr | none | array | function | vector =>
    simp [throw, throwThe, MonadExceptOf.throw] at h

/-- The parts of an array or tuple have the types that they are stored with. -/
theorem part_type
    {elements : List VarId}
    (hcheck : Verify.instr f (.makeArray dst elements) = .ok ()
      ∨ Verify.instr f (.makeTuple dst elements) = .ok ())
    {part : VarId × ValueType}
    (hpart : part ∈ elements.zip (partTypes (f.varType dst) elements.length)) :
  part.1 ∈ elements ∧ f.varTypes[part.1]? = some part.2
  := by
  obtain ⟨v, type⟩ := part
  have hmem := (List.of_mem_zip hpart).1
  refine ⟨hmem, ?_⟩
  rcases hcheck with hcheck | hcheck
  · simp only [Verify.instr, bind_eq_ok, Verify.varType_eq_ok] at hcheck
    obtain ⟨t, ht, hcheck⟩ := hcheck
    cases t with
    | array element length =>
      simp only [ValueType.array?, bind_eq_ok, forM_eq_ok, Verify.expect_eq_ok] at hcheck
      obtain ⟨-, -, helements⟩ := hcheck
      have htype : f.varType dst = .array element length := by simp [Function.varType, ht]
      have hreplicate := (List.of_mem_zip hpart).2
      rw [htype] at hreplicate
      obtain rfl := List.eq_of_mem_replicate hreplicate
      exact helements v hmem
    | int | float | bool | str | ptr | none | tuple | function | vector =>
      simp [ValueType.array?, throw, throwThe, MonadExceptOf.throw] at hcheck
  · simp only [Verify.instr, bind_eq_ok, Verify.expect_eq_ok] at hcheck
    obtain ⟨types, htypes, hdst⟩ := hcheck
    have htype : f.varType dst = .tuple types := by simp [Function.varType, hdst]
    rw [htype] at hpart
    clear hdst htype hmem
    induction elements generalizing types with
    | nil => simp at hpart
    | cons e elements ih =>
      simp only [List.mapM_cons, bind_eq_ok, Verify.varType_eq_ok, pure, Except.pure,
        Except.ok.injEq] at htypes
      obtain ⟨t, ht, types, htypes, rfl⟩ := htypes
      rcases List.mem_cons.mp hpart with heq | hpart
      · obtain ⟨rfl, rfl⟩ := Prod.mk.inj heq
        exact ht
      · exact ih types hpart htypes

/-- The code of an instruction does to registers what the instruction does to variables. -/
theorem Selects.isCode
    {slots : List Nat} {i : Flow.Instr} {code : List (Instr VReg)} {areas : List Area}
    (h : Selects f slots count i code areas) (hread : CanRead f i.uses) (hcheck : Verify.instr f i = .ok ())
    (hlanes : HasLanesOf lanes f) (huses : ∀ v ∈ i.uses, v < f.varTypes.length)
    (hdst : ∀ d, i.def? = some d → d < f.varTypes.length)
    (hcall : ∀ dst callee args convention isTail, i = .call dst callee args convention isTail →
      ∀ (j : Nat) (v : VarId), args[j]? = some v → W.argWords callee j ≤ lanes v) :
  IsCode f W lanes count i.uses i.def? code
  := by
  have hindex : ∀ {slot index address}, IsElement f slots slot index address → index ∈ i.uses →
      ∀ v, address.reg? = some v → v ∈ i.uses ∧ HasRegister f v := fun haddress hmem v hv =>
    hread.operand _ hmem v (haddress.reg ▸ hv)
  cases h with
  | @skip dst value hskip =>
    -- The variable is not computed, so that it is not live afterwards.
    refine ⟨by simp, fun hkept hv => .inr ⟨hv, ?_⟩, by simp⟩
    rintro ⟨rfl⟩
    exact hskip (hkept _ hv).kept
  | set label => exact isCode_setCode hlanes hread hdst hcheck label
  | call => exact .single rfl hdst (readsFrom_call hread _) (fits_call (hcall _ _ _ _ _ rfl) _)
  | callValue o hreturned =>
    exact isCode_callValue hread (hcall _ _ _ _ _ rfl) (hdst _ rfl) hreturned o _
  | load h => exact h.isCode (by simp [Address.reg?]) hdst
  | store =>
    exact isCode_storeCode (by simp [Address.reg?]) hread (by simp [Flow.Instr.uses])
      (Verify.varType_of_slot hcheck)
  | loadElement haddress h => exact h.isCode (hindex haddress (by simp [Flow.Instr.uses])) hdst
  | storeElement haddress helement =>
    obtain ⟨element, length, harray, hvalue⟩ := Verify.varType_of_element hcheck
    obtain rfl := helement element length harray
    exact isCode_storeCode (hindex haddress (by simp [Flow.Instr.uses])) hread (by simp [Flow.Instr.uses]) hvalue
  | @boundsCheck operand | @alloc _ operand =>
    exact .single rfl hdst (readsFrom_operand hread (v := operand) (by simp [Flow.Instr.uses])
      (by simp [Instr.uses, Instr.operandUses, Instr.args])) (isPlain_operandFor f operand)
  | make o hmake =>
    rcases hmake with rfl | rfl
    · exact (isCode_partsCode hread (fun part => part_type (.inl hcheck)) o).append
        (.single rfl hdst (readsFrom_nil rfl) trivial)
    · exact (isCode_partsCode hread (fun part => part_type (.inr hcheck)) o).append
        (.single rfl hdst (readsFrom_nil rfl) trivial)
  | @extract _ tuple _ _ _ h =>
    refine h.isCode (fun v hv => ?_) hdst
    obtain rfl : tuple = v := by simpa [Address.reg?] using hv
    obtain ⟨elements, -, htuple, -⟩ := Verify.varType_of_extract hcheck
    exact ⟨by simp [Flow.Instr.uses], hread.direct _ (by simp [Flow.Instr.uses]) _ htuple rfl⟩
  | @free _ pointer hfree =>
    have hreads : pointer ∈ i.uses → Verify.instr f (.free pointer) = .ok () →
        ReadsFrom f i.uses (.free pointer) := by
      intro hmem hcheck v hv
      obtain rfl : v = pointer := by simpa [Instr.uses, Instr.operandUses, Instr.args] using hv
      exact ⟨hmem, hread.direct v hmem .ptr (Verify.expect_eq_ok.mp hcheck) rfl⟩
    rcases hfree with rfl | rfl
    · exact .single rfl hdst (hreads (by simp [Flow.Instr.uses]) hcheck) trivial
    · exact .single rfl hdst (hreads (by simp [Flow.Instr.uses]) hcheck) trivial
  | locateGlobal | loadGlobal | loadLanes => exact .single rfl hdst (readsFrom_nil rfl) trivial
  | @storeLanes slot start _ value =>
    have hvalue : value ∈ (Flow.Instr.storeLanes slot start value).uses := by simp [Flow.Instr.uses]
    obtain ⟨_, _, _, -, ht, -⟩ := Verify.varType_of_lanes hcheck
    refine .single rfl hdst (fun v hv => ?_) ⟨by simp [Operand.IsPlain], fun r hr => ?_⟩
    · obtain rfl : v = value := by
        simpa [Instr.uses, Instr.operandUses, Instr.args, Address.reg?, Operand.reg?] using hv
      exact ⟨hvalue, hread.direct v hvalue _ ht rfl⟩
    · obtain rfl : value = r := by simpa using hr
      rw [hlanes value (huses value hvalue)]
      exact Nat.le_max_right _ _
  | @binaryLanes dst lhs rhs op =>
    have hlhs : lhs ∈ (Flow.Instr.binaryLanes dst op lhs rhs).uses := by simp [Flow.Instr.uses]
    have hrhs : rhs ∈ (Flow.Instr.binaryLanes dst op lhs rhs).uses := by simp [Flow.Instr.uses]
    simp only [Verify.instr, bind_eq_ok, Verify.varType_eq_ok] at hcheck
    obtain ⟨⟨⟩, hoperands, ⟨⟩, hresult, t'', htd', hcheck⟩ := hcheck
    obtain ⟨t, htl, htr⟩ := Verify.same_eq_ok.mp hoperands
    obtain ⟨t', htd, htl'⟩ := Verify.same_eq_ok.mp hresult
    obtain rfl : t = t' := by simpa [htl] using htl'
    obtain rfl : t = t'' := by simpa [htd] using htd'
    have hwhole : isWhole t = false := by
      cases t <;> simp_all [isWhole, ValueType.isInt, throw, throwThe, MonadExceptOf.throw]
    have hle : ∀ v ∈ (Flow.Instr.binaryLanes dst op lhs rhs).uses, f.varTypes[v]? = some t →
        registerWords (f.varType dst) ≤ lanes v := by
      intro v hv htv
      rw [hlanes v (huses v hv)]
      simp [Function.varType, htv, htd]
    refine .single rfl hdst (fun v hv => ?_) ⟨hle lhs hlhs htl, hle rhs hrhs htr⟩
    simp only [Instr.uses, Instr.operandUses, Instr.args, List.filterMap_nil, List.append_nil,
      List.mem_cons, List.not_mem_nil, or_false] at hv
    rcases hv with rfl | rfl
    · exact ⟨hlhs, hread.direct _ hlhs t htl hwhole⟩
    · exact ⟨hrhs, hread.direct _ hrhs t htr hwhole⟩

end

section

variable {f : Flow.Function} {W : World} {lanes : VReg → Nat} {id : BlockId} {b : Flow.Block}

/-! ## Bodies of blocks -/

theorem SelectsLines.isCode
    (hf : f.verify = .ok ()) (hW : W.Takes f) (hlanes : HasLanesOf lanes f)
    (hid : id ∈ f.reversePostorder) (hb : f.blocks[id]? = some b) {slots : List Nat} {count : Nat}
    {lines : List Line} (hlines : lines ⊆ b.body) {pieces : List (List (Instr VReg) × List Area)}
    (h : SelectsLines f slots count lines pieces) :
  List.Forall₂ (fun line piece => IsCode f W lanes count line.instr.uses line.instr.def? piece.1) lines pieces
  := by
  induction h with
  | nil => exact .nil
  | @cons line piece lines pieces hline _ ih =>
    have hmem : line.instr ∈ b.instrs := List.mem_map_of_mem (hlines List.mem_cons_self)
    obtain ⟨j, hj⟩ := List.getElem?_of_mem hmem
    have huses : ∀ v ∈ line.instr.uses, v < f.varTypes.length := fun v hv =>
      (Verify.isDefinedAt_of_mem_uses hf hid hb hj hv).lt hf
    refine .cons (hline.isCode (canRead_of_mem hf hb hmem huses) (Verify.instr_eq_ok hf hb hmem) hlanes huses
      (fun d hd => Verify.lt_of_def? hf hb hmem hd) ?_) (ih fun l hl => hlines (List.mem_cons_of_mem _ hl))
    intro dst callee args convention isTail heq k v hv
    have hv' : v ∈ line.instr.uses := heq ▸ List.mem_of_getElem? hv
    rw [hlanes v (huses v hv')]
    exact (hW.args b (List.mem_of_getElem? hb) _ _ _ _ _ (heq ▸ hmem) k v hv).trans (Nat.le_max_right _ _)

/-- What is live before the code of the lines of a block from a position on is defined there. -/
theorem isDefinedAt_of_liveBefore
    (hf : f.verify = .ok ()) (hid : id ∈ f.reversePostorder) (hb : f.blocks[id]? = some b)
    {count : Nat} {live : VReg → Prop}
    (hlive : ∀ v, live v → Verify.IsDefinedAt f id b.body.length v ∧ HasRegister f v)
    {lines : List Line} {pieces : List (List (Instr VReg) × List Area)}
    (hpieces : List.Forall₂ (fun line piece =>
      IsCode f W lanes count line.instr.uses line.instr.def? piece.1) lines pieces)
    {j : Nat} (hlines : b.body.drop j = lines) {v : VReg}
    (hv : LiveBefore live (accessesOf (pieces.flatMap (·.1))) v) :
  (Verify.IsDefinedAt f id (min j b.body.length) v) ∧ HasRegister f v
  := by
  induction hpieces generalizing j v with
  | nil =>
    have hle : b.body.length ≤ j := by simpa using hlines
    rw [Nat.min_eq_right hle]
    exact hlive v hv
  | @cons line piece lines pieces hcode _ ih =>
    have hj : b.body[j]? = some line := by
      rw [← List.head?_drop, hlines]
      rfl
    have hrest : b.body.drop (j + 1) = lines := by
      rw [← List.drop_drop, hlines]
      rfl
    obtain ⟨hlt, -⟩ := List.getElem?_eq_some_iff.mp hj
    have hinstr : b.instrs[j]? = some line.instr := by simp [Flow.Block.instrs, hj]
    rw [List.flatMap_cons, accessesOf, List.map_append, liveBefore_append] at hv
    rw [Nat.min_eq_left hlt.le]
    rcases hcode.live (fun w hw => (ih hrest hw).2) hv with ⟨huse, hreg⟩ | ⟨hlater, hne⟩
    · exact ⟨Verify.isDefinedAt_of_mem_uses hf hid hb hinstr huse, hreg⟩
    · obtain ⟨hdefined, hreg⟩ := ih hrest hlater
      rw [Nat.min_eq_left hlt] at hdefined
      refine ⟨hdefined.of_succ hb ?_, hreg⟩
      rintro i hi
      rw [hinstr] at hi
      obtain rfl := Option.some.inj hi
      exact hne

/-! ## Ends of blocks -/

/-- What selection makes of the terminator of a block. -/
structure IsEnd (f : Flow.Function) (W : World) (lanes : VReg → Nat) (id : BlockId)
    (b : Flow.Block) (moves : List (VReg × Operand VReg)) (control : Control VReg) : Prop where
  successors : control.successors = b.terminator.successors
  bounded : ∀ v, v ∈ moveUses moves ∨ v ∈ moves.map (·.1) ∨ v ∈ control.uses →
    v < f.varTypes.length
  defined : ∀ v, v ∈ moveUses moves ∨ v ∈ control.uses →
    Verify.IsDefinedAt f id b.body.length v ∧ HasRegister f v
  params : ∀ next ∈ b.terminator.successors, ∀ v ∈ (f.block next).params, v ∈ moves.map (·.1)
  moves : MovesFit lanes moves
  control : control.Fits W lanes

/-- A terminator reads variables that are computed into registers, fused comparisons apart. -/
theorem hasRegister_of_terminator
    (hf : f.verify = .ok ()) (hid : id ∈ f.reversePostorder) (hb : f.blocks[id]? = some b)
    {v : VarId} (hv : v ∈ b.terminator.uses) (hfused : (fusedComparisons f).lookup v = none) :
  HasRegister f v
  := by
  refine ⟨(Verify.isDefinedAt_of_mem_terminator hf hid hb hv).lt hf, ?_, hfused⟩
  exact immediate_eq_none_of_terminator (List.mem_of_getElem? hb) hv

theorem operandFor_of_terminator (hb : f.blocks[id]? = some b) {v : VarId} (hv : v ∈ b.terminator.uses) :
  operandFor f v = .reg v
  := by
  rw [operandFor, immediate_eq_none_of_terminator (List.mem_of_getElem? hb) hv]

/-- The parameters of a block are different variables. -/
theorem nodup_params (hf : f.verify = .ok ()) (hb : f.blocks[id]? = some b) :
  b.params.Nodup
  := by
  obtain ⟨-, hdefinitions, -⟩ := Function.verify_eq_ok.mp hf
  obtain ⟨hnodup, -⟩ := Verify.nodup_of_definitions hdefinitions
  rw [Verify.map_fst_allSites] at hnodup
  have hdefs := (List.nodup_flatMap.mp hnodup).1 b (List.mem_of_getElem? hb)
  exact (List.nodup_append.mp hdefs).1

/-- The control of a branch on a fused comparison. -/
theorem isEnd_compareBranch
    (hf : f.verify = .ok ()) (hid : id ∈ f.reversePostorder) (hb : f.blocks[id]? = some b)
    {test : VarId} {thenBlock elseBlock : BlockId}
    (hterminator : b.terminator = .branch test thenBlock elseBlock) {comparison : Comparison}
    (hfused : (fusedComparisons f).lookup test = some comparison)
    (hparams : ∀ next ∈ b.terminator.successors, (f.block next).params = []) :
  IsEnd f W lanes id b [] (.compareBranch comparison.op (operandFor f comparison.lhs)
    (operandFor f comparison.rhs) thenBlock elseBlock)
  := by
  have huse : test ∈ b.uses := by simp [Flow.Block.uses, hterminator, Terminator.uses]
  obtain ⟨-, hcomparison, -⟩ := eq_block_of_fused hfused hb huse
  obtain ⟨j, hj⟩ := exists_comparison hcomparison
  obtain ⟨hlt, -⟩ := List.getElem?_eq_some_iff.mp hj
  rw [Flow.Block.instrs, List.length_map] at hlt
  have hread := canRead_of_mem hf hb (List.mem_of_getElem? hj)
    fun v hv => (Verify.isDefinedAt_of_mem_uses hf hid hb hj hv).lt hf
  have hdefined : ∀ v, v ∈ moveUses [] ∨ v ∈ (Control.compareBranch comparison.op
      (operandFor f comparison.lhs) (operandFor f comparison.rhs) thenBlock
      elseBlock).uses → Verify.IsDefinedAt f id b.body.length v ∧ HasRegister f v := by
    intro v hv
    simp only [moveUses, List.filterMap_nil, List.not_mem_nil, false_or, Control.uses,
      List.mem_append, Option.mem_toList] at hv
    have hregister : v ∈ (Flow.Instr.set test
        (.binary comparison.op comparison.lhs comparison.rhs)).uses ∧ HasRegister f v := by
      rcases hv with hv | hv
      · exact hread.operand _ (by simp [Flow.Instr.uses, Value.uses]) v hv
      · exact hread.operand _ (by simp [Flow.Instr.uses, Value.uses]) v hv
    exact ⟨(Verify.isDefinedAt_of_mem_uses hf hid hb hj hregister.1).mono hlt.le, hregister.2⟩
  constructor
  · rw [hterminator]
    rfl
  · rintro v (hv | hv | hv)
    · exact (hdefined v (.inl hv)).2.lt
    · cases hv
    · exact (hdefined v (.inr hv)).2.lt
  · exact hdefined
  · intro next hnext v hv
    rw [hparams next hnext] at hv
    cases hv
  · exact ⟨by simp, by simp⟩
  · exact ⟨isPlain_operandFor f _, isPlain_operandFor f _⟩

theorem Ends.isEnd
    (hf : f.verify = .ok ()) (hW : W.Takes f) (hlanes : HasLanesOf lanes f)
    (hid : id ∈ f.reversePostorder) (hb : f.blocks[id]? = some b) {moves : List (VReg × Operand VReg)}
    {control : Control VReg} (h : Ends f b.terminator moves control) :
  IsEnd f W lanes id b moves control
  := by
  have hcheck := Verify.terminator_eq_ok hf hb
  have hdefined : ∀ v ∈ b.terminator.uses, (fusedComparisons f).lookup v = none →
      Verify.IsDefinedAt f id b.body.length v ∧ HasRegister f v := fun v hv hfused =>
    ⟨Verify.isDefinedAt_of_mem_terminator hf hid hb hv, hasRegister_of_terminator hf hid hb hv hfused⟩
  have hfits : MovesFit lanes [] := ⟨by simp, by simp⟩
  cases hterminator : b.terminator with
  | unreachable =>
    rw [hterminator] at h
    cases h
    exact ⟨by rw [hterminator]; rfl, by simp [moveUses, Control.uses],
      by simp [moveUses, Control.uses], by simp [hterminator, Terminator.successors], hfits, trivial⟩
  | ret value =>
    rw [hterminator] at h
    cases h
    cases value with
    | none =>
      exact ⟨by rw [hterminator]; rfl, by simp [moveUses, Control.uses],
        by simp [moveUses, Control.uses], by simp [hterminator, Terminator.successors], hfits,
        trivial⟩
    | some value =>
      have hmem : value ∈ b.terminator.uses := by simp [hterminator, Terminator.uses]
      have hvalue := hdefined value hmem
        (fused_eq_none_of_terminator hb hmem (by simp [hterminator]))
      rw [hterminator] at hcheck
      rw [Option.map_some, operandFor_of_terminator hb hmem]
      refine ⟨by rw [hterminator]; rfl, ?_, ?_, by simp [hterminator, Terminator.successors],
        hfits, by simp [Operand.IsPlain], ?_⟩
      · intro v hv
        obtain rfl : v = value := by simpa [moveUses, Control.uses, Operand.reg?] using hv
        exact hvalue.2.lt
      · intro v hv
        obtain rfl : v = value := by simpa [moveUses, Control.uses, Operand.reg?] using hv
        exact hvalue
      · rintro _ ⟨rfl⟩
        rw [hlanes _ hvalue.2.lt]
        have htype := Verify.expect_eq_ok.mp hcheck
        simpa [Function.varType, htype] using Or.inr hW.result
  | jump target args =>
    have hargs : ∀ v ∈ args, v ∈ b.terminator.uses := by simp [hterminator, Terminator.uses]
    have hvalue : ∀ v ∈ args, Verify.IsDefinedAt f id b.body.length v ∧ HasRegister f v :=
      fun v hv => hdefined v (hargs v hv)
        (fused_eq_none_of_terminator hb (hargs v hv) (by simp [hterminator]))
    rw [hterminator] at h hcheck
    cases h
    have hregs : args.map (operandFor f) = args.map .reg :=
      List.map_congr_left fun v hv => operandFor_of_terminator hb (hargs v hv)
    obtain ⟨htarget, hlength, hsame⟩ := Verify.jump_eq_ok.mp hcheck
    have htargetBlock : f.blocks[target]? = some (f.block target) := by
      simp [Function.block, htarget]
    rw [hregs]
    have hkeys : ((f.block target).params.zip (args.map (Operand.reg (ρ := VReg)))).map (·.1)
        = (f.block target).params := List.map_fst_zip (by simp [hlength])
    have hsources : moveUses ((f.block target).params.zip (args.map .reg)) = args := by
      change List.filterMap (Operand.reg? ∘ Prod.snd) _ = args
      rw [← List.filterMap_map, List.map_snd_zip (by simp [hlength]), List.filterMap_map]
      exact List.filterMap_some
    have hparamLt : ∀ v ∈ (f.block target).params, v < f.varTypes.length := fun v hv =>
      Verify.lt_of_mem_params hf htargetBlock hv
    refine ⟨by rw [hterminator]; rfl, ?_, ?_, ?_, ⟨?_, ?_⟩, trivial⟩
    · rw [hsources, hkeys]
      rintro v (hv | hv | hv)
      · exact (hvalue v hv).2.lt
      · exact hparamLt v hv
      · cases hv
    · rw [hsources]
      rintro v (hv | hv)
      · exact hvalue v hv
      · cases hv
    · rw [hkeys, hterminator]
      rintro next hnext
      obtain rfl : next = target := by simpa [Terminator.successors] using hnext
      exact fun v hv => hv
    · rw [hkeys]
      exact nodup_params hf htargetBlock
    · rintro ⟨param, source⟩ hm
      rw [List.zip_map_right, List.mem_map] at hm
      obtain ⟨⟨param', arg⟩, hm, heq⟩ := hm
      obtain ⟨rfl, rfl⟩ := Prod.mk.inj heq
      refine ⟨by simp [Operand.IsPlain], ?_⟩
      rintro _ ⟨rfl⟩
      obtain ⟨hp, ha⟩ := List.of_mem_zip hm
      have hpair : (arg, param') ∈ args.zip (f.block target).params := by
        rw [← List.zip_swap]
        exact List.mem_map.mpr ⟨_, hm, rfl⟩
      obtain ⟨t, harg, hparam⟩ := hsame _ hpair
      change lanes param' ≤ lanes arg
      rw [hlanes _ (hparamLt _ hp), hlanes _ (hvalue _ ha).2.lt]
      simp [Function.varType, harg, hparam]
  | branch test thenBlock elseBlock =>
    have hmem : test ∈ b.terminator.uses := by simp [hterminator, Terminator.uses]
    have hparams : ∀ next ∈ b.terminator.successors, (f.block next).params = [] := by
      rw [hterminator] at hcheck ⊢
      obtain ⟨-, htargets⟩ := Verify.branch_eq_ok.mp hcheck
      exact fun next hnext => (htargets next hnext).2
    rw [hterminator] at h
    cases h with
    | compare _ _ hfused => exact isEnd_compareBranch hf hid hb hterminator hfused hparams
    | branch _ _ hfused =>
      have htest := hdefined test hmem hfused
      refine ⟨by rw [hterminator]; rfl, ?_, ?_, ?_, hfits, trivial⟩
      · intro v hv
        obtain rfl : v = test := by simpa [moveUses, Control.uses] using hv
        exact htest.2.lt
      · intro v hv
        obtain rfl : v = test := by simpa [moveUses, Control.uses] using hv
        exact htest
      · intro next hnext v hv
        rw [hparams next hnext] at hv
        cases hv

/-! ## Blocks -/

/-- What selection makes of a block that is reached. -/
structure IsBlock (f : Flow.Function) (W : World) (lanes : VReg → Nat) (count : Nat)
    (b : SelectedBlock) : Prop where
  successors : b.control.successors = f.successors b.id
  bounded : ∀ step ∈ b.accesses, ∀ v ∈ step.uses ++ step.defs, v < f.varTypes.length + count
  live : ∀ {live : VReg → Prop} {v : VReg},
    (∀ w, live w → HasRegister f w ∧ ∃ next ∈ f.successors b.id, Verify.IsDefinedAt f next 0 w) →
    LiveBefore live b.accesses v → Verify.IsDefinedAt f b.id 0 v ∧ HasRegister f v
  fits : b.Fits W lanes

/-- The code of a block is that of its lines, the moves and the control. -/
theorem IsBlock.mk_of_codes
    (hf : f.verify = .ok ()) (hid : id ∈ f.reversePostorder) (hb : f.blocks[id]? = some b)
    {count : Nat} {pieces : List (List (Instr VReg) × List Area)}
    (hpieces : List.Forall₂ (fun line piece =>
      IsCode f W lanes count line.instr.uses line.instr.def? piece.1) b.body pieces)
    {moves : List (VReg × Operand VReg)} {control : Control VReg}
    (hend : IsEnd f W lanes id b moves control) :
  IsBlock f W lanes count ⟨id, pieces.flatMap (·.1), moves, control⟩
  := by
  have hsuccessors : f.successors id = b.terminator.successors := by
    simp [Function.successors, Function.block, hb]
  have hcode : ∀ piece ∈ pieces, ∃ uses dst, IsCode f W lanes count uses dst piece.1 := by
    intro piece hmem
    obtain ⟨line, -, hline⟩ := exists_of_mem_forall₂ hpieces hmem
    exact ⟨_, _, hline⟩
  constructor
  · rw [hsuccessors]
    exact hend.successors
  · intro step hstep v hv
    simp only [SelectedBlock.accesses, List.mem_append, List.mem_map, List.mem_cons,
      List.not_mem_nil, or_false] at hstep
    rcases hstep with ⟨i, hi, rfl⟩ | rfl | rfl
    · obtain ⟨piece, hmem, hi⟩ := List.mem_flatMap.mp hi
      obtain ⟨uses, dst, hcode⟩ := hcode piece hmem
      exact hcode.bounded i hi v hv
    · apply Nat.lt_add_right
      rcases List.mem_append.mp hv with hv | hv
      · exact hend.bounded v (.inl hv)
      · exact hend.bounded v (.inr (.inl hv))
    · apply Nat.lt_add_right
      exact hend.bounded v (.inr (.inr (by simpa using hv)))
  · intro live v hlive hv
    rw [SelectedBlock.accesses, liveBefore_append] at hv
    -- What is live behind the body is read by the moves or the control, or no parameter is moved to.
    have hbehind : ∀ w, LiveBefore live [⟨moveUses moves, moves.map (·.1)⟩, ⟨control.uses, []⟩] w →
        Verify.IsDefinedAt f id b.body.length w ∧ HasRegister f w := by
      rintro w (hw | ⟨hnot, hw | ⟨-, hw⟩⟩)
      · exact hend.defined w (.inl hw)
      · exact hend.defined w (.inr hw)
      · obtain ⟨hreg, next, hnext, hdefined⟩ := hlive w hw
        refine ⟨(hdefined.of_successor hid hnext hb).resolve_left fun hparam => ?_, hreg⟩
        rw [hsuccessors] at hnext
        exact hnot (hend.params next hnext w hparam)
    have hstart := isDefinedAt_of_liveBefore (j := 0) hf hid hb hbehind hpieces rfl hv
    rwa [Nat.zero_min] at hstart
  · refine ⟨fun i hi => ?_, hend.moves, hend.control⟩
    obtain ⟨piece, hmem, hi⟩ := List.mem_flatMap.mp hi
    obtain ⟨uses, dst, hcode⟩ := hcode piece hmem
    exact hcode.fits i hi

theorem SelectsBlock.isBlock
    (hf : f.verify = .ok ()) (hW : W.Takes f) (hlanes : HasLanesOf lanes f) {slots : List Nat} {count : Nat}
    {b : SelectedBlock} (hid : b.id ∈ f.reversePostorder) {areas : List Area}
    (h : SelectsBlock f slots count b areas) :
  IsBlock f W lanes count b
  := by
  have hb := Verify.getElem?_of_mem_reversePostorder hf hid
  obtain ⟨⟨pieces, hbody, -, hpieces⟩, hends⟩ := h
  have hblock := IsBlock.mk_of_codes hf hid hb (hpieces.isCode hf hW hlanes hid hb (List.Subset.refl _))
    (hends.isEnd hf hW hlanes hid hb)
  rwa [← hbody] at hblock

/-! ## Functions -/

/-- A world in which all operators trap and nothing is taken from the code. -/
def World.idle : World :=
  ⟨0, fun _ => 0, fun _ _ _ => none, fun _ w => w, fun _ w => w, fun _ _ => 0, 0,
    fun _ => ⟨Lanes.none, fun _ => none⟩, fun _ => 0⟩

theorem takes_idle (f : Flow.Function) :
  World.idle.Takes f
  := ⟨by simp [World.idle], by simp [World.idle]⟩

/-- What selection makes of a function; `count` registers stand for no variable. -/
structure IsSelected (f : Flow.Function) (selected : SelectedFunction) (count : Nat) : Prop where
  params : selected.params = f.params
  ids : selected.blocks.map (·.id) = f.reversePostorder
  words : selected.regWords = f.varTypes.map registerWords ++ List.replicate count 1
  blocks : ∀ W lanes, W.Takes f → HasLanesOf lanes f →
    ∀ b ∈ selected.blocks, IsBlock f W lanes count b

theorem SelectsFunction.isSelected
    (hf : f.verify = .ok ()) {selected : SelectedFunction} {slots : List Nat} {size count : Nat}
    {made : List (List Area)} (h : SelectsFunction f selected slots size count made) :
  IsSelected f selected count
  := by
  refine ⟨h.params, h.ids, h.words, fun W lanes hW hlanes b hb => ?_⟩
  obtain ⟨areas, -, hblock⟩ := exists_of_mem_forall₂ h.blocks.flip hb
  exact hblock.isBlock hf hW hlanes (h.ids ▸ List.mem_map_of_mem hb)

theorem isSelected_select
    (hf : f.verify = .ok ()) {p : Program} {target : Target} {strings strings' : List String}
    {selected : SelectedFunction} (h : select p target strings f = .ok (selected, strings')) :
  ∃ count, IsSelected f selected count
  := by
  obtain ⟨slots, size, count, made, hselects⟩ := selects_select h
  exact ⟨count, hselects.isSelected hf⟩

section

variable {selected : SelectedFunction} {count : Nat}

theorem IsSelected.length_words (h : IsSelected f selected count) :
  selected.regWords.length = f.varTypes.length + count
  := by
  simp [h.words]

/-- A register has as many words as its variable needs. -/
theorem IsSelected.words_of_lt (h : IsSelected f selected count) {v : VReg}
    (hv : v < f.varTypes.length) :
  selected.words v = registerWords (f.varType v)
  := by
  unfold SelectedFunction.words
  rw [h.words, List.getD_append _ _ _ _ (by simpa using hv)]
  simp [Function.varType, hv]

/-- A register that stands for no variable has one word. -/
theorem IsSelected.words_eq (h : IsSelected f selected count) (v : VReg) :
  selected.words v = (f.varTypes.map registerWords).getD v 1
  := by
  unfold SelectedFunction.words
  rw [h.words]
  rcases Nat.lt_or_ge v (f.varTypes.map registerWords).length with hv | hv
  · exact List.getD_append _ _ _ _ hv
  · rw [List.getD_append_right _ _ _ _ hv, List.getD_eq_default _ _ hv]
    rw [List.getD, List.getElem?_replicate]
    split <;> rfl

/-- What holds of one word, and of the words of each variable, holds of the words of all registers. -/
theorem IsSelected.forall_words (h : IsSelected f selected count) {P : Nat → Prop} (hone : P 1)
    (hwords : ∀ t ∈ f.varTypes, P (registerWords t)) (v : VReg) :
  P (selected.words v)
  := by
  rw [h.words_eq, List.getD]
  cases hv : (f.varTypes.map registerWords)[v]? with
  | none => exact hone
  | some words =>
    obtain ⟨t, ht, rfl⟩ := List.mem_map.mp (List.mem_of_getElem? hv)
    exact hwords t ht

/-- If all variables need words, so do all registers. -/
theorem IsSelected.words_pos (h : IsSelected f selected count)
    (hwords : ∀ t ∈ f.varTypes, 0 < registerWords t) (v : VReg) :
  0 < selected.words v
  := h.forall_words Nat.one_pos hwords v

theorem IsSelected.isBounded (h : IsSelected f selected count) (hf : f.verify = .ok ()) :
  selected.IsBounded
  := by
  constructor
  · intro v hv
    rw [h.params] at hv
    obtain ⟨b, hb, hparams⟩ := Verify.entry_of_shape (Function.verify_eq_ok.mp hf).1
    rw [← hparams] at hv
    have hlt := Verify.lt_of_mem_params hf hb hv
    rw [h.length_words]
    exact Nat.lt_add_right _ hlt
  · intro b hb step hstep v hv
    rw [h.length_words]
    exact (h.blocks .idle _ (takes_idle f) (fun _ _ => rfl) b hb).bounded step hstep v hv

/-- The blocks that control goes to are among those that were selected. -/
theorem IsSelected.getElem?_next (h : IsSelected f selected count) {b : SelectedBlock}
    (hb : b ∈ selected.blocks) {next : BlockId} (hnext : next ∈ f.successors b.id) :
  ∃ b', selected.blocks[(selected.blocks.map (·.id)).idxOf next]? = some b' ∧ b'.id = next
  := by
  have hid : b.id ∈ f.reversePostorder := by
    rw [← h.ids]
    exact List.mem_map_of_mem hb
  have hmem : next ∈ selected.blocks.map (·.id) := by
    rw [h.ids]
    exact Function.mem_reversePostorder_of_successor hid hnext
  have hget := List.getElem?_idxOf hmem
  rw [List.getElem?_map, Option.map_eq_some_iff] at hget
  exact hget

/-- A register that is live at the start of a block stands for a variable that is defined there. -/
theorem IsSelected.isDefinedAt_of_liveIn (h : IsSelected f selected count) {position : Nat}
    {v : VReg} (hlive : LiveIn selected.blocks position v) {b : SelectedBlock}
    (hb : selected.blocks[position]? = some b) :
  Verify.IsDefinedAt f b.id 0 v ∧ HasRegister f v
  := by
  let P : Nat → VReg → Prop := fun position v => ∀ b, selected.blocks[position]? = some b →
    Verify.IsDefinedAt f b.id 0 v ∧ HasRegister f v
  refine liveIn_of_closed (P := P) ?_ hlive b hb
  intro position b v hb hv b' hb'
  rw [hb] at hb'
  obtain rfl := Option.some.inj hb'
  have hmem := List.mem_of_getElem? hb
  have hblock := h.blocks .idle _ (takes_idle f) (fun _ _ => rfl) b hmem
  refine hblock.live ?_ hv
  rintro w ⟨_, hposition, hw⟩
  obtain ⟨next, hnext, rfl⟩ := List.mem_map.mp hposition
  rw [hblock.successors] at hnext
  obtain ⟨b', hb', rfl⟩ := h.getElem?_next hmem hnext
  obtain ⟨hdefined, hreg⟩ := hw b' hb'
  exact ⟨hreg, b'.id, hnext, hdefined⟩

/-- Only parameters are live at the start of a function. -/
theorem IsSelected.mem_params_of_liveIn (h : IsSelected f selected count) (hf : f.verify = .ok ())
    {v : VReg} (hlive : LiveIn selected.blocks 0 v) :
  v ∈ selected.params
  := by
  obtain ⟨b, hb, -⟩ := liveIn_iff.mp hlive
  obtain ⟨hdefined, -⟩ := h.isDefinedAt_of_liveIn hlive hb
  have hentry : b.id = f.entry := by
    have hhead := f.head?_reversePostorder
    rw [← h.ids, List.head?_map, List.head?_eq_getElem?, hb] at hhead
    exact Option.some.inj hhead
  rw [hentry] at hdefined
  obtain ⟨entry, hget, hparams⟩ := Verify.entry_of_shape (Function.verify_eq_ok.mp hf).1
  rw [h.params, ← hparams]
  simpa [Function.block, hget] using hdefined.of_entry

theorem IsSelected.nodup_params (h : IsSelected f selected count) (hf : f.verify = .ok ()) :
  selected.params.Nodup
  := by
  obtain ⟨entry, hget, hparams⟩ := Verify.entry_of_shape (Function.verify_eq_ok.mp hf).1
  rw [h.params, ← hparams]
  exact Machine.nodup_params hf hget

end

/-- All registers that code names have a place. -/
theorem hasPlace_of_mem_accesses
    {target : Target} {selected : SelectedFunction} (hbounded : selected.IsBounded)
    {places : List (VReg × Nat)} (hplaces : places.map (·.1) = spilledRegs target selected)
    {b : SelectedBlock} (hb : b ∈ selected.blocks) {step : Access} (hstep : step ∈ b.accesses)
    {v : VReg} (hv : v ∈ step.uses ++ step.defs) :
  (allocationWith target selected places).HasPlace v
  := by
  obtain ⟨k, hk⟩ := List.getElem?_of_mem hb
  simp only [SelectedBlock.accesses, List.mem_append, List.mem_map, List.mem_cons,
    List.not_mem_nil, or_false] at hstep
  rcases hstep with ⟨i, hi, rfl⟩ | rfl | rfl
  · obtain ⟨j, hj⟩ := List.getElem?_of_mem hi
    exact hasPlace_of_held hplaces (held_of_mem_regs hbounded hk hj hv)
  · exact hasPlace_of_held hplaces (held_of_mem_moves hbounded hk hv)
  · exact hasPlace_of_held hplaces (held_of_mem_control hbounded hk (by simpa using hv))

/-- At most two registers are loaded for at most two uses. -/
theorem length_reloads_le (a : Allocation) {uses : List VReg} (h : uses.length ≤ 2) :
  (a.reloads uses).length ≤ 2
  := by
  rcases reloads_cases (a := a) h with heq | ⟨v, heq⟩ | ⟨v, w, -, heq⟩ <;> simp [heq]

/--
Allocation of registers succeeds if the frame fits, every register that the code names has a place,
at most two are loaded for an instruction, and the allocated code does what the selected code does,
as long as that does not look at the places in the frame.
-/
theorem run_allocate
    (hf : f.verify = .ok ()) (hwords : ∀ t ∈ f.varTypes, 0 < registerWords t) {p : Program}
    {target : Target} {strings strings' : List String} {selected : SelectedFunction}
    (hselect : select p target strings f = .ok (selected, strings'))
    (hvalid : target.isValid = true) (hregs : target.registers ≤ Target.maxRegister)
    (hframe : FrameFits target selected) :
  ∃ (a : Allocation) (code : Function), allocate target selected = .ok code
    ∧ code.blocks = a.blocks selected.blocks
    ∧ (∀ v ∈ selected.params, a.HasPlace v)
    ∧ (∀ b ∈ selected.blocks,
      (∀ step ∈ b.accesses, ∀ v ∈ step.uses ++ step.defs, a.HasPlace v)
      ∧ (∀ i ∈ b.body, (a.reloads i.operandUses).length ≤ 2)
      ∧ (a.reloads b.control.uses).length ≤ 2)
    ∧ ∀ (W : World) (count : Nat) (args : List (List UInt64)) (memory : Memory)
        (regs : VReg → Lanes) (regs' : Reg → Lanes), W.Takes f →
      W.Spares (W.areaBetween selected.frameSize code.frameSize) →
      List.Forall₂ (fun v (arg : List UInt64) => arg.length = selected.words v)
        selected.params args →
      (∀ e ∈ (selected.run W count args memory regs).1,
        e.Avoids (W.areaBetween selected.frameSize code.frameSize)) →
      code.run W (W.areaBetween selected.frameSize code.frameSize).hides count args memory regs'
        = selected.run W count args memory regs
  := by
  obtain ⟨temporaries, h⟩ := isSelected_select hf hselect
  have hbounded := h.isBounded hf
  obtain ⟨places, hplaces, hin, hapart, hallocate⟩ := allocate_eq hframe
  have hlayout := isLayout_allocationWith hvalid hregs (fun v _ => h.words_pos hwords v) hplaces hin
    hapart
  refine ⟨allocationWith target selected places, _, hallocate, rfl, ?_, ?_, ?_⟩
  · exact fun v hv => hasPlace_of_held hplaces (held_of_mem_params hbounded hv)
  · intro b hb
    refine ⟨fun step hstep v => hasPlace_of_mem_accesses hbounded hplaces hb hstep, fun i _ => ?_, ?_⟩
    · exact length_reloads_le _ (length_operandUses i)
    · exact length_reloads_le _ (length_uses_control b.control)
  · intro W count args memory regs regs' hW hspares hargs havoid
    have hlanes : HasLanesOf (allocationWith target selected places).lanes f := fun v hv =>
      congrArg (max 1) (h.words_of_lt hv)
    exact run_blocks hlayout hspares hbounded (fun b hb => (h.blocks W _ hW hlanes b hb).fits) rfl
      rfl (h.nodup_params hf) (fun v => h.mem_params_of_liveIn hf) count hargs memory regs regs'
      havoid

end

/-! ## Two values under one register -/

/-- A function that holds a number, a value of some type and one more number at the same time. -/
def holder (type : ValueType) : Flow.Function :=
  { name := "holder"
    params := []
    result := .int 64
    blocks := [⟨[],
      [⟨.call (some 1) "make" [] .native false, none⟩,
        ⟨.call (some 0) "other" [] .native false, none⟩,
        ⟨.call (some 2) "make" [] .native false, none⟩,
        ⟨.call none "take" [2] .native false, none⟩,
        ⟨.call none "use" [0] .native false, none⟩],
      .ret (some 1)⟩]
    entry := 0
    varTypes := [type, .int 64, .int 64]
    slots := []
    loops := []
    flags := .none }

def holderProgram (type : ValueType) : Program :=
  ⟨[holder type], [], [⟨"make", none, [], .int 64⟩, ⟨"other", none, [], type⟩,
    ⟨"take", none, [.int 64], .none⟩, ⟨"use", none, [type], .none⟩]⟩

/-- The code of the function if the value has so many words. -/
def holderCode (words : Nat) : SelectedFunction :=
  ⟨"holder", [], [⟨0, [.call "make" .native [] (some 1), .call "other" .native [] (some 0),
    .call "make" .native [] (some 2), .call "take" .native [.reg 2] none,
    .call "use" .native [.reg 0] none], [], .ret (some (.reg 1))⟩], 0, [words, 1, 1]⟩

/-- A target with one register for values. -/
def Target.tiny : Target := ⟨"tiny", 3, 2, none⟩

/-- A world in which every call answers with the number of events so far. -/
def World.counting : World :=
  { World.idle with
    argWords := fun callee _ => if callee = "take" then 1 else 0
    resultWords := 1
    reply := fun trace => ⟨lanesOf [UInt64.ofNat trace.length], fun _ => none⟩ }

theorem intervals_holderCode (words : Nat) :
  intervals (holderCode words) = [⟨1, 0, 5⟩, ⟨0, 1, 4⟩, ⟨2, 2, 3⟩]
  := by
  cbv

theorem keptRegs_holderCode (words : Nat) :
  keptRegs .tiny (holderCode words) = [(2, 0)]
  := by
  rw [keptRegs, intervals_holderCode]
  cbv

theorem spilledRegs_holderCode (words : Nat) :
  spilledRegs .tiny (holderCode words) = [0, 1]
  := by
  rw [spilledRegs, keptRegs_holderCode, intervals_holderCode]
  cbv

theorem takes_counting (type : ValueType) :
  World.counting.Takes (holder type)
  := by
  constructor
  · intro b hb dst callee args convention isTail hmem i v hv
    obtain rfl := List.mem_singleton.mp hb
    simp only [World.counting]
    split
    · next hcallee =>
      subst hcallee
      obtain ⟨-, rfl, -⟩ : dst = none ∧ args = [2] ∧ _ := by
        simpa [Flow.Block.instrs] using hmem
      cases i with
      | zero =>
        obtain rfl : 2 = v := by simpa using hv
        exact Nat.le_refl 1
      | succ i => simp at hv
    · exact Nat.zero_le _
  · exact Nat.le_refl 1

/-- Calls load and store nothing. -/
theorem avoids_of_calls {trace : List Event} (h : ∀ e ∈ trace, (e matches .call ..) = true)
    (area : Area) :
  ∀ e ∈ trace, e.Avoids area
  := by
  intro e he
  have hcall := h e he
  cases e with
  | call => trivial
  | load | store | alloc | free | check => cases hcall

theorem holder_run_allocate :
  ∃ code, allocate .tiny (holderCode 1) = .ok code
    ∧ code.run .counting (World.counting.areaBetween 0 code.frameSize).hides 1 [] (fun _ => 0)
        (fun _ => Lanes.none)
      = (holderCode 1).run .counting 1 [] (fun _ => 0) (fun _ => Lanes.none)
  := by
  have hframe : FrameFits .tiny (holderCode 1) := by
    rw [FrameFits, spilledRegs_holderCode]
    decide
  have hselect : select (holderProgram (.int 64)) .tiny [] (holder (.int 64))
      = .ok (holderCode 1, []) := by
    cbv
  obtain ⟨a, code, hallocate, -, -, -, hrun⟩ :=
    run_allocate (f := holder (.int 64)) rfl (by decide) hselect rfl (by decide) hframe
  refine ⟨code, hallocate, hrun .counting 1 [] (fun _ => 0) _ _ (takes_counting _) ?_ .nil ?_⟩
  · exact fun _ _ _ => rfl
  · exact avoids_of_calls (by decide +kernel) _

/--
A vector without lanes is given no bytes of the frame, but it is stored as a word, over the number
that is kept behind it: the allocated code returns another number than the selected code.
-/
theorem noLanes_run_allocate :
  (holder (.vector (.int 64) 0)).verify = .ok ()
    ∧ select (holderProgram (.vector (.int 64) 0)) .tiny [] (holder (.vector (.int 64) 0))
      = .ok (holderCode 0, [])
    ∧ Target.tiny.isValid = true ∧ FrameFits .tiny (holderCode 0)
    ∧ World.counting.Takes (holder (.vector (.int 64) 0))
    ∧ (∀ area, World.counting.Spares area)
    ∧ (∀ area, ∀ e ∈ ((holderCode 0).run .counting 1 [] (fun _ => 0) fun _ => Lanes.none).1,
      e.Avoids area)
    ∧ ∃ code, allocate .tiny (holderCode 0) = .ok code
      ∧ (code.run .counting (World.counting.areaBetween 0 code.frameSize).hides 1 [] (fun _ => 0)
        fun _ => Lanes.none).2 = .returned (some [2])
      ∧ ((holderCode 0).run .counting 1 [] (fun _ => 0) fun _ => Lanes.none).2
        = .returned (some [1])
  := by
  refine ⟨rfl, by cbv, rfl, ?_, takes_counting _, fun _ _ _ _ => rfl, ?_, ?_⟩
  · rw [FrameFits, spilledRegs_holderCode]
    decide
  · exact fun area => avoids_of_calls (by decide +kernel) area
  · have hallocate : allocate .tiny (holderCode 0) = .ok
        ⟨"holder", [], [⟨0, [.call "make" .native [] (some 1), .store (.frame 0) (.reg 1),
          .call "other" .native [] (some 1), .store (.frame 0) (.reg 1),
          .call "make" .native [] (some 0), .call "take" .native [.reg 0] none,
          .call "use" .native [.frame 0] none, .load 1 (.frame 0)],
          some (.ret (some (.reg 1)))⟩], 8, 2, 1⟩ := by
      have hkept := keptRegs_holderCode 0
      have hspilled := spilledRegs_holderCode 0
      rw [spilledRegs, hkept] at hspilled
      rw [keptRegs] at hkept
      unfold allocate
      simp only [hkept, hspilled]
      rfl
    exact ⟨_, hallocate, by decide +kernel, by decide +kernel⟩

end FormCompiler.Machine
