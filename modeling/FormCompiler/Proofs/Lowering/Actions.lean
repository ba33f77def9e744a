import FormCompiler.Proofs.Lowering.State

/-!
# The actions of lowering

What the actions do that add to the current block: instructions that load, store and call, and the
scopes with what is owed at their end. Each of them takes a state where control can be to one that is
reached from it.
-/

namespace FormCompiler

open FormCompiler.Flow

namespace Lower

open LowerState

variable {c : LowerContext} {result : Ty} {scope : TypeScope} {passed : Passed} {s : LowerState}
variable {slot : SlotId} {x : Slot} {exits : List ExitAction}

/-! ## Instructions -/

theorem slotType_of_getElem? {f : Function} (hx : f.slots[slot]? = some x) :
  f.slotType slot = x.type
  := by
  simp [Function.slotType, hx]

section

variable (h : s.Live c result passed scope)

include h

theorem ensures_load (hx : s.function.slots[slot]? = some x) (span : Option Span) :
  Ensures c s (load slot span) fun v s' => Straight c result scope passed s s'
    ∧ s'.function.varTypes[v]? = some x.type ∧ s'.function.DefinesIn (s'.here passed) v
  := by
  refine .bind_get ((ensures_define h (by simp [Instr.uses]) (fun _ => rfl) (by simp [Instr.access?])
    fun _ g v hg hv => ?_).mono fun v s' h' => ?_)
  · have hslot := Verify.slotType_eq_ok.mpr ⟨x, hg.getElem?_slots hx, rfl⟩
    rw [slotType_of_getElem? hx] at hv
    exact bind_eq_ok.mpr ⟨_, hslot, Verify.expect_eq_ok.mpr hv⟩
  · obtain ⟨hstraight, htype, hdefined, -⟩ := h'
    exact ⟨hstraight, slotType_of_getElem? hx ▸ htype, hdefined⟩

theorem ensures_store (hx : s.function.slots[slot]? = some x) {v : VarId} (hv : s.function.varTypes[v]? = some x.type)
    (hdefined : s.function.DefinesIn (s.here passed) v) (span : Option Span) :
  Ensures c s (emit (.store slot v) span) fun _ s' => Straight c result scope passed s s'
  := by
  refine (ensures_emit h (by simpa [Instr.uses] using hdefined) (by simp [Instr.def?])
    (by simp [Instr.access?]) fun _ => ?_).mono fun _ _ h' => h'.1
  exact bind_eq_ok.mpr ⟨_, Verify.slotType_eq_ok.mpr ⟨x, hx, rfl⟩, Verify.expect_eq_ok.mpr hv⟩

theorem ensures_spill {v : VarId} {type : ValueType} (hv : s.function.varTypes[v]? = some type)
    (hdefined : s.function.DefinesIn (s.here passed) v) (span : Option Span) :
  Ensures c s (spill v span) fun slot s' => Straight c result scope passed s s'
    ∧ ∃ x, s'.function.slots[slot]? = some x ∧ x.type = type
  := by
  have hvarType : s.function.varType v = type := by simp [Function.varType, hv]
  refine .bind_get ((ensures_freshSlot h none _).bind fun slot s₁ h₁ => ?_)
  obtain ⟨h₁, x, hx, htype⟩ := h₁
  rw [hvarType] at htype
  have hwidens := h₁.grown.widens
  refine (ensures_store (h.straight h₁) hx (htype ▸ hwidens.getElem?_varTypes hv)
    (hwidens.definesIn (h₁.here h₁.isOpen) hdefined) span).bind fun _ s₂ h₂ => .pure ?_
  exact ⟨h₁.trans h₂, x, h₂.grown.widens.getElem?_slots hx, htype⟩

theorem ensures_call {callee : String} {args : List VarId}
    (hargs : ∀ v ∈ args, s.function.DefinesIn (s.here passed) v) {convention : Convention} {type : ValueType}
    {isTail : Bool} {span : Option Span} :
  Ensures c s (call callee args convention type isTail span) fun value s' =>
    Straight c result scope passed s s' ∧ ∀ v, value = some v →
      s'.function.varTypes[v]? = some type ∧ s'.function.DefinesIn (s'.here passed) v
  := by
  unfold call
  split
  · refine (ensures_emit h (by exact hargs) (by simp [Instr.def?]) (by simp [Instr.access?])
      fun _ => rfl).bind fun _ s' h' => .pure ⟨h'.1, by simp⟩
  · next hnone =>
    refine (ensures_define h (by exact fun _ => hargs) (fun _ => rfl) (by simp [Instr.access?])
      fun _ g v _ hv => ?_).bind fun v s' h' => .pure ?_
    · exact Verify.expectThat_eq_ok.mpr ⟨type, hv, by simpa using hnone⟩
    · obtain ⟨hstraight, htype, hdefined, -⟩ := h'
      refine ⟨hstraight, fun w hw => ?_⟩
      obtain rfl := Option.some.inj hw
      exact ⟨htype, hdefined⟩

/-! ## Symbols, instances and warnings -/

theorem ensures_modifyShared (change : UnitState → UnitState) :
  Ensures c s (modifyShared change) fun _ s' => Straight c result scope passed s s'
  := .modify (h.straight_of_shared _)

theorem ensures_runtimeCall (f : RuntimeFunction) {args : List VarId}
    (hargs : ∀ v ∈ args, s.function.DefinesIn (s.here passed) v) (span : Option Span) :
  Ensures c s (runtimeCall f args span) fun value s' => Straight c result scope passed s s'
    ∧ ∀ v, value = some v → s'.function.varTypes[v]? = some f.symbol.result
      ∧ s'.function.DefinesIn (s'.here passed) v
  := by
  refine (ensures_modifyShared h _).bind fun _ s₁ h₁ => ?_
  refine (ensures_call (h.straight h₁) fun v hv => ?_).mono fun value s₂ h₂ => ⟨h₁.trans h₂.1, h₂.2⟩
  exact h₁.grown.widens.definesIn (h₁.here h₁.isOpen) (hargs v hv)

end

/-! ## Scopes -/

/-- What can be done at the end of a scope: all allocations to release are in slots of pointers. -/
def CanLeave (s : LowerState) (exits : List ExitAction) : Prop :=
  ∀ slot, .release slot ∈ exits → ∃ x, s.function.slots[slot]? = some x ∧ x.type = .ptr

theorem CanLeave.mono {s' : LowerState} (h : CanLeave s exits) (hwidens : s.function.Widens s'.function) :
  CanLeave s' exits
  := by
  intro slot hslot
  obtain ⟨x, hx, htype⟩ := h slot hslot
  exact ⟨x, hwidens.getElem?_slots hx, htype⟩

theorem ensures_leave (h : s.Live c result passed scope) (hexits : CanLeave s exits) :
  Ensures c s (leave exits) fun _ s' => Straight c result scope passed s s'
  := by
  induction exits generalizing s with
  | nil => exact .pure (h.straight_of_shared s.shared)
  | cons action exits ih =>
    have hrest : CanLeave s exits := fun slot hslot => hexits slot (List.mem_cons_of_mem _ hslot)
    cases action with
    | release slot =>
      obtain ⟨x, hx, htype⟩ := hexits slot (List.mem_cons_self ..)
      refine (ensures_load h hx none).bind fun pointer s₁ h₁ => ?_
      obtain ⟨h₁, hpointer, hdefined⟩ := h₁
      have hlive₁ := h.straight h₁
      refine Ensures.bind (m := fun _ s₂ => Straight c result scope passed s s₂) ?_ fun _ s₂ h₂ => ?_
      · refine (ensures_emit hlive₁ (by simpa [Instr.uses] using hdefined) (by simp [Instr.def?])
          (by simp [Instr.access?]) fun _ => ?_).mono fun _ s₂ h₂ => h₁.trans h₂.1
        exact Verify.expect_eq_ok.mpr (htype ▸ hpointer)
      · exact (ih (h.straight h₂) (hrest.mono h₂.grown.widens)).mono fun _ _ h₃ => h₂.trans h₃
    | endAtomic =>
      refine Ensures.bind (m := fun _ s₁ => Straight c result scope passed s s₁) ?_ fun _ s₁ h₁ => ?_
      · exact ((ensures_runtimeCall h .atomicEnd (by simp) none).mono fun _ _ h₁ => h₁.1).discard
      · exact (ih (h.straight h₁) (hrest.mono h₁.grown.widens)).mono fun _ _ h₂ => h₁.trans h₂

theorem Frames.flatMap_names_bind {frames : Frames} (h : frames ≠ []) (name : String) (slot : SlotId) :
  (frames.bind name slot).flatMap (·.names) = (name, slot) :: frames.flatMap (·.names)
  := by
  cases frames with
  | nil => exact absurd rfl h
  | cons frame frames => rfl

theorem forall_mem_modifyInner {p : Frame → Prop} {frames : Frames} {change : Frame → Frame}
    (h : ∀ frame ∈ frames, p frame) (hchange : ∀ frame, p frame → p (change frame)) :
  ∀ frame ∈ frames.modifyInner change, p frame
  := by
  cases frames with
  | nil => exact h
  | cons first rest =>
    rw [Frames.modifyInner, List.forall_mem_cons]
    rw [List.forall_mem_cons] at h
    exact ⟨hchange first h.1, h.2⟩

section

variable (h : s.Ready c result passed scope)

include h

theorem ensures_bindName (hx : s.function.slots[slot]? = some x) (known : Local)
    (htype : c.valueType? known.type = some x.type) (name : String) :
  Ensures c s (bindName name slot) fun _ s' =>
    Reached c result ((name, known) :: scope) passed s passed s' ∧ s'.isOpen = true
      ∧ s'.function = s.function ∧ s'.current = s.current
  := by
  refine .modify ⟨⟨?_, ?_, fun _ => subset_rfl, fun _ => ?_⟩, h.isOpen, rfl, rfl⟩
  · have hgrown := h.sound.grown
    refine { hgrown with tail := ?_, depth := ?_ }
    · cases s.frames <;> rfl
    · cases s.frames <;> rfl
  · refine { h.sound with frames := forall_mem_modifyInner h.sound.frames fun frame hframe => ?_ }
    refine ⟨hframe.exits, fun entry hentry => ?_⟩
    rcases List.mem_cons.mp hentry with rfl | hentry
    · exact ⟨known.type, x, hx, htype⟩
    · exact hframe.names entry hentry
  · rw [Binds, Frames.flatMap_names_bind h.inside]
    exact .cons ⟨rfl, x, hx, htype⟩ h.binds

theorem ensures_owe {action : ExitAction} (haction : CanLeave s [action]) :
  Ensures c s (owe action) fun _ s' =>
    Reached c result scope passed s passed s' ∧ s'.isOpen = true ∧ s'.function = s.function
      ∧ s'.current = s.current
  := by
  refine .modify ⟨⟨?_, ?_, fun _ => subset_rfl, fun _ => ?_⟩, h.isOpen, rfl, rfl⟩
  · have hgrown := h.sound.grown
    refine { hgrown with tail := ?_, depth := ?_ }
    · cases s.frames <;> rfl
    · cases s.frames <;> rfl
  · refine { h.sound with frames := forall_mem_modifyInner h.sound.frames fun frame hframe => ?_ }
    refine ⟨fun slot hslot => ?_, hframe.names⟩
    rcases List.mem_cons.mp hslot with rfl | hslot
    · exact haction slot (List.mem_cons_self ..)
    · exact hframe.exits slot hslot
  · have hbinds := h.binds
    rw [Binds] at hbinds ⊢
    convert hbinds using 1
    cases s.frames <;> rfl

theorem ensures_releaseAtExit (hslot : ∃ x, s.function.slots[slot]? = some x ∧ x.type = .ptr) (span : Span)
    (name : Option String) :
  Ensures c s (releaseAtExit slot span name) fun _ s' =>
    Reached c result scope passed s passed s' ∧ s'.isOpen = true
  := by
  refine (ensures_modifyShared h.toLive _).bind fun _ s₁ h₁ => ?_
  refine (ensures_owe (h.straight h₁) fun slot' hslot' => ?_).mono fun _ s₂ h₂ => ?_
  · obtain rfl : slot' = slot := by simpa using hslot'
    obtain ⟨x, hx, htype⟩ := hslot
    exact ⟨x, h₁.grown.widens.getElem?_slots hx, htype⟩
  · exact ⟨h₁.toReached.trans h₁.isOpen h₂.1, h₂.2.1⟩

/-- Binds a name to a value. -/
theorem ensures_bindValue (known : Local) {v : VarId} {t : ValueType} (htype : c.valueType? known.type = some t)
    (hv : s.Holds c passed v known.type) (name : String) (span : Span) :
  Ensures c s (bindValue name t v span) fun slot s' =>
    Reached c result ((name, known) :: scope) passed s passed s' ∧ s'.isOpen = true
      ∧ ∃ x, s'.function.slots[slot]? = some x ∧ x.type = t
  := by
  obtain ⟨⟨t', htype', hv⟩, hdefined⟩ := hv
  obtain rfl : t = t' := Option.some.inj (htype.symm.trans htype')
  refine (ensures_freshSlot h.toLive (some name) t).bind fun slot s₁ h₁ => ?_
  obtain ⟨h₁, x, hx, rfl⟩ := h₁
  have hwidens := h₁.grown.widens
  refine (ensures_store (h.straight h₁).toLive hx (hwidens.getElem?_varTypes hv)
    (hwidens.definesIn (h₁.here h₁.isOpen) hdefined) _).bind fun _ s₂ h₂ => ?_
  have hx₂ := h₂.grown.widens.getElem?_slots hx
  refine (ensures_bindName (h.straight (h₁.trans h₂)) hx₂ known htype name).bind fun _ s₃ h₃ => .pure ?_
  obtain ⟨h₃, hopen, hfunction, -⟩ := h₃
  exact ⟨(h₁.trans h₂).toReached.trans h₂.isOpen h₃, hopen, x, hfunction ▸ hx₂, rfl⟩

end

/--
What a form does whose names are in scope after it, and whose value has a type; `leaves` says that
control never comes out of it.
-/
def Gives (c : LowerContext) (result : Ty) (scope : TypeScope) (type : Ty) (leaves : Bool)
    (passed : Passed) (s : LowerState) (value : Option VarId) (s' : LowerState) : Prop :=
  ∃ passed', Reached c result scope passed s passed' s'
    ∧ (∀ v, value = some v → s'.isOpen = true ∧ s'.Holds c passed' v type)
    ∧ (leaves = true → s'.isOpen = false)

/-- The end of a scope: what is bound in it goes, and what is owed is done. -/
theorem ensures_closeScope {α : Type} {a : α} {value : Option VarId} {type : Ty} {leaves : Bool}
    {frame : Frame} {scope' : TypeScope} {s₁ s₂ : LowerState} (h : s.Live c result passed scope)
    (hs₁ : s₁ = { s with frames := frame :: s.frames })
    (h₂ : Gives c result scope' type leaves passed s₁ value s₂) :
  Ensures c s₂ (do
      let exits := ((← get).frames.head?.map (·.exits)).getD []
      modify fun s => { s with frames := s.frames.tail }
      if ← isOpen then leave exits
      return a)
    fun a' s' => a' = a ∧ Gives c result scope type leaves passed s value s' ∧ s'.frames = s.frames
  := by
  subst hs₁
  obtain ⟨passed', h₂, hvalue, hleaves⟩ := h₂
  refine .bind_get (.bind_modify ?_)
  set s₃ : LowerState := { s₂ with frames := s₂.frames.tail } with hs₃
  have hframes : s₃.frames = s.frames := h₂.grown.tail
  have hgrown : s.Grown passed passed' s₃ := by
    have hgrown := h₂.grown
    exact ⟨hgrown.widens, hgrown.entry, hgrown.params, hgrown.loops, hgrown.others, hgrown.kept,
      hgrown.writes, hgrown.targets, hgrown.passed, hgrown.loop, by rw [hframes], by rw [hframes]⟩
  have hsound : s₃.Sound c result passed' := by
    refine ⟨h₂.sound.built, h₂.sound.current, h₂.sound.unfinished, h₂.sound.result, ?_⟩
    exact fun frame hframe => h₂.sound.frames frame (List.mem_of_mem_tail hframe)
  have hreached : Reached c result scope passed s passed' s₃ := by
    refine ⟨hgrown, hsound, h₂.here, fun _ => ?_⟩
    exact h.binds.mono h₂.grown.widens.slots hframes
  refine .bind_isOpen ?_
  by_cases hopen : s₃.isOpen = true
  · rw [if_pos hopen]
    have hlive₃ := h.after hreached hopen
    refine (ensures_leave hlive₃ ?_).bind fun _ s₄ h₄ => .pure ⟨rfl, ?_, h₄.frames.trans hframes⟩
    · intro slot hslot
      cases hhead : s₂.frames.head? with
      | none => simp [hhead] at hslot
      | some frame =>
        simp only [hhead, Option.map_some, Option.getD_some] at hslot
        exact (h₂.sound.frames frame (List.mem_of_mem_head? hhead)).exits slot hslot
    · refine ⟨passed', hreached.trans hopen h₄.toReached, fun v hv => ⟨h₄.isOpen, ?_⟩, fun h => ?_⟩
      · obtain ⟨-, htyped, hdefined⟩ := hvalue v hv
        have hholds : s₃.Holds c passed' v type := ⟨htyped, hdefined⟩
        exact hholds.mono h₄.toReached h₄.isOpen
      · exact absurd (hleaves h) (by simpa using hopen)
  · rw [if_neg hopen]
    refine .pure ⟨rfl, ⟨passed', hreached, fun v hv => ?_, fun _ => by simpa using hopen⟩, hframes⟩
    exact absurd (hvalue v hv).1 hopen

/-- A scope around an action. -/
theorem ensures_inScope {α : Type} {action : Lower α} {v : α → Option VarId} {type : Ty}
    {leaves : Bool} (h : s.Live c result passed scope)
    (haction : ∀ s₁, s₁.Ready c result passed scope → s₁.function = s.function →
      Ensures c s₁ action fun a s' => ∃ scope', Gives c result scope' type leaves passed s₁ (v a) s') :
  Ensures c s (inScope action) fun a s' => Gives c result scope type leaves passed s (v a) s'
    ∧ s'.frames = s.frames
  := by
  set s₁ : LowerState := { s with frames := .empty :: s.frames } with hs₁
  have hready₁ : s₁.Ready c result passed scope := by
    refine ⟨⟨⟨h.sound.built, h.sound.current, h.sound.unfinished, h.sound.result, ?_⟩, h.isOpen, ?_,
      h.loop⟩, by simp [hs₁]⟩
    · rw [List.forall_mem_cons]
      exact ⟨⟨by simp [Frame.empty], by simp [Frame.empty]⟩, h.sound.frames⟩
    · exact h.binds
  refine .bind_modify ((haction s₁ hready₁ rfl).bind fun a s₂ ⟨scope', h₂⟩ => ?_)
  refine (ensures_closeScope h hs₁ h₂).mono fun a' s' ⟨ha, h'⟩ => ?_
  rw [ha]
  exact h'

/-! ## Operands -/

section

variable {passed' : Passed} {s' : LowerState} {scope' : TypeScope}
variable {value : Option VarId}

theorem Ensures.bind_need {β : Type} {e : Expr} {k : Option VarId → Lower β} {post : β → LowerState → Prop}
    (hsome : ∀ v, value = some v → Ensures c s (k (some v)) post)
    (hnone : s.isOpen = false → Ensures c s (k none) post) :
  Ensures c s (need e value >>= k) post
  := by
  rw [need, bind_assoc]
  refine .bind_isOpen ?_
  cases value with
  | some v => exact hsome v rfl
  | none =>
    cases hopen : s.isOpen with
    | true => exact .bind (.bind .fail fun _ _ => False.elim) fun _ _ => False.elim
    | false => exact hnone hopen

/-- Where control is lost there is no value. -/
theorem Gives.lost (h : Reached c result scope' passed s passed' s') (hclosed : s'.isOpen = false) :
  Gives c result scope type leaves passed s none s'
  := ⟨passed', ⟨h.grown, h.sound, by simp [hclosed], by simp [hclosed]⟩, by simp, fun _ => hclosed⟩

/-- What follows on something that control has come out of. -/
theorem Gives.after {s'' : LowerState} (h : Gives c result scope' type leaves passed' s' value s'')
    (h' : Reached c result scope passed s passed' s') (hopen : s'.isOpen = true) :
  Gives c result scope' type leaves passed s value s''
  := by
  obtain ⟨passed'', h'', hvalue, hleaves⟩ := h
  exact ⟨passed'', h'.trans hopen h'', hvalue, hleaves⟩

/-- A form that has only added to the current block, and has a value or none. -/
theorem Gives.straight (h : Reached c result scope' passed s passed' s') {s'' : LowerState} (hopen : s'.isOpen = true)
    (h' : Straight c result scope passed' s' s'') (hvalue : ∀ v, value = some v → s''.Holds c passed' v type) :
  Gives c result scope type false passed s value s''
  := ⟨passed', h.trans hopen h'.toReached, fun v hv => ⟨h'.isOpen, hvalue v hv⟩, by simp⟩

/-- A literal. -/
theorem ensures_literal (h : s.Live c result passed scope) {value : Literal} (hvalue : value.Fits type)
    {t : ValueType} (ht : c.valueType? type = some t) (span : Option Span) :
  Ensures c s (define t span (.set · (.const value.const))) fun v s' =>
    Straight c result scope passed s s' ∧ s'.Holds c passed v type
      ∧ .set v (.const value.const) ∈ (s'.function.block s'.current).instrs
  := by
  refine (ensures_define h (by simp [Instr.uses, Value.uses]) (fun _ => rfl) (by simp [Instr.access?])
    fun _ g v _ hv => ?_).mono fun v s' h' => ?_
  · refine Verify.expectThat_eq_ok.mpr ⟨t, hv, ?_⟩
    cases value with
    | int n => exact isInt_of_isInteger (Ty.isInteger_of_fitsLiteral hvalue) ht
    | frac bits => exact isFloat_of_isFraction hvalue ht
    | bool b =>
      obtain rfl : type = .bool := hvalue
      simpa [Literal.const, Verify.constHasType] using valueType?_bool ht
    | str text =>
      obtain rfl : type = .str := hvalue
      simpa [Literal.const, Verify.constHasType] using valueType?_str ht
  · obtain ⟨hstraight, htype, hdefined, hmem⟩ := h'
    exact ⟨hstraight, ⟨⟨t, ht, htype⟩, hdefined⟩, hmem⟩

/-! ## Names -/

theorem ensures_name (h : s.Live c result passed scope) {id : Nat} {span : Span} {n : String}
    (hid : c.checked.type? id = some type) (hname : ∀ x, scope.lookup n = some x → x.type = type) :
  Ensures c s (name id span n) fun v s' => Straight c result scope passed s s'
    ∧ s'.Holds c passed v type
  := by
  refine .bind_slot? ?_
  rcases h.binds.lookup n with ⟨hslot, -⟩ | ⟨slot, t, x, hslot, hlookup, hx, htype⟩
  · rw [hslot]
    refine .bind_read ?_
    have hload : Ensures c s (do define (← typeOf id span) (some span) (.loadGlobal · n)) fun v s' =>
        Straight c result scope passed s s' ∧ s'.Holds c passed v type := by
      refine .bind_typeOf hid fun t ht => ?_
      refine (ensures_define h (by simp [Instr.uses]) (fun _ => rfl) (by simp [Instr.access?])
        fun _ _ _ _ _ => rfl).mono fun v s' h' => ?_
      exact ⟨h'.1, ⟨t, ht, h'.2.1⟩, h'.2.2.1⟩
    dsimp only
    split
    · exact .bind .fail fun _ _ => False.elim
    · exact hload
  · rw [hslot]
    obtain rfl := hname t hlookup
    exact (ensures_load h hx _).mono fun v s' h' => ⟨h'.1, ⟨x.type, htype, h'.2.1⟩, h'.2.2⟩

end

end Lower

end FormCompiler
