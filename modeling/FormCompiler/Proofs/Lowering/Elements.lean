import FormCompiler.Proofs.Lowering.Actions

/-!
# Element accesses and calls

An element access is right if its slot holds an array of the element type, and safe if its index is
known to be in range: `Accesses` says both. An assignment to an element inside of rows opens the rows
from the root on and closes them again, which are accesses of the same kind.
-/

namespace FormCompiler

open FormCompiler.Flow

namespace Lower

open LowerState

section

variable {c : LowerContext} {result : Ty} {scope scope' : TypeScope} {passed passed' : Passed}
  {s s' : LowerState} {slot : SlotId} {index : VarId} {element : Ty}
variable {length id : Nat} {t : ValueType} {rows : List (SlotId × VarId)} {path : List (Expr × VarId)}

/-! ## Element accesses -/

/-- An index is a constant in range or has been compared with the length. -/
def Guards (passed : Passed) (s : LowerState) (index : VarId) (length : Nat) : Prop :=
  s.function.IsInRange index length ∨ s.function.ChecksIn (s.here passed) index length

/-- An integer that can be read here. -/
def HoldsInteger (c : LowerContext) (passed : Passed) (s : LowerState) (v : VarId) : Prop :=
  ∃ type : Ty, type.isInteger = true ∧ s.Holds c passed v type

/-- A slot holds an array of elements of a type, and an index is in the range of the array. -/
structure Accesses (c : LowerContext) (passed : Passed) (s : LowerState) (slot : SlotId) (index : VarId)
    (element : Ty) : Prop where
  guards : ∀ e n, s.function.slotType slot = .array e n → Guards passed s index n
  slot : ∃ x length, s.function.slots[slot]? = some x ∧ c.valueType? (.array element length) = some x.type
  index : HoldsInteger c passed s index

theorem Guards.mono (h : Guards passed s index length) (h' : Reached c result scope passed s passed' s')
    (hopen : s'.isOpen = true) :
  Guards passed' s' index length
  := h.imp h'.grown.widens.isInRange (h'.grown.widens.checksIn (h'.here hopen))

theorem HoldsInteger.mono (h : HoldsInteger c passed s index)
    (h' : Reached c result scope passed s passed' s') (hopen : s'.isOpen = true) :
  HoldsInteger c passed' s' index
  := by
  obtain ⟨type, htype, hindex⟩ := h
  exact ⟨type, htype, hindex.mono h' hopen⟩

theorem HoldsInteger.isInt (h : HoldsInteger c passed s index) :
  ∃ t, s.function.varTypes[index]? = some t ∧ t.isInt = true
  := by
  obtain ⟨type, htype, ⟨t, ht, hv⟩, -⟩ := h
  exact ⟨t, hv, isInt_of_isInteger htype ht⟩

theorem HoldsInteger.defined (h : HoldsInteger c passed s index) :
  s.function.DefinesIn (s.here passed) index
  := by
  obtain ⟨type, -, hindex⟩ := h
  exact hindex.defined

section

variable (h : Accesses c passed s slot index element)

include h

theorem Accesses.isArray :
  s.function.IsArray slot
  := by
  obtain ⟨x, length, hx, htype⟩ := h.slot
  obtain ⟨e, n, -, harray, -⟩ := valueType?_array htype
  exact ⟨e, n, (slotType_of_getElem? hx).trans harray⟩

theorem Accesses.mono (h' : Reached c result scope passed s passed' s') (hopen : s'.isOpen = true) :
  Accesses c passed' s' slot index element
  := by
  obtain ⟨x, length, hx, htype⟩ := h.slot
  refine ⟨fun e n hslot => ?_, ⟨x, length, h'.grown.widens.getElem?_slots hx, htype⟩, h.index.mono h' hopen⟩
  rw [h'.grown.widens.slotType h.isArray.lt] at hslot
  exact (h.guards e n hslot).mono h' hopen

/-- What is loaded from an element or stored to it has the element type. -/
theorem Accesses.verify {g : Function} (hg : s.function.Widens g) {v : VarId} (ht : c.valueType? element = some t)
    (hv : g.varTypes[v]? = some t) :
  Verify.instr g (.loadElement v slot index) = .ok () ∧ Verify.instr g (.storeElement slot index v) = .ok ()
  := by
  obtain ⟨x, length, hx, htype⟩ := h.slot
  obtain ⟨e, n, he, hx', -⟩ := valueType?_array htype
  obtain rfl : e = t := Option.some.inj (he.symm.trans ht)
  obtain ⟨i, hi, hint⟩ := h.index.isInt
  have harray : Verify.arrayIn g slot = .ok (e, n) := by
    refine bind_eq_ok.mpr ⟨x.type, Verify.slotType_eq_ok.mpr ⟨x, hg.getElem?_slots hx, rfl⟩, ?_⟩
    rw [hx']
    rfl
  have hindex : Verify.expectThat g index .anInteger ValueType.isInt = .ok () :=
    Verify.expectThat_eq_ok.mpr ⟨i, hg.getElem?_varTypes hi, hint⟩
  constructor <;>
  exact bind_eq_ok.mpr ⟨_, harray, bind_eq_ok.mpr ⟨(), hindex, Verify.expect_eq_ok.mpr hv⟩⟩

end

theorem ensures_loadElement (h : s.Live c result passed scope) (haccess : Accesses c passed s slot index element)
    (ht : c.valueType? element = some t) (span : Option Span) :
  Ensures c s (define t span (.loadElement · slot index)) fun v s' =>
    Straight c result scope passed s s' ∧ s'.Holds c passed v element
  := by
  refine (ensures_define h (by simpa [Instr.uses] using haccess.index.defined) (fun _ => rfl) ?_
    fun _ g v hg hv => (haccess.verify hg ht hv).1).mono fun v s' h' => ?_
  · rintro v _ _ ⟨⟩
    exact ⟨haccess.isArray, haccess.guards⟩
  · exact ⟨h'.1, ⟨t, ht, h'.2.1⟩, h'.2.2.1⟩

theorem ensures_storeElement (h : s.Live c result passed scope)
    (haccess : Accesses c passed s slot index element) {v : VarId} (hv : s.Holds c passed v element)
    (span : Option Span) :
  Ensures c s (emit (.storeElement slot index v) span) fun _ s' => Straight c result scope passed s s'
  := by
  obtain ⟨⟨t, ht, hv⟩, hdefined⟩ := hv
  refine (ensures_emit h ?_ (by simp [Instr.def?]) ?_ fun _ => ?_).mono fun _ s' h' => h'.1
  · simpa [Instr.uses] using ⟨haccess.index.defined, hdefined⟩
  · rintro _ _ ⟨⟩
    exact ⟨haccess.isArray, haccess.guards⟩
  · exact (haccess.verify (.refl _) ht hv).2

/-- After the comparison of an index, if there has to be one, the index is in range. -/
theorem ensures_boundsCheck (h : s.Live c result passed scope) (hindex : HoldsInteger c passed s index) {span : Span}
    (hrange : c.checked.isDynamicIndex id = true ∨ s.function.IsInRange index length) :
  Ensures c s (boundsCheck id span index length) fun _ s' => Straight c result scope passed s s'
    ∧ Guards passed s' index length
  := by
  refine .bind_read ?_
  split
  · refine (ensures_emit h (by simpa [Instr.uses] using hindex.defined) (by simp [Instr.def?])
      (by simp [Instr.access?]) fun _ => ?_).mono fun _ s' h' => ⟨h'.1, .inr ?_⟩
    · obtain ⟨t, ht, hint⟩ := hindex.isInt
      exact Verify.expectThat_eq_ok.mpr ⟨t, ht, hint⟩
    · exact ⟨s'.current, Set.mem_insert _ _, h'.2⟩
  · next hstatic =>
    exact .pure ⟨h.straight_of_shared s.shared, .inl (hrange.resolve_left hstatic)⟩

/-! ## Rows -/

/-- Rows on the way from an array of a type in a slot to an array in a last slot, with their indices. -/
def IsRows (c : LowerContext) (passed : Passed) (s : LowerState) (last : SlotId) (final : Ty) :
    Ty → SlotId → List (SlotId × VarId) → Prop
  | type, slot, [] => type = final ∧ slot = last
  | type, slot, (row, index) :: rows => ∃ element length, type = .array element length
    ∧ Accesses c passed s slot index element
    ∧ (∃ x, s.function.slots[row]? = some x ∧ c.valueType? element = some x.type)
    ∧ IsRows c passed s last final element row rows

/-- Element accesses from a type to another one, with the indices that have been computed. -/
def IsPath (c : LowerContext) (passed : Passed) (s : LowerState) (final : Ty) :
    Ty → List (Expr × VarId) → Prop
  | type, [] => type = final
  | type, (access, index) :: path => ∃ element length, type = .array element length
    ∧ c.checked.type? access.id = some element ∧ HoldsInteger c passed s index
    ∧ (∀ e n, c.valueType? type = some (.array e n) → Guards passed s index n)
    ∧ IsPath c passed s final element path

variable {final type : Ty} {last : SlotId} {span : Option Span}

theorem IsRows.mono (h : IsRows c passed s last final type slot rows)
    (h' : Reached c result scope passed s passed' s') (hopen : s'.isOpen = true) :
  IsRows c passed' s' last final type slot rows
  := by
  induction rows generalizing type slot with
  | nil => exact h
  | cons head rows ih =>
    obtain ⟨element, length, htype, haccess, ⟨x, hx, hrow⟩, hrows⟩ := h
    exact ⟨element, length, htype, haccess.mono h' hopen, ⟨x, h'.grown.widens.getElem?_slots hx, hrow⟩,
      ih hrows⟩

theorem IsPath.mono (h : IsPath c passed s final type path) (h' : Reached c result scope passed s passed' s')
    (hopen : s'.isOpen = true) :
  IsPath c passed' s' final type path
  := by
  induction path generalizing type with
  | nil => exact h
  | cons head path ih =>
    obtain ⟨element, length, htype, haccess, hindex, hguards, hpath⟩ := h
    exact ⟨element, length, htype, haccess, hindex.mono h' hopen,
      fun e n hn => (hguards e n hn).mono h' hopen, ih hpath⟩

/-- A path to an element can be continued. -/
theorem IsPath.append {access : Expr} {length : ArrayLength} (h : IsPath c passed s (.array element length) type path)
    (hindex : HoldsInteger c passed s index) (haccess : c.checked.type? access.id = some element)
    (hguards : ∀ e n, c.valueType? (.array element length) = some (.array e n) → Guards passed s index n) :
  IsPath c passed s element type (path ++ [(access, index)])
  := by
  induction path generalizing type with
  | nil =>
    obtain rfl : type = .array element length := h
    exact ⟨element, length, rfl, haccess, hindex, hguards, rfl⟩
  | cons head path ih =>
    obtain ⟨element', length', htype, haccess', hindex', hguards', hpath⟩ := h
    exact ⟨element', length', htype, haccess', hindex', hguards', ih hpath⟩

/-- Opening rows makes slots that hold them. -/
theorem ensures_openRows (h : s.Live c result passed scope) {x : Slot} (hx : s.function.slots[slot]? = some x)
    (htype : c.valueType? type = some x.type) (hpath : IsPath c passed s final type path) :
  Ensures c s (openRows span slot path) fun rows s' => Straight c result scope passed s s'
    ∧ IsRows c passed s' ((slot :: rows).getLast?.getD slot) final type slot
      (rows.zip (path.map (·.2)))
    ∧ ∃ y, s'.function.slots[(slot :: rows).getLast?.getD slot]? = some y
      ∧ c.valueType? final = some y.type
  := by
  induction path generalizing s slot x type with
  | nil =>
    obtain rfl : type = final := hpath
    exact .pure ⟨h.straight_of_shared s.shared, ⟨rfl, rfl⟩, x, hx, htype⟩
  | cons head path ih =>
    obtain ⟨element, length, rfl, haccess, hindex, hguards, hpath⟩ := hpath
    have haccesses : Accesses c passed s slot head.2 element := by
      refine ⟨fun e n hslot => hguards e n ?_, ⟨x, length, hx, htype⟩, hindex⟩
      rw [htype, ← hslot, slotType_of_getElem? hx]
    refine .bind_typeOf haccess fun t ht => ?_
    refine (ensures_loadElement h haccesses ht span).bind fun row s₁ ⟨h₁, hrow⟩ => ?_
    have hlive₁ := h.straight h₁
    obtain ⟨⟨t', ht', hv⟩, hdefined⟩ := hrow
    refine (ensures_spill hlive₁ hv hdefined span).bind fun rowSlot s₂ ⟨h₂, y, hy, hytype⟩ => ?_
    have h₁₂ := h₁.trans h₂
    have hy' : c.valueType? element = some y.type := by rw [ht', hytype]
    refine (ih (h.straight h₁₂) hy hy' (hpath.mono h₁₂.toReached h₁₂.isOpen)).bind
      fun rows s₃ ⟨h₃, hrows, hlast⟩ => .pure ?_
    have h₁₃ := h₁₂.trans h₃
    have hlast_eq : (slot :: rowSlot :: rows).getLast?.getD slot
        = (rowSlot :: rows).getLast?.getD rowSlot := by simp [List.getLast?_cons]
    rw [hlast_eq]
    exact ⟨h₁₃, ⟨element, length, rfl, haccesses.mono h₁₃.toReached h₁₃.isOpen,
      ⟨y, h₃.grown.widens.getElem?_slots hy, hy'⟩, hrows⟩, hlast⟩

/-- Rows are written back. -/
theorem ensures_closeRows (h : s.Live c result passed scope) (hrows : IsRows c passed s last final type slot rows) :
  Ensures c s (closeRows span slot rows) fun _ s' => Straight c result scope passed s s'
  := by
  induction rows generalizing s slot type with
  | nil => exact .pure (h.straight_of_shared s.shared)
  | cons head rows ih =>
    obtain ⟨element, length, -, haccess, ⟨x, hx, hrow⟩, hrows⟩ := hrows
    refine (ih h hrows).bind fun _ s₁ h₁ => ?_
    have hlive₁ := h.straight h₁
    refine (ensures_load hlive₁ (h₁.grown.widens.getElem?_slots hx) span).bind fun row s₂ ⟨h₂, hv, hdefined⟩ => ?_
    have h₁₂ := h₁.trans h₂
    refine (ensures_storeElement (h.straight h₁₂) (haccess.mono h₁₂.toReached h₁₂.isOpen)
      ⟨⟨x.type, hrow, hv⟩, hdefined⟩ span).mono fun _ s₃ h₃ => h₁₂.trans h₃

/-- An assignment to an element of an array, through rows. -/
theorem ensures_assignElement (h : s.Live c result passed scope) {root : SlotId} {x : Slot}
    (hx : s.function.slots[root]? = some x) (htype : c.valueType? type = some x.type)
    {accesses : List Expr} {indices : List VarId} (hlength : accesses.length = indices.length)
    {length : ArrayLength} (hpath : IsPath c passed s (.array element length) type (accesses.zip indices))
    (hindex : HoldsInteger c passed s index)
    (hguards : ∀ e n, c.valueType? (.array element length) = some (.array e n) → Guards passed s index n)
    {v : VarId} (hv : s.Holds c passed v element) :
  Ensures c s (assignElement span root accesses indices index v) fun _ s' =>
    Straight c result scope passed s s'
  := by
  refine (ensures_openRows h hx htype hpath).bind fun rows s₁ ⟨h₁, hrows, y, hy, hytype⟩ => ?_
  have hlive₁ := h.straight h₁
  have haccess : Accesses c passed s₁ ((root :: rows).getLast?.getD root) index element := by
    refine ⟨fun e n hslot => ?_, ⟨y, length, hy, hytype⟩, hindex.mono h₁.toReached h₁.isOpen⟩
    refine (hguards e n ?_).mono h₁.toReached h₁.isOpen
    rw [hytype, ← hslot, slotType_of_getElem? hy]
  refine (ensures_storeElement hlive₁ haccess (hv.mono h₁.toReached h₁.isOpen) span).bind
    fun _ s₂ h₂ => ?_
  rw [List.map_snd_zip hlength.ge] at hrows
  exact (ensures_closeRows (hlive₁.straight h₂) (hrows.mono h₂.toReached h₂.isOpen)).mono
    fun _ s₃ h₃ => (h₁.trans h₂).trans h₃

/-! ## Calls -/

theorem ensures_paramTypes {span : Span} (sig : FunctionSig) :
  Ensures c s (paramTypes span sig) fun _ s' => s' = s
  := by
  rw [paramTypes]
  induction sig.paramTypes with
  | nil => exact .pure rfl
  | cons type types ih =>
    rw [List.mapM_cons]
    refine .bind_required fun t ht => ih.bind fun ts s' hs' => .pure hs'

theorem ensures_callee (h : s.Live c result passed scope) {span : Span} {sig : FunctionSig} :
  Ensures c s (callee id span sig t) fun _ s' => Straight c result scope passed s s'
  := by
  have huse : ∀ {α : Type} (library : Option String) (a : α), Ensures c s (do
      useSymbol ⟨sig.name, library, ← paramTypes span sig, t⟩
      return a) fun _ s' => Straight c result scope passed s s' := by
    intro _ library a
    refine (ensures_paramTypes sig).bind fun types s' hs' => ?_
    subst hs'
    exact (ensures_modifyShared h _).bind fun _ _ h' => .pure h'
  refine .bind_read ?_
  dsimp only
  split
  · exact huse _ _
  · split
    · refine .unless_fail fun _ => .bind_required fun inst _ => .bind_read (.unless_fail fun _ => ?_)
      refine Ensures.bind (m := fun _ s' => Straight c result scope passed s s') ?_ fun _ _ h' => .pure h'
      exact (ensures_modifyShared h _).bind fun _ _ h' => .pure h'
    · split
      · exact .pure (h.straight_of_shared s.shared)
      · exact huse _ _

/-- A call on values that can be read. -/
theorem ensures_callOn (h : s.Live c result passed scope) {span : Span} (sig : FunctionSig) {args : List VarId}
    (hargs : ∀ v ∈ args, s.function.DefinesIn (s.here passed) v) (hid : c.checked.type? id = some type) :
  Ensures c s (callOn id span sig args) fun value s' => Straight c result scope passed s s'
    ∧ ∀ v, value = some v → s'.Holds c passed v type
  := by
  refine .bind_typeOf hid fun t ht => (ensures_callee h).bind fun (name, convention) s₁ h₁ => ?_
  refine .bind_read (.bind_get ?_)
  refine (ensures_call (h.straight h₁) fun v hv => ?_).mono fun value s₂ ⟨h₂, hvalue⟩ => ?_
  · exact h₁.grown.widens.definesIn (h₁.here h₁.isOpen) (hargs v hv)
  · refine ⟨h₁.trans h₂, fun v hv => ?_⟩
    obtain ⟨htype, hdefined⟩ := hvalue v hv
    exact ⟨⟨t, ht, htype⟩, hdefined⟩

end

end Lower

end FormCompiler
