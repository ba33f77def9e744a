import FormCompiler.Proofs.Typing.Typed
import Mathlib.Data.List.Forall2

/-!
# Literals that take another type

`coerceLiteral` gives a literal, or an array or tuple of literals, an expected type. If it succeeds, the
expression has the type in the end (`coerceLiteral_sound`).

If it fails, it may have changed the types of some parts. Two operands are tried in both directions,
so the second direction must find the parts of the first one unchanged. This holds since both have just
been checked: the literals in them are *natural*, which means that they have the types they have by
themselves. If a natural expression can take another type, then the other type `Adapts` it, and a
natural expression of the other type does not change when it is tried with the first one
(`coerceLiteral_unchanged`).
-/

namespace FormCompiler

/-! ## Identifiers -/

/-- A form as the parser makes it: a mutex is created from nothing, and integers are in range. -/
def Shape.IsParsed : Shape Expr → Prop
  | .mutex .create (some _) => False
  | .literal (.int n) => isInt64 n = true
  | _ => True

/-- Expressions have identifiers of their own, below a number, and forms as the parser makes them. -/
structure Numbered (n : Nat) (parts : List Expr) : Prop where
  nodup : (parts.map Expr.id).Nodup
  lt : ∀ e ∈ parts, e.id < n
  shapes : ∀ e ∈ parts, e.shape.IsParsed

namespace Numbered

variable {n : Nat} {parts first second : List Expr} {e : Expr}

section

variable (h : Numbered n (first ++ second))

include h

theorem left :
  Numbered n first
  := by
  have hnodup := h.nodup
  rw [List.map_append] at hnodup
  exact ⟨(List.nodup_append.mp hnodup).1, fun e he => h.lt e (List.mem_append_left _ he),
    fun e he => h.shapes e (List.mem_append_left _ he)⟩

theorem right :
  Numbered n second
  := by
  have hnodup := h.nodup
  rw [List.map_append] at hnodup
  exact ⟨(List.nodup_append.mp hnodup).2.1, fun e he => h.lt e (List.mem_append_right _ he),
    fun e he => h.shapes e (List.mem_append_right _ he)⟩

theorem disjoint :
  List.Disjoint (first.map Expr.id) (second.map Expr.id)
  := by
  have hnodup := h.nodup
  rw [List.map_append] at hnodup
  exact fun id hfirst hsecond => (List.nodup_append.mp hnodup).2.2 id hfirst id hsecond rfl

theorem disjoint' :
  List.Disjoint (second.map Expr.id) (first.map Expr.id)
  := fun _ hsecond hfirst => h.disjoint hfirst hsecond

end

theorem tail (h : Numbered n (e :: parts)) :
  Numbered n parts
  := right (show Numbered n ([e] ++ parts) from h)

theorem not_mem (h : Numbered n (e :: parts)) :
  e.id ∉ parts.map Expr.id
  := (List.nodup_cons.mp h.nodup).1

end Numbered

/-! ## Tables of types -/

namespace ExprTypes

variable {types types' types'' : ExprTypes} {id : Nat} {type : Ty}

theorem type?_record_self (hid : id < types.length) (type : Ty) :
  (types.record id type).type? id = some type
  := by simp [record, type?, List.getElem?_set_self hid]

theorem type?_record_of_ne {other : Nat} (hne : other ≠ id) (type : Ty) :
  (types.record id type).type? other = types.type? other
  := by simp [record, type?, List.getElem?_set_ne hne.symm]

theorem record_of_type? (h : types.type? id = some type) :
  types.record id type = types
  := by
  rw [type?, Option.join_eq_some_iff] at h
  obtain ⟨hlt, hget⟩ := List.getElem?_eq_some_iff.mp h
  rw [record, ← hget, List.set_getElem_self]

/-- Only the types of some expressions have changed. -/
structure Changes (ids : List Nat) (types types' : ExprTypes) : Prop where
  length : types'.length = types.length
  others : ∀ id, id ∉ ids → types'.type? id = types.type? id

theorem Changes.refl (ids : List Nat) (types : ExprTypes) :
  types.Changes ids types
  := ⟨rfl, fun _ _ => rfl⟩

theorem Changes.trans {ids : List Nat} (h : types.Changes ids types') (h' : types'.Changes ids types'') :
  types.Changes ids types''
  := ⟨h'.length.trans h.length, fun id hid => (h'.others id hid).trans (h.others id hid)⟩

theorem Changes.mono {ids ids' : List Nat} (h : types.Changes ids types') (hids : ids ⊆ ids') :
  types.Changes ids' types'
  := ⟨h.length, fun id hid => h.others id fun hmem => hid (hids hmem)⟩

theorem changes_record (id : Nat) (type : Ty) :
  types.Changes [id] (types.record id type)
  := ⟨List.length_set, fun _ hother => type?_record_of_ne (by simpa using hother) type⟩

/-- What is known of other expressions does not change. -/
theorem Changes.agrees {checked : CheckedModule} {changed parts : List Expr}
    (h : types.Changes (changed.map Expr.id) types')
    (hparts : List.Disjoint (parts.map Expr.id) (changed.map Expr.id)) :
  { checked with exprTypes := types }.Agrees parts { checked with exprTypes := types' }
  := .of_types fun _ he => h.others _ (hparts (List.mem_map_of_mem he))

end ExprTypes

open ExprTypes

/-! ## One step at a time -/

section

variable {types : ExprTypes} {expected : Ty}

theorem coerceLiteral_node (id : Nat) (span : Span) (shape : Shape Expr) :
  coerceLiteral expected (.node id span shape) types
    = match coerceShape expected shape types with
      | (true, types') => (true, types'.record id expected)
      | (false, types') => (false, types')
  := by
  rw [coerceLiteral]
  change (if (coerceShape expected shape types).1 = true then _ else _ : StateM ExprTypes Bool)
    (coerceShape expected shape types).2 = _
  rcases coerceShape expected shape types with ⟨_ | _, types'⟩ <;> rfl

theorem coerceAll_eq_coerceEach (items : List Expr) :
  coerceAll expected items = coerceEach (List.replicate items.length expected) items
  := by
  induction items with
  | nil => rfl
  | cons item items ih => rw [coerceAll, List.length_cons, List.replicate_succ, coerceEach, ih]

theorem coerceEach_cons (rest : List Ty) (item : Expr) (items : List Expr) :
  coerceEach (expected :: rest) (item :: items) types
    = if types.type? item.id = some expected then coerceEach rest items types
      else match coerceLiteral expected item types with
      | (true, types') => coerceEach rest items types'
      | (false, types') => (false, types')
  := by
  rw [coerceEach]
  change (ite (types.type? item.id = some expected) _ _ : StateM ExprTypes Bool) types = _
  by_cases hknown : types.type? item.id = some expected
  · rw [if_pos hknown, if_pos hknown]
    rfl
  · rw [if_neg hknown, if_neg hknown]
    change (if (coerceLiteral expected item types).1 = true then coerceEach rest items
      else pure false : StateM ExprTypes Bool) (coerceLiteral expected item types).2 = _
    rcases coerceLiteral expected item types with ⟨_ | _, types'⟩ <;> rfl

theorem coerceAll_of_known {items : List Expr}
    (h : ∀ e ∈ items, types.type? e.id = some expected) :
  coerceAll expected items types = (true, types)
  := by
  rw [coerceAll_eq_coerceEach]
  induction items with
  | nil => rfl
  | cons item items ih =>
    rw [List.forall_mem_cons] at h
    rw [List.length_cons, List.replicate_succ, coerceEach_cons, if_pos h.1, ih h.2]

/-- Only literals and forms of literals can take another type. -/
theorem coerceShape_eq_true {shape : Shape Expr} {types' : ExprTypes}
    (h : coerceShape expected shape types = (true, types')) :
  (∃ value, shape = .literal value ∧ value.Fits expected ∧ types' = types)
    ∨ (∃ items element, shape = .array items ∧ expected = .array element (.fixed items.length)
      ∧ coerceEach (List.replicate items.length element) items types = (true, types'))
    ∨ ∃ items elements, shape = .tuple items ∧ expected = .tuple elements
      ∧ items.length = elements.length ∧ coerceEach elements items types = (true, types')
  := by
  cases shape with
  | literal value =>
    refine .inl ⟨value, rfl, ?_⟩
    cases value with
    | int i =>
      obtain ⟨hfits, rfl⟩ := Prod.mk.inj (show (expected.fitsLiteral i, types) = (true, types') from h)
      exact ⟨hfits, rfl⟩
    | frac bits =>
      obtain ⟨hfits, rfl⟩ := Prod.mk.inj (show (expected.isFraction, types) = (true, types') from h)
      exact ⟨hfits, rfl⟩
    | bool b => cases h
    | str text => cases h
  | array items =>
    refine .inr (.inl ?_)
    simp only [coerceShape] at h
    split at h
    · next element n =>
      split at h
      · next hlength => exact ⟨items, element, rfl, by rw [hlength], coerceAll_eq_coerceEach items ▸ h⟩
      · cases h
    · cases h
  | tuple items =>
    refine .inr (.inr ?_)
    simp only [coerceShape] at h
    split at h
    · next elements =>
      split at h
      · next hlength => exact ⟨items, elements, rfl, rfl, hlength, h⟩
      · cases h
    · cases h
  | _ => cases h

end

/-! ## What changes -/

mutual

theorem changes_coerceLiteral (expected : Ty) : ∀ (e : Expr) (types : ExprTypes),
    types.Changes (e.preorder.map Expr.id) (coerceLiteral expected e types).2
  | .node id span shape, types => by
    have hshape := changes_coerceShape expected shape types
    rw [coerceLiteral_node, Expr.preorder, List.map_cons]
    rcases hrun : coerceShape expected shape types with ⟨_ | _, types'⟩
    all_goals rw [hrun] at hshape
    · exact hshape.mono (List.subset_cons_self ..)
    · exact (hshape.mono (List.subset_cons_self ..)).trans ((changes_record id expected).mono (by simp [Expr.id]))

theorem changes_coerceShape (expected : Ty) (shape : Shape Expr) (types : ExprTypes) :
  types.Changes ((shapePreorder shape).map Expr.id) (coerceShape expected shape types).2
  := by
  cases shape with
  | array items =>
    simp only [coerceShape, shapePreorder]
    split
    · split
      · rw [coerceAll_eq_coerceEach]
        exact changes_coerceEach _ items types
      · exact .refl _ _
    · exact .refl _ _
  | tuple items =>
    simp only [coerceShape, shapePreorder]
    split
    · split
      · exact changes_coerceEach _ items types
      · exact .refl _ _
    · exact .refl _ _
  | literal value => cases value <;> exact .refl _ _
  | _ => exact .refl _ _

theorem changes_coerceEach : ∀ (expected : List Ty) (items : List Expr) (types : ExprTypes),
    types.Changes ((preorders items).map Expr.id) (coerceEach expected items types).2
  | expected :: rest, item :: items, types => by
    have hitem := changes_coerceLiteral expected item types
    rw [coerceEach_cons, preorders, List.map_append]
    split
    · exact (changes_coerceEach rest items types).mono (List.subset_append_right ..)
    · rcases hrun : coerceLiteral expected item types with ⟨_ | _, types'⟩
      all_goals rw [hrun] at hitem
      · exact hitem.mono (List.subset_append_left ..)
      · exact (hitem.mono (List.subset_append_left ..)).trans
          ((changes_coerceEach rest items types').mono (List.subset_append_right ..))
  | [], items, types => by
    rw [coerceEach]
    · exact .refl _ _
    · simp
  | _ :: _, [], types => by
    rw [coerceEach]
    · exact .refl _ _
    · simp

end

/-! ## What is typed in the end -/

section

variable {n : Nat} {checked : CheckedModule} {result : Ty}

mutual

/-- A typed literal that takes another type is of that type. -/
theorem coerceLiteral_sound : ∀ (e : Expr) {expected type : Ty} {types types' : ExprTypes}
    {scope scope' : TypeScope}, Numbered n e.preorder → types.length = n →
      coerceLiteral expected e types = (true, types') →
      HasType { checked with exprTypes := types } result scope e type scope' →
      HasType { checked with exprTypes := types' } result scope e expected scope'
  | .node id span shape, expected, type, types, types', scope, scope', hnumbered, hlength, h, htyped => by
    rw [Expr.preorder] at hnumbered
    rw [coerceLiteral_node] at h
    have hchanges := changes_coerceShape expected shape types
    rcases hrun : coerceShape expected shape types with ⟨_ | _, types₁⟩
    all_goals rw [hrun] at h
    · cases h
    · obtain ⟨-, rfl⟩ := Prod.mk.inj h
      rw [hrun] at hchanges
      simp only [HasType] at htyped ⊢
      have hid : id < types₁.length := by
        rw [hchanges.length, hlength]
        exact hnumbered.lt _ (List.mem_cons_self ..)
      refine ⟨type?_record_self hid expected, ?_⟩
      have hshape := coerceShape_sound id shape hnumbered.tail hlength hrun htyped.2
      refine hshape.agrees id shape ?_
      have hrecord : types₁.Changes ([Expr.node id span shape].map Expr.id) (types₁.record id expected) :=
        changes_record id expected
      refine hrecord.agrees ?_
      simpa [List.disjoint_singleton, Expr.id] using hnumbered.not_mem

/-- A typed form of literals that takes another type is of that type. -/
theorem coerceShape_sound (id : Nat) (shape : Shape Expr) {expected type : Ty} {types types' : ExprTypes}
    {scope scope' : TypeScope} (hnumbered : Numbered n (shapePreorder shape)) (hlength : types.length = n)
    (h : coerceShape expected shape types = (true, types'))
    (htyped : FormHasType { checked with exprTypes := types } result scope id shape type scope') :
  FormHasType { checked with exprTypes := types' } result scope id shape expected scope'
  := by
  cases shape with
  | literal value =>
    obtain ⟨_, heq, hfits, -⟩ | ⟨_, _, heq, -⟩ | ⟨_, _, heq, -⟩ := coerceShape_eq_true h
    all_goals cases heq
    simp only [FormHasType] at htyped ⊢
    exact ⟨hfits, htyped.2⟩
  | array items =>
    obtain ⟨_, heq, -⟩ | ⟨_, element, heq, rfl, hitems⟩ | ⟨_, _, heq, -⟩ := coerceShape_eq_true h
    all_goals cases heq
    rw [shapePreorder] at hnumbered
    simp only [FormHasType] at htyped ⊢
    obtain ⟨_, -, htyped⟩ := htyped
    exact ⟨element, rfl, coerceEach_sound _ items hnumbered hlength (by simp) hitems htyped⟩
  | tuple items =>
    obtain ⟨_, heq, -⟩ | ⟨_, _, heq, -⟩ | ⟨_, elements, heq, rfl, hcount, hitems⟩ := coerceShape_eq_true h
    all_goals cases heq
    rw [shapePreorder] at hnumbered
    simp only [FormHasType] at htyped ⊢
    obtain ⟨_, -, htyped⟩ := htyped
    exact ⟨elements, rfl, coerceEach_sound elements items hnumbered hlength hcount hitems htyped⟩
  | _ => cases h

theorem coerceEach_sound : ∀ (expected : List Ty) (items : List Expr) {found : List Ty}
    {types types' : ExprTypes} {scope scope' : TypeScope}, Numbered n (preorders items) →
      types.length = n → items.length = expected.length →
      coerceEach expected items types = (true, types') →
      HaveTypes { checked with exprTypes := types } result scope items found scope' →
      HaveTypes { checked with exprTypes := types' } result scope items expected scope'
  | [], [], found, types, types', scope, scope', _, _, _, h, htyped => by
    simp only [HaveTypes, true_and] at htyped ⊢
    exact htyped.2
  | expected :: rest, item :: items, found, types, types', scope, scope', hnumbered, hlength, hcount, h,
      htyped => by
    rw [preorders] at hnumbered
    rw [coerceEach_cons] at h
    simp only [HaveTypes] at htyped ⊢
    obtain ⟨t, found', middle, rfl, hitem, hitems⟩ := htyped
    obtain ⟨types₁, hchanges, hitem₁, hrest⟩ : ∃ types₁, types.Changes (item.preorder.map Expr.id) types₁
        ∧ HasType { checked with exprTypes := types₁ } result scope item expected middle
        ∧ coerceEach rest items types₁ = (true, types') := by
      split at h
      · next hknown =>
        obtain rfl : t = expected := Option.some.inj (hitem.type?.symm.trans hknown)
        exact ⟨types, .refl _ _, hitem, h⟩
      · have hchanges := changes_coerceLiteral expected item types
        rcases hrun : coerceLiteral expected item types with ⟨_ | _, types₁⟩
        all_goals rw [hrun] at h hchanges
        · cases h
        · exact ⟨types₁, hchanges, coerceLiteral_sound item hnumbered.left hlength hrun hitem, h⟩
    have hitems₁ := hitems.agrees items (hchanges.agrees hnumbered.disjoint')
    have hchanges' := changes_coerceEach rest items types₁
    rw [hrest] at hchanges'
    refine ⟨expected, rest, middle, rfl, hitem₁.agrees item (hchanges'.agrees hnumbered.disjoint), ?_⟩
    exact coerceEach_sound rest items hnumbered.right (hchanges.length.trans hlength)
      (by simpa using hcount) hrest hitems₁
  | [], _ :: _, _, _, _, _, _, _, _, hcount, _, _ | _ :: _, [], _, _, _, _, _, _, _, hcount, _, _ => by
    simp at hcount

end

end

/-! ## Natural types -/

mutual

/-- The literals in an expression that could take another type have the types they have by themselves. -/
def Natural (types : ExprTypes) : Expr → Prop
  | .node id _ shape => NaturalShape types id shape

/-- The literals in a form have the types they have by themselves; an array follows its first item. -/
def NaturalShape (types : ExprTypes) (id : Nat) : Shape Expr → Prop
  | .literal value => types.type? id = some value.type
  | .array [] => False
  | .array (first :: rest) =>
    Natural types first ∧ ∃ type, types.type? id = some (.array type (.fixed (rest.length + 1)))
      ∧ ∀ e ∈ first :: rest, types.type? e.id = some type
  | .tuple items =>
    NaturalAll types items ∧ ∃ elements, types.type? id = some (.tuple elements)
      ∧ List.Forall₂ (fun e type => types.type? e.id = some type) items elements
  | _ => True

/-- The literals in several expressions have the types they have by themselves. -/
def NaturalAll (types : ExprTypes) : List Expr → Prop
  | [] => True
  | e :: rest => Natural types e ∧ NaturalAll types rest

end

theorem mem_preorders_of_mem {e : Expr} {items : List Expr} (h : e ∈ items) :
  e ∈ preorders items
  := by
  induction items with
  | nil => cases h
  | cons item items ih =>
    rw [preorders]
    rcases List.mem_cons.mp h with rfl | h
    · exact List.mem_append_left _ (Expr.mem_preorder e)
    · exact List.mem_append_right _ (ih h)

section

variable {types types' : ExprTypes}

theorem forall₂_type?_congr {items : List Expr} {found : List Ty}
    (htypes : ∀ e ∈ items, types'.type? e.id = types.type? e.id)
    (h : List.Forall₂ (fun e type => types.type? e.id = some type) items found) :
  List.Forall₂ (fun e type => types'.type? e.id = some type) items found
  := by
  induction h with
  | nil => exact .nil
  | cons hfirst _ ih =>
    rw [List.forall_mem_cons] at htypes
    exact .cons (htypes.1.trans hfirst) (ih htypes.2)

mutual

theorem Natural.congr : ∀ (e : Expr), (∀ part ∈ e.preorder, types'.type? part.id = types.type? part.id) →
    Natural types e → Natural types' e
  | .node id span shape, htypes, h => by
    rw [Expr.preorder, List.forall_mem_cons] at htypes
    simp only [Natural] at h ⊢
    exact NaturalShape.congr id shape htypes.1 htypes.2 h

theorem NaturalShape.congr (id : Nat) (shape : Shape Expr) (hid : types'.type? id = types.type? id)
    (htypes : ∀ part ∈ shapePreorder shape, types'.type? part.id = types.type? part.id)
    (h : NaturalShape types id shape) :
  NaturalShape types' id shape
  := by
  cases shape with
  | literal value =>
    simp only [NaturalShape] at h ⊢
    exact hid.trans h
  | array items =>
    obtain _ | ⟨first, rest⟩ := items
    · simp only [NaturalShape] at h
    rw [shapePreorder] at htypes
    have hitems : ∀ e ∈ first :: rest, types'.type? e.id = types.type? e.id :=
      fun e he => htypes e (mem_preorders_of_mem he)
    rw [preorders] at htypes
    simp only [NaturalShape] at h ⊢
    obtain ⟨hfirst, type, htype, hall⟩ := h
    refine ⟨Natural.congr first (fun part hpart => htypes part (List.mem_append_left _ hpart)) hfirst,
      type, hid.trans htype, fun e he => (hitems e he).trans (hall e he)⟩
  | tuple items =>
    rw [shapePreorder] at htypes
    simp only [NaturalShape] at h ⊢
    obtain ⟨hall, elements, htype, helements⟩ := h
    refine ⟨NaturalAll.congr items htypes hall, elements, hid.trans htype, ?_⟩
    exact forall₂_type?_congr (fun e he => htypes e (mem_preorders_of_mem he)) helements
  | _ => simp only [NaturalShape]

theorem NaturalAll.congr : ∀ (items : List Expr),
    (∀ part ∈ preorders items, types'.type? part.id = types.type? part.id) →
    NaturalAll types items → NaturalAll types' items
  | [], _, _ => by simp only [NaturalAll]
  | e :: rest, htypes, h => by
    rw [preorders, List.forall_mem_append] at htypes
    simp only [NaturalAll] at h ⊢
    exact ⟨Natural.congr e htypes.1 h.1, NaturalAll.congr rest htypes.2 h.2⟩

end

end

/-- A natural expression of the first type may take the second one. -/
inductive Adapts : Ty → Ty → Prop
  | refl (type : Ty) : Adapts type type
  | int {type : Ty} (h : type.isInteger = true) : Adapts .int type
  | frac {type : Ty} (h : type.isFraction = true) : Adapts .frac type
  | array {element element' : Ty} (length : ArrayLength) (h : Adapts element element') :
    Adapts (.array element length) (.array element' length)
  | tuple {elements elements' : List Ty} (h : List.Forall₂ Adapts elements elements') :
    Adapts (.tuple elements) (.tuple elements')

theorem Literal.adapts_of_fits {value : Literal} {type : Ty} (h : value.Fits type) :
  Adapts value.type type
  := by
  cases value with
  | int n => exact .int (Ty.isInteger_of_fitsLiteral h)
  | frac bits => exact .frac h
  | bool b =>
    obtain rfl : type = .bool := h
    exact .refl _
  | str text =>
    obtain rfl : type = .str := h
    exact .refl _

section

variable {n : Nat}

mutual

/-- If a natural expression takes a type, that type adapts its own. -/
theorem adapts_of_coerceLiteral : ∀ (e : Expr) {expected type : Ty} {types types' : ExprTypes},
    Numbered n e.preorder → Natural types e → types.type? e.id = some type →
    coerceLiteral expected e types = (true, types') → Adapts type expected
  | .node id span shape, expected, type, types, types', hnumbered, hnatural, htype, h => by
    rw [Expr.preorder] at hnumbered
    rw [coerceLiteral_node] at h
    rcases hrun : coerceShape expected shape types with ⟨_ | _, types₁⟩
    all_goals rw [hrun] at h
    · cases h
    · simp only [Natural] at hnatural
      exact adapts_of_coerceShape id shape hnumbered.tail hnatural htype hrun

theorem adapts_of_coerceShape (id : Nat) (shape : Shape Expr) {expected type : Ty} {types types' : ExprTypes}
    (hnumbered : Numbered n (shapePreorder shape)) (hnatural : NaturalShape types id shape)
    (htype : types.type? id = some type) (h : coerceShape expected shape types = (true, types')) :
  Adapts type expected
  := by
  cases shape with
  | literal value =>
    obtain ⟨_, heq, hfits, -⟩ | ⟨_, _, heq, -⟩ | ⟨_, _, heq, -⟩ := coerceShape_eq_true h
    all_goals cases heq
    simp only [NaturalShape] at hnatural
    obtain rfl : value.type = type := Option.some.inj (hnatural.symm.trans htype)
    exact Literal.adapts_of_fits hfits
  | array items =>
    obtain _ | ⟨first, rest⟩ := items
    · simp only [NaturalShape] at hnatural
    obtain ⟨_, heq, -⟩ | ⟨_, element, heq, rfl, hitems⟩ | ⟨_, _, heq, -⟩ := coerceShape_eq_true h
    all_goals cases heq
    rw [shapePreorder, preorders] at hnumbered
    simp only [NaturalShape] at hnatural
    obtain ⟨hfirst, item, hitem, hall⟩ := hnatural
    obtain rfl := Option.some.inj (hitem.symm.trans htype)
    have hknown := hall first (List.mem_cons_self ..)
    refine .array _ ?_
    rw [List.length_cons, List.replicate_succ, coerceEach_cons] at hitems
    split at hitems
    · next heq =>
      obtain rfl := Option.some.inj (hknown.symm.trans heq)
      exact .refl _
    · rcases hrun : coerceLiteral element first types with ⟨_ | _, types₁⟩
      all_goals rw [hrun] at hitems
      · cases hitems
      · exact adapts_of_coerceLiteral first hnumbered.left hfirst hknown hrun
  | tuple items =>
    obtain ⟨_, heq, -⟩ | ⟨_, _, heq, -⟩ | ⟨_, elements, heq, rfl, hcount, hitems⟩ := coerceShape_eq_true h
    all_goals cases heq
    rw [shapePreorder] at hnumbered
    simp only [NaturalShape] at hnatural
    obtain ⟨hall, found, hfound, hknown⟩ := hnatural
    obtain rfl := Option.some.inj (hfound.symm.trans htype)
    exact .tuple (adapts_of_coerceEach elements items hnumbered hcount hall hknown hitems)
  | _ => cases h

theorem adapts_of_coerceEach : ∀ (expected : List Ty) (items : List Expr) {found : List Ty}
    {types types' : ExprTypes}, Numbered n (preorders items) → items.length = expected.length →
    NaturalAll types items → List.Forall₂ (fun e type => types.type? e.id = some type) items found →
    coerceEach expected items types = (true, types') → List.Forall₂ Adapts found expected
  | [], [], found, types, types', _, _, _, hknown, _ => by
    cases hknown
    exact .nil
  | expected :: rest, item :: items, found, types, types', hnumbered, hcount, hnatural, hknown, h => by
    rw [preorders] at hnumbered
    simp only [NaturalAll] at hnatural
    obtain ⟨hitem, hitems⟩ := hnatural
    obtain _ | ⟨htype, hrest⟩ := hknown
    rw [coerceEach_cons] at h
    split at h
    · next heq =>
      obtain rfl := Option.some.inj (htype.symm.trans heq)
      exact .cons (.refl _) (adapts_of_coerceEach rest items hnumbered.right (by simpa using hcount)
        hitems hrest h)
    · have hchanges := changes_coerceLiteral expected item types
      rcases hrun : coerceLiteral expected item types with ⟨_ | _, types₁⟩
      all_goals rw [hrun] at h hchanges
      · cases h
      · have hkept : ∀ part ∈ preorders items, types₁.type? part.id = types.type? part.id :=
          fun part hpart => hchanges.others _ (hnumbered.disjoint' (List.mem_map_of_mem hpart))
        refine .cons (adapts_of_coerceLiteral item hnumbered.left hitem htype hrun) ?_
        refine adapts_of_coerceEach rest items hnumbered.right (by simpa using hcount)
          (hitems.congr items hkept) ?_ h
        exact forall₂_type?_congr (fun e he => hkept e (mem_preorders_of_mem he)) hrest
  | [], _ :: _, _, _, _, _, hcount, _, _, _ | _ :: _, [], _, _, _, _, hcount, _, _, _ => by
    simp at hcount

end

end

mutual

/--
A natural expression whose type adapts another one does not change when it is tried with that one,
and takes it only if it is the same.
-/
theorem coerceLiteral_unchanged : ∀ (e : Expr) {expected type : Ty} {types : ExprTypes},
    Natural types e → types.type? e.id = some type → Adapts expected type →
    ∃ fits, coerceLiteral expected e types = (fits, types) ∧ (fits = true → expected = type)
  | .node id span shape, expected, type, types, hnatural, htype, hadapts => by
    simp only [Natural] at hnatural
    obtain ⟨fits, hrun, hsame⟩ := coerceShape_unchanged id shape hnatural htype hadapts
    refine ⟨fits, ?_, hsame⟩
    rw [coerceLiteral_node, hrun]
    cases fits with
    | false => rfl
    | true =>
      obtain rfl := hsame rfl
      exact congrArg (Prod.mk true) (record_of_type? htype)

theorem coerceShape_unchanged (id : Nat) (shape : Shape Expr) {expected type : Ty} {types : ExprTypes}
    (hnatural : NaturalShape types id shape) (htype : types.type? id = some type)
    (hadapts : Adapts expected type) :
  ∃ fits, coerceShape expected shape types = (fits, types) ∧ (fits = true → expected = type)
  := by
  cases shape with
  | literal value =>
    simp only [NaturalShape] at hnatural
    obtain rfl : value.type = type := Option.some.inj (hnatural.symm.trans htype)
    -- a literal adapts to other types, but nothing adapts to the type of a literal
    have hsame : expected = value.type := by
      cases value <;> cases hadapts <;> simp_all [Literal.type, Ty.isInteger, Ty.isFraction]
    cases value <;> exact ⟨_, rfl, fun _ => hsame⟩
  | array items =>
    obtain _ | ⟨first, rest⟩ := items
    · simp only [NaturalShape] at hnatural
    simp only [NaturalShape] at hnatural
    obtain ⟨hfirst, element', hitem, hall⟩ := hnatural
    obtain rfl := Option.some.inj (hitem.symm.trans htype)
    obtain ⟨element, rfl, helement⟩ : ∃ element,
        expected = .array element (.fixed (rest.length + 1)) ∧ Adapts element element' := by
      cases hadapts with
      | refl => exact ⟨_, rfl, .refl _⟩
      | int h => simp [Ty.isInteger] at h
      | frac h => simp [Ty.isFraction] at h
      | array _ h => exact ⟨_, rfl, h⟩
    simp only [coerceShape, List.length_cons, if_true]
    by_cases hsame : element = element'
    · refine ⟨true, ?_, fun _ => by rw [hsame]⟩
      exact coerceAll_of_known fun e he => (hall e he).trans (by rw [hsame])
    · -- the first item does not take the type, so the others are not tried
      refine ⟨false, ?_, by simp⟩
      obtain ⟨fits, hrun, hfits⟩ := coerceLiteral_unchanged first hfirst (hall first (List.mem_cons_self ..))
        helement
      have hunknown : types.type? first.id ≠ some element := by
        rw [hall first (List.mem_cons_self ..)]
        exact fun heq => hsame (Option.some.inj heq).symm
      rw [coerceAll_eq_coerceEach, List.length_cons, List.replicate_succ, coerceEach_cons, if_neg hunknown, hrun]
      cases fits with
      | false => rfl
      | true => exact absurd (hfits rfl) hsame
  | tuple items =>
    simp only [NaturalShape] at hnatural
    obtain ⟨hall, elements', hfound, hknown⟩ := hnatural
    obtain rfl := Option.some.inj (hfound.symm.trans htype)
    obtain ⟨elements, rfl, helements⟩ : ∃ elements,
        expected = .tuple elements ∧ List.Forall₂ Adapts elements elements' := by
      cases hadapts with
      | refl => exact ⟨_, rfl, List.forall₂_same.mpr fun _ _ => .refl _⟩
      | int h => simp [Ty.isInteger] at h
      | frac h => simp [Ty.isFraction] at h
      | tuple h => exact ⟨_, rfl, h⟩
    have hcount : items.length = elements.length := hknown.length_eq.trans helements.length_eq.symm
    simp only [coerceShape, hcount, if_true]
    obtain ⟨fits, hrun, hsame⟩ := coerceEach_unchanged elements items hall hknown helements
    exact ⟨fits, hrun, fun hfits => by rw [hsame hfits]⟩
  | _ => exact ⟨false, rfl, by simp⟩

theorem coerceEach_unchanged : ∀ (expected : List Ty) (items : List Expr) {found : List Ty}
    {types : ExprTypes}, NaturalAll types items →
    List.Forall₂ (fun e type => types.type? e.id = some type) items found →
    List.Forall₂ Adapts expected found →
    ∃ fits, coerceEach expected items types = (fits, types) ∧ (fits = true → expected = found)
  | [], [], _, _, _, _, hadapts => by
    cases hadapts
    exact ⟨true, rfl, fun _ => rfl⟩
  | expected :: rest, item :: items, _, types, hnatural, hknown, hadapts => by
    simp only [NaturalAll] at hnatural
    obtain _ | ⟨htype, hrest⟩ := hknown
    obtain _ | ⟨hadapt, hadapts⟩ := hadapts
    obtain ⟨fits, hrun, hsame⟩ := coerceEach_unchanged rest items hnatural.2 hrest hadapts
    rw [coerceEach_cons]
    split
    · next heq =>
      obtain rfl := Option.some.inj (htype.symm.trans heq)
      exact ⟨fits, hrun, fun hfits => by rw [hsame hfits]⟩
    · next hne =>
      obtain ⟨fits', hrun', hsame'⟩ := coerceLiteral_unchanged item hnatural.1 htype hadapt
      rw [hrun']
      cases fits' with
      | false => exact ⟨false, rfl, by simp⟩
      | true => exact absurd (htype.trans (by rw [hsame' rfl])) hne
  | [], _ :: _, _, _, _, hknown, hadapts => by
    cases hadapts
    cases hknown
  | _ :: _, [], _, _, _, hknown, hadapts => by
    cases hknown
    cases hadapts

end

end FormCompiler
