import FormCompiler.Proofs.Typing.State

/-!
# Expressions that take an expected type

Something that is known of an expression's type may be about more than the expression: of a body, the
type of its last form is known. `Assigns` says that it is known for the new type as well when the
expression takes another type. Then it is known after a check that an expression can be assigned
(`ensures_expectAssignable`), and after two expressions have been given the same type (`ensures_common`).
-/

namespace FormCompiler

open ExprTypes CheckState

variable {scope scope' : TypeScope}

theorem HasType.lasts {e : Expr} {type : Ty} :
  Lasts e.preorder fun c r => HasType c r scope e type scope'
  := fun _ _ _ hagrees h => h.agrees e hagrees

theorem BodyHasType.lasts {items : List Expr} {type : Ty} :
  Lasts (preorders items) fun c r => BodyHasType c r scope items type scope'
  := fun _ _ _ hagrees h => h.agrees items hagrees

theorem HaveTypes.lasts {items : List Expr} {types : List Ty} :
  Lasts (preorders items) fun c r => HaveTypes c r scope items types scope'
  := fun _ _ _ hagrees h => h.agrees items hagrees

theorem ResourcesHaveType.lasts {resources : List (Resource Expr)} :
  Lasts (resourcePreorders resources) fun c r => ResourcesHaveType c r scope resources scope'
  := fun _ _ _ hagrees h => h.agrees resources hagrees

theorem Natural.lasts {e : Expr} :
  Lasts e.preorder fun c _ => Natural c.exprTypes e
  := fun _ _ _ hagrees h => h.congr e hagrees.types

/-- What is known of the type of an expression is also known of another type that it takes. -/
structure Assigns (n : Nat) (parts : List Expr) (e : Expr) (p : Ty → CheckedModule → Ty → Prop) :
    Prop where
  subset : e.preorder ⊆ parts
  lasts : ∀ type, Lasts parts (p type)
  coerces : ∀ {checked : CheckedModule} {result expected found : Ty} {types types' : ExprTypes},
    types.length = n → coerceLiteral expected e types = (true, types') →
    p found { checked with exprTypes := types } result →
    p expected { checked with exprTypes := types' } result

section

variable {n : Nat} {e : Expr} {scope scope' : TypeScope}

theorem HasType.assigns (hnumbered : Numbered n e.preorder) :
  Assigns n e.preorder e fun type c r => HasType c r scope e type scope'
  := ⟨List.Subset.refl _, fun _ => lasts, coerceLiteral_sound e hnumbered⟩

/-- An expression whose names nobody uses any more. -/
theorem HasType.assigns_inner (hnumbered : Numbered n e.preorder) :
  Assigns n e.preorder e fun type c r => ∃ inner, HasType c r scope e type inner
  := by
  refine ⟨List.Subset.refl _, fun type checked checked' result hagrees => ?_, fun hlength h => ?_⟩
  · exact Exists.imp fun inner => lasts _ _ _ hagrees
  · exact Exists.imp fun inner => coerceLiteral_sound e hnumbered hlength h

/-- A body has the type of its last form. -/
theorem BodyHasType.assigns {items : List Expr} (hnumbered : Numbered n (preorders items))
    (hlast : items.getLast? = some e) :
  Assigns n (preorders items) e fun type c r => BodyHasType c r scope items type scope'
  := by
  induction items generalizing scope with
  | nil => simp at hlast
  | cons item items ih =>
    rw [preorders] at hnumbered
    cases items with
    | nil =>
      obtain rfl : item = e := by simpa using hlast
      refine ⟨by simp [preorders], fun _ => lasts, fun hlength h hbody => ?_⟩
      simp only [BodyHasType, List.isEmpty_nil, if_true] at hbody ⊢
      obtain ⟨t, middle, he, rfl, rfl⟩ := hbody
      exact ⟨_, _, coerceLiteral_sound item hnumbered.left hlength h he, rfl, rfl⟩
    | cons next items =>
      rw [List.getLast?_cons_cons] at hlast
      have hrest := fun scope => (ih hnumbered.right hlast : Assigns n _ e fun type c r =>
        BodyHasType c r scope (next :: items) type scope')
      refine ⟨?_, fun _ => lasts, fun {checked result expected found types types'} hlength h hbody => ?_⟩
      · rw [preorders]
        exact List.Subset.trans (hrest []).subset (List.subset_append_right ..)
      · rw [BodyHasType] at hbody ⊢
        simp only [List.isEmpty_cons, Bool.false_eq_true, if_false] at hbody ⊢
        obtain ⟨t, middle, hitem, hbody⟩ := hbody
        refine ⟨t, middle, ?_, (hrest middle).coerces hlength h hbody⟩
        have hchanges := changes_coerceLiteral expected e types
        rw [h] at hchanges
        refine hitem.agrees item (hchanges.agrees fun id hid hid' => ?_)
        exact hnumbered.disjoint hid (List.map_subset _ (hrest []).subset hid')

end

namespace Check

variable {n : Nat} {s₀ s : CheckState} {parts : List Expr} {e : Expr}
  {p : Ty → CheckedModule → Ty → Prop}
variable {expected found : Ty}

theorem ensures_coerce (expected : Ty) (e : Expr) :
  Ensures s (coerce expected e) fun fits s' => ∃ types,
    coerceLiteral expected e s.checked.exprTypes = (fits, types)
      ∧ s' = { s with checked := { s.checked with exprTypes := types } }
  := by
  refine .bind_get ?_
  exact .bind_modify (.pure ⟨_, rfl, rfl⟩)

/-- What the types of an expression become does not concern the rest of the state. -/
theorem grown_coerce {fits : Bool} {types : ExprTypes}
    (h : coerceLiteral expected e s.checked.exprTypes = (fits, types)) :
  s.Grown (e.preorder.map Expr.id) { s with checked := { s.checked with exprTypes := types } }
  := by
  have hchanges := changes_coerceLiteral expected e s.checked.exprTypes
  rw [h] at hchanges
  have hgains := CheckedModule.Gains.refl (e.preorder.map Expr.id) s.imports s.checked
  exact ⟨.of_gains { hgains with types := hchanges }, .refl _⟩

/-- An expression that takes a type is of that type. -/
theorem checks_coerce (hp : Assigns n parts e p) (hs₀ : s₀.Sound n) (h : Checks parts (p found) s₀ s)
    {types : ExprTypes} (hcoerce : coerceLiteral expected e s.checked.exprTypes = (true, types)) :
  Checks parts (p expected) s₀ { s with checked := { s.checked with exprTypes := types } }
  := by
  refine ⟨h.grown.trans ((grown_coerce hcoerce).mono (List.map_subset _ hp.subset)), ?_⟩
  exact fun result hresult => hp.coerces (h.grown.sound hs₀).types hcoerce (h.known result hresult)

theorem ensures_expectAssignable (hp : Assigns n parts e p) (hs₀ : s₀.Sound n) (h : Checks parts (p found) s₀ s)
    (expected : Ty) :
  Ensures s (expectAssignable expected e found) fun _ s' =>
    Checks parts (p expected) s₀ s' ∧ s'.scope = s.scope
  := by
  unfold expectAssignable
  split
  · next heq =>
    subst heq
    exact .pure ⟨h, rfl⟩
  · refine (ensures_coerce expected e).bind ?_
    rintro fits _ ⟨types, hcoerce, rfl⟩
    cases fits with
    | false => exact .throw
    | true => exact .pure ⟨checks_coerce hp hs₀ h hcoerce, rfl⟩

/-- An expression has a type that its literals have by themselves. -/
def IsNatural (c : CheckedModule) (e : Expr) (type : Ty) : Prop :=
  Natural c.exprTypes e ∧ c.type? e.id = some type

theorem IsNatural.lasts {type : Ty} :
  Lasts e.preorder fun c _ => IsNatural c e type
  := fun _ _ _ hagrees h => ⟨Natural.lasts _ _ .none hagrees h.1, (hagrees.types _ e.mem_preorder).trans h.2⟩

/-- Of two expressions each is tried with the type of the other. -/
theorem ensures_common {a b : Expr} {q : Ty → CheckedModule → Ty → Prop}
    (ha : Assigns n a.preorder a p) (hb : Assigns n b.preorder b q)
    (hnumbered : Numbered n (a.preorder ++ b.preorder)) (hs₀ : s₀.Sound n) {left right : Ty}
    (h : Checks (a.preorder ++ b.preorder)
      (fun c r => (p left c r ∧ IsNatural c a left) ∧ q right c r ∧ IsNatural c b right) s₀ s)
    (problem : TypeProblem) :
  Ensures s (do
      if ← coerce left b then return left
      if ← coerce right a then return right
      throw problem)
    fun type s' => Checks (a.preorder ++ b.preorder) (fun c r => p type c r ∧ q type c r) s₀ s'
      ∧ s'.scope = s.scope
  := by
  have hlength := (h.grown.sound hs₀).types
  refine (ensures_coerce left b).bind ?_
  rintro fits _ ⟨types, hcoerce, rfl⟩
  have hgrown := grown_coerce hcoerce
  have hagrees := hgrown.toLearned.agrees hnumbered.disjoint
  cases fits with
  | true =>
    refine .pure ⟨⟨?_, fun result hresult => ?_⟩, rfl⟩
    · rw [List.map_append]
      exact (List.map_append ▸ h.grown).trans (hgrown.mono (List.subset_append_right ..))
    · obtain ⟨⟨hp, -⟩, hq, -⟩ := h.known result hresult
      exact ⟨ha.lasts _ _ _ _ hagrees hp, hb.coerces hlength hcoerce hq⟩
  | false =>
    refine (ensures_coerce right a).bind ?_
    rintro fits' _ ⟨types', hcoerce', rfl⟩
    cases fits' with
    | false => exact .throw
    | true =>
      -- if the second attempt succeeds, the first one has changed nothing
      have hnatural := Checks.of_known (p := fun c => IsNatural c a left ∧ IsNatural c b right)
        (h.mono fun result _ hknown => ⟨hknown.1.2, hknown.2.2⟩)
      have ha₁ := IsNatural.lasts _ _ .none hagrees hnatural.1
      have hadapts := adapts_of_coerceLiteral a hnumbered.left ha₁.1 ha₁.2 hcoerce'
      obtain ⟨fits, hrun, -⟩ := coerceLiteral_unchanged b hnatural.2.1 hnatural.2.2 hadapts
      obtain rfl : s.checked.exprTypes = types := (Prod.mk.inj (hrun.symm.trans hcoerce)).2
      have hgrown' := grown_coerce (s := s) hcoerce'
      refine .pure ⟨⟨?_, fun result hresult => ?_⟩, rfl⟩
      · rw [List.map_append]
        exact (List.map_append ▸ h.grown).trans (hgrown'.mono (List.subset_append_left ..))
      · obtain ⟨⟨hp, -⟩, hq, -⟩ := h.known result hresult
        exact ⟨ha.coerces hlength hcoerce' hp,
          hb.lasts _ _ _ _ (hgrown'.toLearned.agrees hnumbered.disjoint') hq⟩

end Check

end FormCompiler
