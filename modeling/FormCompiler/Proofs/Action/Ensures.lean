import Mathlib.Data.List.Basic

/-!
# Actions that succeed

`Ensures` says what holds if an action with a state succeeds: of its result and of the state after it.
Nothing is said of an action that fails, so what follows a failure is of no interest.
-/

namespace FormCompiler

universe u

variable {ε σ α β : Type}

/-- If an action succeeds, its result and the state after it satisfy a condition. -/
def Ensures (s : σ) (action : ExceptT ε (StateM σ) α) (post : α → σ → Prop) : Prop :=
  ∀ a s', action s = (.ok a, s') → post a s'

namespace Ensures

variable {s : σ} {x : ExceptT ε (StateM σ) α} {post post' : α → σ → Prop}
variable {k : α → ExceptT ε (StateM σ) β}

theorem bind_apply (x : ExceptT ε (StateM σ) α) (k : α → ExceptT ε (StateM σ) β) (s : σ) :
  (x >>= k) s = match x s with
    | (.ok a, s') => k a s'
    | (.error e, s') => (.error e, s')
  := by
  simp only [bind, ExceptT.bind, ExceptT.mk, StateT.bind, ExceptT.bindCont]
  rcases x s with ⟨_ | _, _⟩ <;> rfl

theorem bind {post : β → σ → Prop} {m : α → σ → Prop} (hx : Ensures s x m)
    (hk : ∀ a s', m a s' → Ensures s' (k a) post) :
  Ensures s (x >>= k) post
  := by
  intro b s'' h
  rw [bind_apply] at h
  rcases hx' : x s with ⟨e | a, s'⟩
  · rw [hx'] at h
    cases h
  · rw [hx'] at h
    exact hk a s' (hx a s' hx') b s'' h

theorem mono (h : Ensures s x post) (hpost : ∀ a s', post a s' → post' a s') :
  Ensures s x post'
  := fun a s' hrun => hpost a s' (h a s' hrun)

theorem and (h : Ensures s x post) (h' : Ensures s x post') :
  Ensures s x fun a s' => post a s' ∧ post' a s'
  := fun a s' hrun => ⟨h a s' hrun, h' a s' hrun⟩

theorem pure {a : α} (h : post a s) :
  Ensures (ε := ε) s (pure a) post
  := by
  rintro _ _ ⟨⟩
  exact h

theorem map {k : α → β} {post : β → σ → Prop} (h : Ensures s x fun a => post (k a)) :
  Ensures s (k <$> x) post
  := by
  rw [map_eq_pure_bind]
  exact h.bind fun _ _ ha => .pure ha

theorem throw {e : ε} :
  Ensures s (throw e : ExceptT ε (StateM σ) α) post
  := by
  rintro _ _ ⟨⟩

theorem bind_throw {e : ε} {post : β → σ → Prop} :
  Ensures s ((throwThe ε e : ExceptT ε (StateM σ) α) >>= k) post
  := by
  rintro _ _ ⟨⟩

theorem bind_get {k : σ → ExceptT ε (StateM σ) β} {post : β → σ → Prop} (h : Ensures s (k s) post) :
  Ensures s (get >>= k) post
  := h

theorem modify {change : σ → σ} {post : Unit → σ → Prop} (h : post () (change s)) :
  Ensures (ε := ε) s (modify change) post
  := by
  rintro _ _ ⟨⟩
  exact h

theorem bind_modify {change : σ → σ} {k : Unit → ExceptT ε (StateM σ) β} {post : β → σ → Prop}
    (h : Ensures (change s) (k ()) post) :
  Ensures s (MonadStateOf.modifyGet (fun s => ((), change s)) >>= k) post
  := h

/-- An action on a condition, and what follows in either case. -/
theorem bind_ite {p : Prop} [Decidable p] {x : ExceptT ε (StateM σ) Unit}
    {k : Unit → ExceptT ε (StateM σ) β} {post : β → σ → Prop} {m : σ → Prop}
    (hthen : p → Ensures s x fun _ => m) (helse : ¬ p → m s)
    (hk : ∀ s', m s' → Ensures s' (k ()) post) :
  Ensures s (if p then x >>= k else k ()) post
  := by
  split
  · next h => exact (hthen h).bind fun _ => hk
  · next h => exact hk s (helse h)

end Ensures

end FormCompiler
