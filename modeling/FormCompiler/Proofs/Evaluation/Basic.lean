import FormCompiler.Ast.Expr
import Mathlib.Data.List.Basic

/-!
# Evaluation

What happens when a piece of a program is evaluated is an `Eval`: a relation between the state before, the
outcome and the state after. The outcome is a result, or a jump out of the piece. The state has the locals,
the latest first, and the world outside of them, of which nothing is known. A scope is left by dropping the
locals that have been declared in it.

Two pieces that do the same in states that a relation connects are `Alike`. States are connected by
`Inserted` if the second has further locals somewhere, the names of which are not hidden by locals in front of
them. A piece that does not use such a name is like itself, and in a scope of its own the further locals can be
left out (`inScope_declare`).
-/

namespace FormCompiler

/-- Why control does not come out of a piece of a program. -/
inductive Jump (V : Type) where
  | breakLoop
  | continueLoop
  | ret (value : V)
  /-- An operation that fails ends the program. -/
  | fault

/-- What is known while a program is evaluated. -/
structure EvalState (V W : Type) where
  /-- The locals and their values, the latest first. -/
  locals : List (String × V)
  /-- Everything that operations can see and change. -/
  world : W

/-- The state after a scope that has been entered in one state and evaluated to another. -/
def EvalState.leave {V W : Type} (entered ended : EvalState V W) : EvalState V W :=
  { ended with locals := ended.locals.drop (ended.locals.length - entered.locals.length) }

/-- What may happen from a state on: how it ends, and the state it ends in. -/
def Eval (V W α : Type) : Type := EvalState V W → Except (Jump V) α → EvalState V W → Prop

namespace Eval

variable {V W α β : Type}
variable {s s' : EvalState V W} {out : Except (Jump V) α} {m : Eval V W α} {name : String}

/-- One piece after another; a jump leaves out what follows. -/
protected def bind (m : Eval V W α) (k : α → Eval V W β) : Eval V W β := fun s out s' =>
  (∃ a s₁, m s (.ok a) s₁ ∧ k a s₁ out s') ∨ ∃ jump, m s (.error jump) s' ∧ out = .error jump

instance : Monad (Eval V W) where
  pure a := fun s out s' => out = .ok a ∧ s' = s
  bind := Eval.bind

theorem pure_iff {a : α} :
  (pure a : Eval V W α) s out s' ↔ out = .ok a ∧ s' = s
  := Iff.rfl

theorem bind_iff {k : α → Eval V W β} {out : Except (Jump V) β} :
  (m >>= k) s out s'
    ↔ (∃ a s₁, m s (.ok a) s₁ ∧ k a s₁ out s') ∨ ∃ jump, m s (.error jump) s' ∧ out = .error jump
  := Iff.rfl

theorem ext {m' : Eval V W α} (h : ∀ s out s', m s out s' ↔ m' s out s') :
  m = m'
  := by
  funext s out s'
  exact propext (h s out s')

instance : LawfulMonad (Eval V W) := LawfulMonad.mk' (Eval V W)
  (fun m => Eval.ext fun s out s' => by
    change (m >>= fun a => pure a) s out s' ↔ _
    rw [bind_iff]
    constructor
    · rintro (⟨a, s₁, hm, rfl, rfl⟩ | ⟨jump, hm, rfl⟩) <;> exact hm
    · intro hm
      cases out with
      | ok a => exact .inl ⟨a, s', hm, rfl, rfl⟩
      | error jump => exact .inr ⟨jump, hm, rfl⟩)
  (fun a k => Eval.ext fun s out s' => by
    rw [bind_iff]
    constructor
    · rintro (⟨_, _, ⟨heq, rfl⟩, hk⟩ | ⟨jump, ⟨heq, -⟩, -⟩)
      · cases heq
        exact hk
      · cases heq
    · exact fun hk => .inl ⟨a, s, ⟨rfl, rfl⟩, hk⟩)
  (fun m k l => Eval.ext fun s out s' => by
    simp only [bind_iff]
    constructor
    · rintro (⟨b, s₂, ⟨a, s₁, hm, hk⟩ | ⟨jump, _, heq⟩, hl⟩ | ⟨jump, ⟨a, s₁, hm, hk⟩ | ⟨jump', hm, heq⟩, rfl⟩)
      · exact .inl ⟨a, s₁, hm, .inl ⟨b, s₂, hk, hl⟩⟩
      · cases heq
      · exact .inl ⟨a, s₁, hm, .inr ⟨jump, hk, rfl⟩⟩
      · cases heq
        exact .inr ⟨jump, hm, rfl⟩
    · rintro (⟨a, s₁, hm, ⟨b, s₂, hk, hl⟩ | ⟨jump, hk, rfl⟩⟩ | ⟨jump, hm, rfl⟩)
      · exact .inl ⟨b, s₂, .inl ⟨a, s₁, hm, hk⟩, hl⟩
      · exact .inr ⟨jump, .inl ⟨a, s₁, hm, hk⟩, rfl⟩
      · exact .inr ⟨jump, .inr ⟨jump, hm, rfl⟩, rfl⟩)

/-! ## Pieces of programs -/

/-- Jumps out of what is being evaluated. -/
def jump (j : Jump V) : Eval V W α := fun s out s' => out = .error j ∧ s' = s

/-- What cannot be evaluated. -/
def stuck : Eval V W α := fun _ _ _ => False

/-- An operation on the world, which may fail. -/
def operation (perform : W → Option α → W → Prop) : Eval V W α := fun s out s' =>
  ∃ result, perform s.world result s'.world ∧ s'.locals = s.locals ∧ out = result.elim (.error .fault) .ok

/-- The value of a local, if there is one of that name. -/
def local? (name : String) : Eval V W (Option V) := fun s out s' => out = .ok (s.locals.lookup name) ∧ s' = s

/-- Declares a local. -/
def declare (name : String) (value : V) : Eval V W Unit := fun s out s' =>
  out = .ok () ∧ s' = { s with locals := (name, value) :: s.locals }

/-- The locals with another value for one of them. -/
def setLocal? (name : String) (value : V) : List (String × V) → Option (List (String × V))
  | [] => none
  | (other, old) :: locals =>
    if other = name then some ((name, value) :: locals)
    else ((other, old) :: ·) <$> setLocal? name value locals

/-- Assigns to a local. -/
def assign (name : String) (value : V) : Eval V W Unit := fun s out s' =>
  out = .ok () ∧ setLocal? name value s.locals = some s'.locals ∧ s'.world = s.world

/-- Evaluates in a scope of its own, the locals of which are dropped at its end. -/
def inScope (m : Eval V W α) : Eval V W α := fun s out s' => ∃ s₁, m s out s₁ ∧ s' = s.leave s₁

/-- Evaluates up to a jump, unless the program ends. -/
def attempt (m : Eval V W α) : Eval V W (Except (Jump V) α) := fun s out s' =>
  (m s (.error .fault) s' ∧ out = .error .fault) ∨ ∃ ended, m s ended s' ∧ ended ≠ .error .fault ∧ out = .ok ended

/-- What rounds may do one after the other. -/
inductive Repeats (round : Eval V W Bool) : EvalState V W → Except (Jump V) Unit → EvalState V W → Prop
  | done {s s' : EvalState V W} (h : round s (.ok false) s') : Repeats round s (.ok ()) s'
  | jump {s s' : EvalState V W} {j : Jump V} (h : round s (.error j) s') : Repeats round s (.error j) s'
  | again {s s₁ s' : EvalState V W} {out : Except (Jump V) Unit} (h : round s (.ok true) s₁)
    (hrest : Repeats round s₁ out s') : Repeats round s out s'

/-- Evaluates a round as long as its answer is to go on. -/
def repeating (round : Eval V W Bool) : Eval V W Unit := Repeats round

/-- Goes on as it was when an attempt ended. -/
def resume : Except (Jump V) α → Eval V W α
  | .ok a => pure a
  | .error j => jump j

/-- Evaluates and does what has to be done at the end, also if there is a jump. -/
def ensuring (m : Eval V W α) (last : Eval V W β) : Eval V W α := do
  let ended ← attempt m
  let _ ← last
  resume ended

/-- The body of a loop; the answer is whether the loop goes on. -/
def loopBody (m : Eval V W α) : Eval V W Bool := do
  match ← attempt m with
  | .ok _ | .error .continueLoop => return true
  | .error .breakLoop => return false
  | .error j => jump j

/-! ## Locals -/

theorem local?_bind_iff {k : Option V → Eval V W α} :
  (local? name >>= k) s out s' ↔ k (s.locals.lookup name) s out s'
  := by
  rw [bind_iff]
  constructor
  · rintro (⟨_, _, ⟨heq, rfl⟩, hk⟩ | ⟨_, ⟨heq, -⟩, -⟩)
    · cases heq
      exact hk
    · cases heq
  · exact fun hk => .inl ⟨_, _, ⟨rfl, rfl⟩, hk⟩

theorem declare_bind_iff {value : V} {k : Unit → Eval V W α} :
  (declare name value >>= k) s out s' ↔ k () { s with locals := (name, value) :: s.locals } out s'
  := by
  rw [bind_iff]
  constructor
  · rintro (⟨_, _, ⟨-, rfl⟩, hk⟩ | ⟨_, ⟨heq, -⟩, -⟩)
    · exact hk
    · cases heq
  · exact fun hk => .inl ⟨_, _, ⟨rfl, rfl⟩, hk⟩

theorem inScope_iff :
  inScope m s out s' ↔ ∃ s₁, m s out s₁ ∧ s' = s.leave s₁
  := Iff.rfl

section

variable {name : String} {value : V} {first second locals : List (String × V)}

theorem setLocal?_eq_none (h : name ∉ first.map Prod.fst) :
  setLocal? name value first = none
  := by
  induction first with
  | nil => rfl
  | cons entry first ih =>
    obtain ⟨other, old⟩ := entry
    rw [List.map_cons, List.mem_cons, not_or] at h
    rw [setLocal?, if_neg (Ne.symm h.1), ih h.2]
    rfl

theorem setLocal?_append :
  setLocal? name value (first ++ second)
    = ((setLocal? name value first).map (· ++ second)).or ((first ++ ·) <$> setLocal? name value second)
  := by
  induction first with
  | nil => simp [setLocal?]
  | cons entry first ih =>
    obtain ⟨other, old⟩ := entry
    rw [List.cons_append, setLocal?, setLocal?]
    split
    · simp
    · rw [ih]
      cases setLocal? name value first <;> cases setLocal? name value second <;> simp

/-- An assignment does not change which locals there are. -/
theorem map_fst_setLocal? (h : setLocal? name value first = some locals) :
  locals.map Prod.fst = first.map Prod.fst
  := by
  induction first generalizing locals with
  | nil => cases h
  | cons entry first ih =>
    obtain ⟨other, old⟩ := entry
    rw [setLocal?] at h
    split at h
    · next heq =>
      cases h
      simp [heq]
    · obtain ⟨rest, hrest, rfl⟩ := Option.map_eq_some_iff.mp h
      simp [ih hrest]

end

/-! ## Pieces that do the same -/

/-- Whatever the first piece may do, the second may do in a connected state, and the states stay connected. -/
def Followed (R : EvalState V W → EvalState V W → Prop) (m m' : Eval V W α) : Prop :=
  ∀ s t out s', R s t → m s out s' → ∃ t', R s' t' ∧ m' t out t'

namespace Followed

variable {R : EvalState V W → EvalState V W → Prop} {m m' : Eval V W α}

theorem pure (a : α) :
  Followed R (pure a) (pure a)
  := by
  rintro s t _ _ hR ⟨rfl, rfl⟩
  exact ⟨t, hR, rfl, rfl⟩

theorem bind {k k' : α → Eval V W β} (hm : Followed R m m') (hk : ∀ a, Followed R (k a) (k' a)) :
  Followed R (m >>= k) (m' >>= k')
  := by
  rintro s t out s' hR (⟨a, s₁, hrun, hrest⟩ | ⟨jump, hrun, rfl⟩)
  · obtain ⟨t₁, hR₁, hrun'⟩ := hm s t _ s₁ hR hrun
    obtain ⟨t', hR', hrest'⟩ := hk a s₁ t₁ out s' hR₁ hrest
    exact ⟨t', hR', .inl ⟨a, t₁, hrun', hrest'⟩⟩
  · obtain ⟨t', hR', hrun'⟩ := hm s t _ s' hR hrun
    exact ⟨t', hR', .inr ⟨jump, hrun', rfl⟩⟩

theorem jump (j : Jump V) :
  Followed R (jump j : Eval V W α) (Eval.jump j)
  := by
  rintro s t _ _ hR ⟨rfl, rfl⟩
  exact ⟨t, hR, rfl, rfl⟩

theorem attempt (hm : Followed R m m') :
  Followed R (attempt m) (Eval.attempt m')
  := by
  rintro s t _ s' hR (⟨hrun, rfl⟩ | ⟨ended, hrun, hne, rfl⟩)
  · obtain ⟨t', hR', hrun'⟩ := hm s t _ s' hR hrun
    exact ⟨t', hR', .inl ⟨hrun', rfl⟩⟩
  · obtain ⟨t', hR', hrun'⟩ := hm s t _ s' hR hrun
    exact ⟨t', hR', .inr ⟨ended, hrun', hne, rfl⟩⟩

/-- By induction on the number of rounds. -/
theorem repeating {round round' : Eval V W Bool} (h : Followed R round round') :
  Followed R (repeating round) (Eval.repeating round')
  := by
  intro s t out s' hR hrun
  induction hrun generalizing t with
  | done hround =>
    obtain ⟨t', hR', hround'⟩ := h _ t _ _ hR hround
    exact ⟨t', hR', .done hround'⟩
  | jump hround =>
    obtain ⟨t', hR', hround'⟩ := h _ t _ _ hR hround
    exact ⟨t', hR', .jump hround'⟩
  | again hround hrest ih =>
    obtain ⟨t₁, hR₁, hround'⟩ := h _ t _ _ hR hround
    obtain ⟨t', hR', hrest'⟩ := ih t₁ hR₁
    exact ⟨t', hR', .again hround' hrest'⟩

end Followed

/-- Two pieces do the same in connected states. -/
structure Alike (R : EvalState V W → EvalState V W → Prop) (m m' : Eval V W α) : Prop where
  forth : Followed R m m'
  back : Followed (flip R) m' m

namespace Alike

variable {R : EvalState V W → EvalState V W → Prop} {m m' : Eval V W α}

theorem pure (a : α) :
  Alike R (pure a) (pure a)
  := ⟨.pure a, .pure a⟩

theorem bind {k k' : α → Eval V W β} (hm : Alike R m m') (hk : ∀ a, Alike R (k a) (k' a)) :
  Alike R (m >>= k) (m' >>= k')
  := ⟨hm.forth.bind fun a => (hk a).forth, hm.back.bind fun a => (hk a).back⟩

theorem ite {c : Prop} [Decidable c] {k k' : Eval V W α} (hm : Alike R m m') (hk : Alike R k k') :
  Alike R (if c then m else k) (if c then m' else k')
  := by
  split
  · exact hm
  · exact hk

theorem jump (j : Jump V) :
  Alike R (jump j : Eval V W α) (Eval.jump j)
  := ⟨.jump j, .jump j⟩

theorem stuck :
  Alike R (stuck : Eval V W α) Eval.stuck
  := ⟨fun _ _ _ _ _ h => h.elim, fun _ _ _ _ _ h => h.elim⟩

theorem attempt (hm : Alike R m m') :
  Alike R (attempt m) (Eval.attempt m')
  := ⟨hm.forth.attempt, hm.back.attempt⟩

theorem repeating {round round' : Eval V W Bool} (h : Alike R round round') :
  Alike R (repeating round) (Eval.repeating round')
  := ⟨h.forth.repeating, h.back.repeating⟩

theorem resume (ended : Except (Jump V) α) :
  Alike R (resume ended) (Eval.resume ended)
  := by
  cases ended with
  | ok a => exact pure a
  | error j => exact jump j

theorem ensuring {last last' : Eval V W β} (hm : Alike R m m') (hlast : Alike R last last') :
  Alike R (ensuring m last) (Eval.ensuring m' last')
  := hm.attempt.bind fun ended => hlast.bind fun _ => resume ended

theorem loopBody (hm : Alike R m m') :
  Alike R (loopBody m) (Eval.loopBody m')
  := by
  refine hm.attempt.bind fun ended => ?_
  split
  · exact pure true
  · exact pure true
  · exact pure false
  · exact jump _

end Alike

/-! ## Further locals -/

/--
States that are the same but for further locals, with a number of locals behind them. No local in front of
them has the name of one of them.
-/
inductive Inserted (extra : List (String × V)) (n : Nat) : EvalState V W → EvalState V W → Prop
  | mk {top base : List (String × V)} {world : W} (htop : ∀ name ∈ top.map Prod.fst, name ∉ extra.map Prod.fst)
    (hbase : base.length = n) : Inserted extra n ⟨top ++ base, world⟩ ⟨top ++ (extra ++ base), world⟩

theorem Inserted.front (extra : List (String × V)) (s : EvalState V W) :
  Inserted extra s.locals.length s { s with locals := extra ++ s.locals }
  := @Inserted.mk V W extra _ [] s.locals s.world (List.forall_mem_nil _) rfl

/-- As many locals are dropped with the further locals as without. -/
theorem Inserted.leave {extra : List (String × V)} {n : Nat} {s₁ t t₁ : EvalState V W} (h : Inserted extra n s t)
    (h₁ : Inserted extra n s₁ t₁) :
  Inserted extra n (s.leave s₁) (t.leave t₁)
  := by
  obtain @⟨top, base, world, htop, hbase⟩ := h
  obtain @⟨top₁, base₁, world₁, htop₁, hbase₁⟩ := h₁
  have hs : (top₁ ++ base₁).length - (top ++ base).length = top₁.length - top.length := by
    simp only [List.length_append]
    omega
  have ht : (top₁ ++ (extra ++ base₁)).length - (top ++ (extra ++ base)).length = top₁.length - top.length := by
    simp only [List.length_append]
    omega
  simp only [EvalState.leave, hs, ht, List.drop_append_of_le_length (Nat.sub_le top₁.length top.length)]
  exact .mk (fun name hname => htop₁ name (List.map_subset _ (List.drop_subset _ _) hname)) hbase₁

namespace Alike

variable {extra : List (String × V)} {n : Nat} {name : String} {m m' : Eval V W α}

theorem operation (perform : W → Option α → W → Prop) :
  Alike (Inserted extra n) (operation perform) (Eval.operation perform)
  := by
  constructor
  · rintro _ _ _ ⟨_, w'⟩ ⟨htop, hbase⟩ ⟨result, hperform, rfl, rfl⟩
    exact ⟨⟨_, w'⟩, .mk htop hbase, result, hperform, rfl, rfl⟩
  · rintro _ _ _ ⟨_, w'⟩ ⟨htop, hbase⟩ ⟨result, hperform, rfl, rfl⟩
    exact ⟨⟨_, w'⟩, .mk htop hbase, result, hperform, rfl, rfl⟩

theorem lookup_inserted {top base : List (String × V)} (hname : name ∉ extra.map Prod.fst) :
  (top ++ (extra ++ base)).lookup name = (top ++ base).lookup name
  := by
  have hextra : extra.lookup name = none := by
    rw [List.lookup_eq_none_iff]
    intro entry hentry
    exact bne_iff_ne.mpr fun (heq : name = entry.1) => hname (heq ▸ List.mem_map_of_mem hentry)
  rw [List.lookup_append, List.lookup_append, List.lookup_append, hextra, Option.none_or]

theorem local? (hname : name ∉ extra.map Prod.fst) :
  Alike (W := W) (Inserted extra n) (local? name) (Eval.local? name)
  := by
  constructor
  · rintro _ _ _ _ ⟨htop, hbase⟩ ⟨rfl, rfl⟩
    exact ⟨_, .mk htop hbase, by rw [lookup_inserted hname], rfl⟩
  · rintro _ _ _ _ ⟨htop, hbase⟩ ⟨rfl, rfl⟩
    exact ⟨_, .mk htop hbase, by rw [lookup_inserted hname], rfl⟩

theorem declare (hname : name ∉ extra.map Prod.fst) (value : V) :
  Alike (W := W) (Inserted extra n) (declare name value) (Eval.declare name value)
  := by
  have hcons : ∀ {top : List (String × V)}, (∀ name ∈ top.map Prod.fst, name ∉ extra.map Prod.fst) →
      ∀ other ∈ ((name, value) :: top).map Prod.fst, other ∉ extra.map Prod.fst := by
    intro top htop
    rw [List.map_cons]
    exact List.forall_mem_cons.mpr ⟨hname, htop⟩
  constructor
  · rintro _ _ _ _ ⟨htop, hbase⟩ ⟨rfl, rfl⟩
    exact ⟨_, .mk (hcons htop) hbase, rfl, rfl⟩
  · rintro _ _ _ _ ⟨htop, hbase⟩ ⟨rfl, rfl⟩
    exact ⟨_, .mk (hcons htop) hbase, rfl, rfl⟩

/-- The local that is assigned to stands in front of the further locals or behind them. -/
theorem setLocal?_inserted (top base : List (String × V)) (hname : name ∉ extra.map Prod.fst) (value : V) :
  (setLocal? name value (top ++ base) = none ∧ setLocal? name value (top ++ (extra ++ base)) = none)
  ∨ ∃ top' base', top'.map Prod.fst = top.map Prod.fst ∧ base'.length = base.length
    ∧ setLocal? name value (top ++ base) = some (top' ++ base')
    ∧ setLocal? name value (top ++ (extra ++ base)) = some (top' ++ (extra ++ base'))
  := by
  simp only [setLocal?_append, setLocal?_eq_none hname]
  rcases htop : setLocal? name value top with _ | top'
  · rcases hbase : setLocal? name value base with _ | base'
    · exact .inl ⟨rfl, rfl⟩
    · have hlength := congrArg List.length (map_fst_setLocal? hbase)
      rw [List.length_map, List.length_map] at hlength
      exact .inr ⟨top, base', rfl, hlength, rfl, rfl⟩
  · exact .inr ⟨top', base, map_fst_setLocal? htop, rfl, rfl, rfl⟩

theorem assign (hname : name ∉ extra.map Prod.fst) (value : V) :
  Alike (W := W) (Inserted extra n) (assign name value) (Eval.assign name value)
  := by
  constructor
  · rintro _ _ _ ⟨_, _⟩ ⟨htop, hbase⟩ ⟨rfl, hset, rfl⟩
    rcases setLocal?_inserted _ _ hname value with ⟨hs, -⟩ | ⟨top', base', htop', hbase', hs, ht⟩
    · cases hs.symm.trans hset
    · cases hs.symm.trans hset
      exact ⟨⟨_, _⟩, .mk (htop' ▸ htop) (hbase'.trans hbase), rfl, ht, rfl⟩
  · rintro _ _ _ ⟨_, _⟩ ⟨htop, hbase⟩ ⟨rfl, hset, rfl⟩
    rcases setLocal?_inserted _ _ hname value with ⟨-, ht⟩ | ⟨top', base', htop', hbase', hs, ht⟩
    · cases ht.symm.trans hset
    · cases ht.symm.trans hset
      exact ⟨⟨_, _⟩, .mk (htop' ▸ htop) (hbase'.trans hbase), rfl, hs, rfl⟩

theorem inScope (hm : Alike (Inserted extra n) m m') :
  Alike (Inserted extra n) (inScope m) (Eval.inScope m')
  := by
  constructor
  · rintro _ _ out _ hR ⟨s₁, hrun, rfl⟩
    obtain ⟨t₁, hR₁, hrun'⟩ := hm.forth _ _ out s₁ hR hrun
    exact ⟨_, hR.leave hR₁, t₁, hrun', rfl⟩
  · rintro _ _ out _ hR ⟨t₁, hrun, rfl⟩
    obtain ⟨s₁, hR₁, hrun'⟩ := hm.back _ _ out t₁ hR hrun
    exact ⟨_, Inserted.leave hR hR₁, s₁, hrun', rfl⟩

end Alike

/-! ## Scopes -/

/-- A piece may declare locals, but it drops none. -/
def Grows (m : Eval V W α) : Prop := ∀ s out s', m s out s' → s.locals.length ≤ s'.locals.length

/-- What is like itself wherever no locals are inserted leaves the locals that it has found. -/
theorem Alike.grows (h : ∀ n, Alike (Inserted [] n) m m) :
  Grows m
  := by
  intro s out s' hrun
  obtain ⟨_, @⟨top, base, world, -, hbase⟩, -⟩ := (h _).forth s s out s' (.front [] s) hrun
  rw [← hbase, List.length_append]
  exact Nat.le_add_left _ _

namespace Grows

variable {m : Eval V W α}

theorem bind {k : α → Eval V W β} (hm : Grows m) (hk : ∀ a, Grows (k a)) :
  Grows (m >>= k)
  := by
  rintro s out s' (⟨a, s₁, hrun, hrest⟩ | ⟨jump, hrun, rfl⟩)
  · exact Nat.le_trans (hm _ _ _ hrun) (hk a _ _ _ hrest)
  · exact hm _ _ _ hrun

theorem ite {c : Prop} [Decidable c] {k : Eval V W α} (hm : Grows m) (hk : Grows k) :
  Grows (if c then m else k)
  := by
  split
  · exact hm
  · exact hk

theorem inScope (hm : Grows m) :
  Grows (inScope m)
  := by
  rintro s out _ ⟨s₁, hrun, rfl⟩
  have hlength := hm _ _ _ hrun
  rw [EvalState.leave, List.length_drop]
  omega

end Grows

/-- A scope in a scope that ends with it makes no difference. -/
theorem inScope_bind {k : α → Eval V W β} (hm : Grows m) (hk : ∀ a, Grows (k a)) :
  inScope (m >>= fun a => inScope (k a)) = inScope (m >>= k)
  := by
  have hleave : ∀ {s s₁ s₂ : EvalState V W}, s.locals.length ≤ s₁.locals.length →
      s₁.locals.length ≤ s₂.locals.length → s.leave (s₁.leave s₂) = s.leave s₂ := by
    intro s s₁ s₂ h h'
    simp only [EvalState.leave, List.length_drop, List.drop_drop, EvalState.mk.injEq, and_true]
    congr 1
    omega
  refine Eval.ext fun s out s' => ⟨?_, ?_⟩
  · rintro ⟨s₂, ⟨a, s₁, hrun, s₃, hrest, rfl⟩ | ⟨jump, hrun, rfl⟩, rfl⟩
    · exact ⟨s₃, .inl ⟨a, s₁, hrun, hrest⟩, hleave (hm _ _ _ hrun) (hk a _ _ _ hrest)⟩
    · exact ⟨s₂, .inr ⟨jump, hrun, rfl⟩, rfl⟩
  · rintro ⟨s₂, ⟨a, s₁, hrun, hrest⟩ | ⟨jump, hrun, rfl⟩, rfl⟩
    · exact ⟨s₁.leave s₂, .inl ⟨a, s₁, hrun, s₂, hrest, rfl⟩, (hleave (hm _ _ _ hrun) (hk a _ _ _ hrest)).symm⟩
    · exact ⟨s₂, .inr ⟨jump, hrun, rfl⟩, rfl⟩

/--
A local that is only used where its value can be used as well need not be declared, if the scope ends with what uses
it.
-/
theorem inScope_declare {m : Eval V W V} {k : V → Eval V W α} {k' : Eval V W α} (hm : Grows m)
    (hk : ∀ value n, Alike (Inserted [(name, value)] n) (k value) k') :
  inScope (do declare name (← m); k') = inScope (m >>= k)
  := by
  have hleave : ∀ {value : V} {s s₁ s₂ t₂ : EvalState V W}, s.locals.length ≤ s₁.locals.length →
      Inserted [(name, value)] s₁.locals.length s₂ t₂ → s.leave t₂ = s.leave s₂ := by
    rintro value s s₁ _ _ h @⟨top, base, world, -, hbase⟩
    have hbehind : ∀ front : List (String × V), (front ++ base).drop ((front ++ base).length - s.locals.length)
        = base.drop (base.length - s.locals.length) := by
      intro front
      rw [List.length_append, Nat.add_sub_assoc (hbase.symm ▸ h), List.drop_append]
      simp
    rw [EvalState.leave, EvalState.leave, ← List.append_assoc, hbehind, hbehind]
  refine Eval.ext fun s out s' => ⟨?_, ?_⟩
  · rintro ⟨t₂, ⟨value, s₁, hrun, hrest⟩ | ⟨jump, hrun, rfl⟩, rfl⟩
    · rw [declare_bind_iff] at hrest
      obtain ⟨s₂, hR, hrest'⟩ := (hk value _).back _ _ out t₂ (.front [(name, value)] s₁) hrest
      exact ⟨s₂, .inl ⟨value, s₁, hrun, hrest'⟩, hleave (hm _ _ _ hrun) hR⟩
    · exact ⟨t₂, .inr ⟨jump, hrun, rfl⟩, rfl⟩
  · rintro ⟨s₂, ⟨value, s₁, hrun, hrest⟩ | ⟨jump, hrun, rfl⟩, rfl⟩
    · obtain ⟨t₂, hR, hrest'⟩ := (hk value _).forth _ _ out s₂ (.front [(name, value)] s₁) hrest
      exact ⟨t₂, .inl ⟨value, s₁, hrun, declare_bind_iff.mpr hrest'⟩, (hleave (hm _ _ _ hrun) hR).symm⟩
    · exact ⟨s₂, .inr ⟨jump, hrun, rfl⟩, rfl⟩

end Eval

end FormCompiler
