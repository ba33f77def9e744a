import FormCompiler.Proofs.Flow.Run

/-!
# Behaviour

Two runs *behave alike* if they end in the same way, or both go on forever, and if the same events
happen. The runs need not go through the same number of blocks: it is enough that they *meet* again
and again, that is, get to related points in one or more steps each (`SameRuns.of_meets`).

The slots of a function are its own: when it has returned, nobody can see what they held. So a run is
*seen* without the contents of slots at its end (`Function.visibleStep`). What a function loads from
its slots on the way can be compared as well (`Function.loads`).
-/

namespace FormCompiler.Flow

variable {σ τ : Point → Except Stop Point}

/-! ## Steps -/

section

variable {ε α : Type}

/-- So many steps. -/
def steps (σ : α → Except ε α) : Nat → α → Except ε α
  | 0, a => .ok a
  | n + 1, a => σ a >>= steps σ n

theorem steps_add (σ : α → Except ε α) (m n : Nat) (a : α) :
  steps σ (m + n) a = steps σ m a >>= steps σ n
  := by
  induction m generalizing a with
  | zero => rw [Nat.zero_add]; rfl
  | succ m ih =>
    rw [Nat.add_right_comm, steps, steps]
    cases σ a with
    | error e => rfl
    | ok b => exact ih b

theorem steps_one (σ : α → Except ε α) (a : α) :
  steps σ 1 a = σ a
  := by
  rw [steps]
  cases σ a <;> rfl

/-- A run that has ended stays so. -/
theorem steps_error_of_le {σ : α → Except ε α} {m n : Nat} {a : α} {e : ε}
    (h : steps σ m a = .error e) (hle : m ≤ n) :
  steps σ n a = .error e
  := by
  obtain ⟨k, rfl⟩ := Nat.exists_eq_add_of_le hle
  rw [steps_add, h]
  rfl

end

/-! ## Traces -/

/-- What had happened when a run ended. -/
def Stop.trace : Stop → List Event
  | returned trace _ _ | trapped trace | unfinished trace => trace

/-- What has happened after a part of a run, of which `trace` says what happened if it did not end. -/
def traceOf {α : Type} (trace : α → List Event) : Except Stop α → List Event
  | .error stop => stop.trace
  | .ok a => trace a

/-- Events are remembered by one part of a run after another. -/
theorem prefix_traceOf_bind
    {α β : Type} {x : Except Stop α} {g : α → Except Stop β} {before : List Event}
    {trace : α → List Event} {trace' : β → List Event} (hx : before <+: traceOf trace x)
    (hg : ∀ a, trace a <+: traceOf trace' (g a)) :
  before <+: traceOf trace' (x >>= g)
  := by
  cases x with
  | error stop => exact hx
  | ok a => exact hx.trans (hg a)

/-- What has happened before a block runs. -/
def pointTrace (p : Point) : List Event := p.2.store.trace

/-- Events are not forgotten in a step. -/
def KeepsTrace (σ : Point → Except Stop Point) : Prop :=
  ∀ p, pointTrace p <+: traceOf pointTrace (σ p)

theorem prefix_traceOf_steps (hσ : KeepsTrace σ) (n : Nat) (p : Point) :
  pointTrace p <+: traceOf pointTrace (steps σ n p)
  := by
  induction n generalizing p with
  | zero => exact List.prefix_rfl
  | succ n ih => exact prefix_traceOf_bind (hσ p) ih

theorem prefix_traceOf_of_le (hσ : KeepsTrace σ) {m n : Nat} (hle : m ≤ n) (p : Point) :
  traceOf pointTrace (steps σ m p) <+: traceOf pointTrace (steps σ n p)
  := by
  obtain ⟨k, rfl⟩ := Nat.exists_eq_add_of_le hle
  rw [steps_add]
  cases steps σ m p with
  | error stop => exact List.prefix_rfl
  | ok q => exact prefix_traceOf_steps hσ k q

/-! ## Runs that behave alike -/

/-- Two runs end in the same way, if they end, and the same events happen. -/
structure SameRuns (σ τ : Point → Except Stop Point) (p q : Point) : Prop where
  ends : ∀ stop, (∃ n, steps σ n p = .error stop) ↔ ∃ n, steps τ n q = .error stop
  emits : ∀ trace, (∃ n, trace <+: traceOf pointTrace (steps σ n p)) ↔ ∃ n, trace <+: traceOf pointTrace (steps τ n q)

theorem SameRuns.refl (σ : Point → Except Stop Point) (p : Point) :
  SameRuns σ σ p p
  := ⟨fun _ => Iff.rfl, fun _ => Iff.rfl⟩

theorem SameRuns.trans {υ : Point → Except Stop Point} {p q r : Point} (h : SameRuns σ τ p q) (h' : SameRuns τ υ q r) :
  SameRuns σ υ p r
  := ⟨fun stop => (h.ends stop).trans (h'.ends stop), fun trace => (h.emits trace).trans (h'.emits trace)⟩

/-! ## Parts of runs that agree -/

/-- Two parts of runs end in the same way, or go on with results that are related. -/
def Agree {α β : Type} (R : α → β → Prop) : Except Stop α → Except Stop β → Prop
  | .error stop, y => y = .error stop
  | .ok a, y => ∃ b, y = .ok b ∧ R a b

section

variable {α β γ δ : Type} {R : α → β → Prop} {S : γ → δ → Prop}
variable {x : Except Stop α} {y : Except Stop β} {type type' : VarId → ValueType} {new : Instr × Nat → List Instr}

theorem Agree.bind {g : α → Except Stop γ} {g' : β → Except Stop δ} (h : Agree R x y)
    (hg : ∀ a b, R a b → Agree S (g a) (g' b)) :
  Agree S (x >>= g) (y >>= g')
  := by
  cases x with
  | error stop =>
    rw [show y = .error stop from h]
    rfl
  | ok a =>
    obtain ⟨b, rfl, hR⟩ := h
    exact hg a b hR

theorem Agree.mono {R' : α → β → Prop} (h : Agree R x y) (hR : ∀ a b, R a b → R' a b) :
  Agree R' x y
  := by
  cases x with
  | error stop => exact h
  | ok a =>
    obtain ⟨b, rfl, hab⟩ := h
    exact ⟨b, rfl, hR a b hab⟩

theorem agree_eq {y : Except Stop α} :
  Agree (· = ·) x y ↔ x = y
  := by
  cases x with
  | error stop => exact eq_comm
  | ok a =>
    constructor
    · rintro ⟨b, rfl, rfl⟩
      rfl
    · rintro rfl
      exact ⟨a, rfl, rfl⟩

theorem Agree.symm (h : Agree R x y) :
  Agree (fun b a => R a b) y x
  := by
  cases x with
  | error stop =>
    rw [show y = .error stop from h]
    rfl
  | ok a =>
    obtain ⟨b, rfl, hab⟩ := h
    exact ⟨a, rfl, hab⟩

theorem Agree.of_ok {b : β} (h : Agree R x y) (hy : y = .ok b) :
  ∃ a, x = .ok a ∧ R a b
  := by
  have hsymm := h.symm
  rw [hy] at hsymm
  exact hsymm

/-- If the same has happened in related results, then so it has in parts of runs that agree. -/
theorem Agree.traceOf {trace : α → List Event} {trace' : β → List Event} (h : Agree R x y)
    (htrace : ∀ {a b}, R a b → trace a = trace' b) :
  Flow.traceOf trace x = Flow.traceOf trace' y
  := by
  cases x with
  | error stop =>
    rw [show y = .error stop from h]
    rfl
  | ok a =>
    obtain ⟨b, rfl, hab⟩ := h
    exact htrace hab

/-- Runs that agree in every step agree after any number of steps. -/
theorem Agree.steps {σ : α → Except Stop α} {τ : β → Except Stop β}
    (h : ∀ {a b}, R a b → Agree R (σ a) (τ b)) (n : Nat) {a : α} {b : β} (hab : R a b) :
  Agree R (Flow.steps σ n a) (Flow.steps τ n b)
  := by
  induction n generalizing a b with
  | zero => exact ⟨b, rfl, hab⟩
  | succ n ih => exact (h hab).bind fun _ _ => ih

/-- Each instruction is replaced by some that agree with it; `R j` relates states at a position. -/
theorem agree_runAll {W : World} {calls : Caller} {instrs : List Instr} {R : Nat → State → State → Prop} {k : Nat}
    (h : ∀ j i, instrs[j]? = some i → ∀ s t, R (k + j) s t →
      Agree (R (k + j + 1)) (i.run W calls type s) (runAll W calls type' (new (i, k + j)) t))
    {s t : State} (hst : R k s t) :
  Agree (R (k + instrs.length)) (runAll W calls type instrs s)
    (runAll W calls type' ((instrs.zipIdx k).flatMap new) t)
  := by
  induction instrs generalizing k s t with
  | nil => exact ⟨t, rfl, hst⟩
  | cons i rest ih =>
    rw [runAll_cons, List.zipIdx_cons, List.flatMap_cons, runAll_append]
    refine (h 0 i rfl s t hst).bind fun s' t' hst' => ?_
    have hrest := @ih (k + 1) (fun j i' hi' s t => ?_) s' t' hst'
    · rw [List.length_cons, Nat.add_comm rest.length, ← Nat.add_assoc]
      exact hrest
    · have hnext := h (j + 1) i' (by rwa [List.getElem?_cons_succ]) s t
      rwa [show k + (j + 1) = k + 1 + j by omega] at hnext

/-- The same for a whole body. -/
theorem agree_runAll_body {W : World} {calls : Caller} {instrs : List Instr} {R : Nat → State → State → Prop}
    (h : ∀ j i, instrs[j]? = some i → ∀ s t, R j s t →
      Agree (R (j + 1)) (i.run W calls type s) (runAll W calls type' (new (i, j)) t))
    {s t : State} (hst : R 0 s t) :
  Agree (R instrs.length) (runAll W calls type instrs s)
    (runAll W calls type' (instrs.zipIdx.flatMap new) t)
  := by
  rw [← Nat.zero_add instrs.length]
  refine agree_runAll (fun j i hi s t hst => ?_) hst
  rw [Nat.zero_add] at hst ⊢
  exact h j i hi s t hst

end

/-! ## Runs that meet -/

/--
From points that are related, two runs get in one or more steps to points that are related again, or
they end in the same way.
-/
structure Meets (σ τ : Point → Except Stop Point) (R : Point → Point → Prop) : Prop where
  trace : ∀ {p q}, R p q → pointTrace p = pointTrace q
  meet : ∀ {p q}, R p q → ∃ m n, Agree R (steps σ (m + 1) p) (steps τ (n + 1) q)

namespace Meets

variable {σ τ : Point → Except Stop Point} {R : Point → Point → Prop}

theorem symm (h : Meets σ τ R) :
  Meets τ σ fun q p => R p q
  where
  trace hR := (h.trace hR).symm
  meet hR := by
    obtain ⟨m, n, hagree⟩ := h.meet hR
    exact ⟨n, m, hagree.symm⟩

/-- Runs meet if they agree in every step. -/
theorem of_agree (htrace : ∀ {p q}, R p q → pointTrace p = pointTrace q)
    (h : ∀ {p q}, R p q → Agree R (σ p) (τ q)) :
  Meets σ τ R
  where
  trace := htrace
  meet hR := ⟨0, 0, by
    rw [steps_one, steps_one]
    exact h hR⟩

/-- The second run ends like the first one. -/
theorem ends_of_ends (h : Meets σ τ R) (hR : R p q) {k : Nat} {stop : Stop} (hstop : steps σ k p = .error stop) :
  ∃ n, steps τ n q = .error stop
  := by
  induction k using Nat.strong_induction_on generalizing p q with
  | _ k ih =>
    obtain ⟨m, n, hagree⟩ := h.meet hR
    cases hp : steps σ (m + 1) p with
    | error stop' =>
      -- The first run can have ended in one way only.
      rw [hp] at hagree
      have hfirst := steps_error_of_le hp (Nat.le_max_left (m + 1) k)
      rw [steps_error_of_le hstop (Nat.le_max_right (m + 1) k)] at hfirst
      cases hfirst
      exact ⟨n + 1, hagree⟩
    | ok p' =>
      rw [hp] at hagree
      obtain ⟨q', hq', hR'⟩ := hagree
      have hle : m + 1 ≤ k := by
        by_contra hnot
        have hend := steps_error_of_le hstop (Nat.le_of_lt (Nat.lt_of_not_le hnot))
        rw [hp] at hend
        cases hend
      obtain ⟨r, rfl⟩ := Nat.exists_eq_add_of_le hle
      rw [steps_add, hp] at hstop
      obtain ⟨n', hn'⟩ := ih r (by omega) hR' hstop
      use n + 1 + n'
      rw [steps_add, hq']
      exact hn'

/-- What has happened in the first run happens in the second one. -/
theorem emits_of_emits (h : Meets σ τ R) (hσ : KeepsTrace σ) (hR : R p q) (k : Nat) :
  ∃ n, traceOf pointTrace (steps σ k p) <+: traceOf pointTrace (steps τ n q)
  := by
  induction k using Nat.strong_induction_on generalizing p q with
  | _ k ih =>
    obtain ⟨m, n, hagree⟩ := h.meet hR
    by_cases hle : m + 1 ≤ k
    · obtain ⟨r, rfl⟩ := Nat.exists_eq_add_of_le hle
      rw [steps_add]
      cases hp : steps σ (m + 1) p with
      | error stop =>
        rw [hp] at hagree
        use n + 1
        rw [show steps τ (n + 1) q = .error stop from hagree]
        exact List.prefix_rfl
      | ok p' =>
        rw [hp] at hagree
        obtain ⟨q', hq', hR'⟩ := hagree
        obtain ⟨n', hn'⟩ := ih r (by omega) hR'
        use n + 1 + n'
        rw [steps_add, hq']
        exact hn'
    · -- The runs meet later on, and then all has happened that has happened by now.
      use n + 1
      have hlater := prefix_traceOf_of_le hσ (Nat.le_of_lt (Nat.lt_of_not_le hle)) p
      rwa [hagree.traceOf h.trace] at hlater

end Meets

/-- Runs that meet again and again behave alike. -/
theorem SameRuns.of_meets {R : Point → Point → Prop} (h : Meets σ τ R) (hσ : KeepsTrace σ) (hτ : KeepsTrace τ)
    {p q : Point} (hR : R p q) :
  SameRuns σ τ p q
  := by
  constructor
  · intro stop
    constructor
    · rintro ⟨k, hk⟩
      exact h.ends_of_ends hR hk
    · rintro ⟨k, hk⟩
      exact h.symm.ends_of_ends hR hk
  · intro trace
    constructor
    · rintro ⟨k, hk⟩
      obtain ⟨n, hn⟩ := h.emits_of_emits hσ hR k
      exact ⟨n, hk.trans hn⟩
    · rintro ⟨k, hk⟩
      obtain ⟨n, hn⟩ := h.symm.emits_of_emits hτ hR k
      exact ⟨n, hk.trans hn⟩

/-! ## Functions -/

/-- A caller remembers what had happened before a call. -/
def Caller.Remembers (calls : Caller) : Prop :=
  ∀ trace callee convention args, trace <+: traceOf (·.1) (calls trace callee convention args)

theorem World.remembers_caller (W : World) :
  W.caller.Remembers
  := by
  intro trace callee convention args
  unfold World.caller
  simp only
  cases W.reply (trace ++ [.call callee convention args]) with
  | none | some v => exact List.prefix_append _ _

section

variable {W : World} {calls : Caller} {type : VarId → ValueType}

theorem Instr.prefix_trace_act (hcalls : calls.Remembers) (vars : VarId → Val) (s : Store) (i : Instr) :
  s.trace <+: traceOf (·.2.trace) (i.act W calls type vars s)
  := by
  cases i with
  | set dst value =>
    simp only [Instr.act]
    cases value.eval W (type dst) vars <;> exact List.prefix_rfl
  | call dst callee args convention isTail =>
    have hcall := hcalls s.trace callee convention (args.map vars)
    simp only [Instr.act]
    cases hresult : calls s.trace callee convention (args.map vars) with
    | error stop | ok result =>
      rw [hresult] at hcall
      exact hcall
  | boundsCheck index length =>
    simp only [Instr.act]
    cases (vars index).isBelow length <;> exact List.prefix_rfl
  | binaryLanes dst op lhs rhs =>
    simp only [Instr.act]
    cases op.mayTrap && (vars rhs).lanes.any Val.isZero <;> exact List.prefix_rfl
  | alloc | free | release => exact List.prefix_append _ _
  | load | store | loadGlobal | loadElement | storeElement | makeArray | makeTuple | extract
  | loadLanes | storeLanes => exact List.prefix_rfl

theorem Instr.prefix_trace (hcalls : calls.Remembers) (s : State) (i : Instr) :
  s.store.trace <+: traceOf (·.store.trace) (i.run W calls type s)
  := by
  exact prefix_traceOf_bind (i.prefix_trace_act hcalls s.vars s.store) fun _ => List.prefix_rfl

theorem prefix_trace_runAll (hcalls : calls.Remembers) (instrs : List Instr) (s : State) :
  s.store.trace <+: traceOf (·.store.trace) (runAll W calls type instrs s)
  := by
  induction instrs generalizing s with
  | nil => exact List.prefix_rfl
  | cons i rest ih =>
    rw [runAll_cons]
    exact prefix_traceOf_bind (i.prefix_trace hcalls s) ih

theorem Function.keepsTrace (f : Function) (W : World) (hcalls : calls.Remembers) :
  KeepsTrace (f.step W calls)
  := by
  intro p
  refine prefix_traceOf_bind (prefix_trace_runAll hcalls _ p.2) fun s => ?_
  cases (f.block p.1).terminator with
  | ret | jump | branch | unreachable => exact List.prefix_rfl

end

/-- Two functions behave alike, in a world that answers all calls and whatever they start with. -/
def SameBehaviour (W : World) (f g : Function) : Prop :=
  ∀ args vars store, SameRuns (f.step W W.caller) (g.step W W.caller) (f.startPoint args vars store)
    (g.startPoint args vars store)

theorem SameBehaviour.refl (W : World) (f : Function) :
  SameBehaviour W f f
  := fun _ _ _ => SameRuns.refl _ _

theorem SameBehaviour.trans {W : World} {f g h : Function} (hfg : SameBehaviour W f g)
    (hgh : SameBehaviour W g h) :
  SameBehaviour W f h
  := fun args vars store => (hfg args vars store).trans (hgh args vars store)

/-! ## Ends of runs -/

/-- How a run ended, without what slots held then. -/
def Stop.withoutSlots : Stop → Stop
  | returned trace _ value => returned trace (fun _ => .nothing) value
  | trapped trace => trapped trace
  | unfinished trace => unfinished trace

@[simp]
theorem Stop.trace_withoutSlots (stop : Stop) :
  stop.withoutSlots.trace = stop.trace
  := by
  cases stop <;> rfl

/-- A step of a run, without what slots hold at the end. -/
def Function.visibleStep (f : Function) (W : World) (calls : Caller) (p : Point) : Except Stop Point :=
  (f.step W calls p).mapError Stop.withoutSlots

theorem Function.keepsTrace_visibleStep (f : Function) (W : World) {calls : Caller}
    (hcalls : calls.Remembers) :
  KeepsTrace (f.visibleStep W calls)
  := by
  intro p
  have hkeeps := f.keepsTrace W hcalls p
  unfold Function.visibleStep
  cases hstep : f.step W calls p with
  | error stop =>
    rw [hstep] at hkeeps
    simpa [Except.mapError, traceOf] using hkeeps
  | ok q =>
    rw [hstep] at hkeeps
    exact hkeeps

/--
Two functions are seen to behave alike, in a world that answers all calls and whatever they start with.
-/
def SameVisibly (W : World) (f g : Function) : Prop :=
  ∀ args vars store, SameRuns (f.visibleStep W W.caller) (g.visibleStep W W.caller)
    (f.startPoint args vars store) (g.startPoint args vars store)

/-! ## Loads -/

/-- Whether an instruction loads from a slot. -/
def Instr.isLoad : Instr → Bool
  | load .. | loadElement .. | loadLanes .. => true
  | _ => false

/-- The values that instructions load from slots when they run, up to where the run stops. -/
def loadedBy (W : World) (calls : Caller) (type : VarId → ValueType) : List Instr → State → List Val
  | [], _ => []
  | i :: rest, s =>
    match i.act W calls type s.vars s.store with
    | .error _ => []
    | .ok (x, after) =>
      (if i.isLoad then [x] else []) ++ loadedBy W calls type rest ⟨setVar s.vars i.def? x, after⟩

/-- The values that a function loads from slots while it runs through so many blocks. -/
def Function.loads (f : Function) (W : World) (calls : Caller) : Nat → Point → List Val
  | 0, _ => []
  | n + 1, p =>
    loadedBy W calls f.varType (f.block p.1).instrs p.2
      ++ match f.step W calls p with
        | .error _ => []
        | .ok q => loads f W calls n q

end FormCompiler.Flow
