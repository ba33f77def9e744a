import FormCompiler.Proofs.Flow.Behaviour

/-!
# Programs that call each other

If functions of a program call each other, then each activation of a function has variables and slots of
its own. A call may take forever, so there is a bound on how deep calls are nested, and on how many
blocks a function runs through; a call whose answer is not known within the bound is *unfinished*.

With a larger bound, a call that is finished has the same answer (`tendsTo_calls`). So there are answers
that do not depend on bounds (`Program.caller`), and the answer to a call of a function is what its run
ends with, if calls are answered in this way (`Program.caller_eq_iff`).
-/

namespace FormCompiler.Flow

/-! ## Answers -/

/-- What is known at the end of a part of a run is known for good. -/
def IsFinished {α : Type} (x : Except Stop α) : Prop := ∀ trace, x ≠ .error (.unfinished trace)

/-- What the caller of a function gets when it stops; there is no value without a result type. -/
def Function.answer (f : Function) : Stop → Except Stop (List Event × Val)
  | .returned trace _ value => .ok (trace, if f.result.isNone then .nothing else value.getD .nothing)
  | .trapped trace => .error (.trapped trace)
  | .unfinished trace => .error (.unfinished trace)

/-- What variables and slots hold in an activation before it sets them. -/
structure Blank where
  vars : VarId → Val
  slots : SlotId → Val

/-- The start of an activation. -/
def Function.activate (f : Function) (blank : Blank) (trace : List Event) (args : List Val) : Point :=
  f.startPoint args blank.vars ⟨blank.slots, trace⟩

/-- The answer to a call of a function that may run through so many blocks. -/
def Function.call (f : Function) (W : World) (calls : Caller) (blank : Blank) (bound : Nat)
    (trace : List Event) (args : List Val) : Except Stop (List Event × Val) :=
  match steps (f.step W calls) bound (f.activate blank trace args) with
  | .ok _ => .error (.unfinished trace)
  | .error stop => f.answer stop

/-- The functions of a program call each other, up to a bound; the world answers all other calls. -/
def Program.calls (p : Program) (W : World) (blank : Blank) : Nat → Caller
  | 0, trace, callee, convention, args =>
    match p.function? callee with
    | some _ => .error (.unfinished trace)
    | none => W.caller trace callee convention args
  | bound + 1, trace, callee, convention, args =>
    match p.function? callee with
    | some f => f.call W (p.calls W blank bound) blank bound trace args
    | none => W.caller trace callee convention args

/-- Calls that are finished have the same answers in two programs. -/
def SameCalls (W : World) (blank : Blank) (p q : Program) : Prop :=
  ∀ trace callee convention args answer, IsFinished answer →
    ((∃ bound, p.calls W blank bound trace callee convention args = answer)
      ↔ ∃ bound, q.calls W blank bound trace callee convention args = answer)

theorem SameCalls.trans {W : World} {blank : Blank} {p q r : Program} (h : SameCalls W blank p q)
    (h' : SameCalls W blank q r) :
  SameCalls W blank p r
  := fun trace callee convention args answer hanswer =>
    (h trace callee convention args answer hanswer).trans (h' trace callee convention args answer hanswer)

section

variable {α β : Type}

theorem isFinished_ok (a : α) :
  IsFinished (.ok a : Except Stop α)
  := by
  intro trace h
  cases h

theorem IsFinished.of_bind {x : Except Stop α} {g : α → Except Stop β} (h : IsFinished (x >>= g)) :
  IsFinished x
  := by
  intro trace hx
  apply h trace
  rw [hx]
  rfl

theorem isFinished_error_iff {stop : Stop} :
  IsFinished (.error stop : Except Stop α) ↔ IsFinished (.error stop : Except Stop β)
  := by
  constructor <;> intro h trace hstop <;> cases hstop <;> exact h trace rfl

theorem Function.isFinished_answer {f : Function} {stop : Stop} :
  IsFinished (f.answer stop) ↔ IsFinished (.error stop : Except Stop α)
  := by
  cases stop with
  | returned trace slots value | trapped trace =>
    constructor <;> intro _ trace' h <;> cases h
  | unfinished trace => exact isFinished_error_iff

end

/-! ## Answers that are finished in the end -/

section

variable {ι α β : Type} {l : Filter ι} {W : World} {type : VarId → ValueType}
variable {cs : ι → Caller} {c : Caller}

/-- What is finished is in the end what a family of parts of runs gives. -/
def TendsTo (l : Filter ι) (xs : ι → Except Stop α) (x : Except Stop α) : Prop :=
  IsFinished x → ∀ᶠ n in l, xs n = x

/-- The answers of callers tend to those of another one. -/
def Caller.TendsTo (l : Filter ι) (cs : ι → Caller) (c : Caller) : Prop :=
  ∀ trace callee convention args,
    Flow.TendsTo l (fun n => cs n trace callee convention args) (c trace callee convention args)

/-- The finished answers of a caller are those of another one. -/
def Caller.Refines (c c' : Caller) : Prop := Caller.TendsTo (pure ()) (fun _ => c') c

theorem tendsTo_pure {x y : Except Stop α} :
  TendsTo (pure ()) (fun _ => y) x ↔ (IsFinished x → y = x)
  := by
  unfold TendsTo
  simp only [Filter.eventually_pure]

theorem tendsTo_const (x : Except Stop α) :
  TendsTo l (fun _ => x) x
  := fun _ => Filter.Eventually.of_forall fun _ => rfl

theorem TendsTo.bind {xs : ι → Except Stop α} {x : Except Stop α} {gs : ι → α → Except Stop β}
    {g : α → Except Stop β} (hx : TendsTo l xs x) (hg : ∀ a, TendsTo l (fun n => gs n a) (g a)) :
  TendsTo l (fun n => xs n >>= gs n) (x >>= g)
  := by
  intro hfinished
  have hfirst := hx hfinished.of_bind
  cases x with
  | error stop =>
    filter_upwards [hfirst] with n hn
    rw [hn]
    rfl
  | ok a =>
    filter_upwards [hfirst, hg a hfinished] with n hn hnext
    rw [hn]
    exact hnext

theorem Caller.TendsTo.run (h : TendsTo l cs c) (s : State) (i : Instr) :
  Flow.TendsTo l (fun n => i.run W (cs n) type s) (i.run W c type s)
  := by
  unfold Instr.run
  refine TendsTo.bind ?_ fun _ => tendsTo_const _
  cases i with
  | call dst callee args convention isTail =>
    intro hfinished
    have hcall := h s.store.trace callee convention (args.map s.vars)
    simp only [Instr.act] at hfinished ⊢
    cases hanswer : c s.store.trace callee convention (args.map s.vars) with
    | error stop =>
      rw [hanswer] at hfinished hcall
      filter_upwards [hcall (isFinished_error_iff.mp hfinished)] with n hn
      rw [hn]
    | ok answer =>
      rw [hanswer] at hcall
      filter_upwards [hcall (isFinished_ok answer)] with n hn
      rw [hn]
  | set | load | store | loadGlobal | loadElement | storeElement | boundsCheck | makeArray | makeTuple
  | extract | alloc | free | release | loadLanes | storeLanes | binaryLanes => exact tendsTo_const _

theorem Caller.TendsTo.runAll (h : TendsTo l cs c) (instrs : List Instr) (s : State) :
  Flow.TendsTo l (fun n => Flow.runAll W (cs n) type instrs s) (Flow.runAll W c type instrs s)
  := by
  induction instrs generalizing s with
  | nil => exact tendsTo_const _
  | cons i rest ih =>
    simp only [runAll_cons]
    apply (h.run s i).bind ih

theorem Caller.TendsTo.step (h : TendsTo l cs c) (f : Function) (p : Point) :
  Flow.TendsTo l (fun n => f.step W (cs n) p) (f.step W c p)
  := by
  unfold Function.step
  exact (h.runAll _ p.2).bind fun _ => tendsTo_const _

theorem Caller.TendsTo.steps (h : TendsTo l cs c) (f : Function) (k : Nat) (p : Point) :
  Flow.TendsTo l (fun n => Flow.steps (f.step W (cs n)) k p) (Flow.steps (f.step W c) k p)
  := by
  induction k generalizing p with
  | zero => exact tendsTo_const _
  | succ k ih => apply (h.step f p).bind ih

end

/-! ## Runs that end -/

/-- A run ends, and the caller of the function gets an answer. -/
def Function.Ends (f : Function) (W : World) (calls : Caller) (p : Point)
    (answer : Except Stop (List Event × Val)) : Prop :=
  ∃ k stop, steps (f.step W calls) k p = .error stop ∧ f.answer stop = answer

section

variable {f : Function} {W : World} {calls calls' : Caller} {blank : Blank} {p q : Point}
  {answer : Except Stop (List Event × Val)}

theorem Function.Ends.of_error {stop : Stop} (h : f.step W calls p = .error stop) :
  f.Ends W calls p (f.answer stop)
  := ⟨1, stop, by rw [steps_one, h], rfl⟩

theorem Function.Ends.of_step (hstep : f.step W calls p = .ok q) (h : f.Ends W calls q answer) :
  f.Ends W calls p answer
  := by
  obtain ⟨k, stop, hsteps, hanswer⟩ := h
  use k + 1, stop
  rw [steps, hstep]
  exact ⟨hsteps, hanswer⟩

/-- A run ends in one way. -/
theorem Function.Ends.unique {answer' : Except Stop (List Event × Val)} (h : f.Ends W calls p answer)
    (h' : f.Ends W calls p answer') :
  answer = answer'
  := by
  obtain ⟨k, stop, hsteps, rfl⟩ := h
  obtain ⟨k', stop', hsteps', rfl⟩ := h'
  have hlast := steps_error_of_le hsteps (Nat.le_max_left k k')
  rw [steps_error_of_le hsteps' (Nat.le_max_right k k')] at hlast
  cases hlast
  rfl

theorem Function.Ends.refines (hcalls : calls.Refines calls') (h : f.Ends W calls p answer)
    (hfinished : IsFinished answer) :
  f.Ends W calls' p answer
  := by
  obtain ⟨k, stop, hsteps, rfl⟩ := h
  use k, stop
  refine ⟨?_, rfl⟩
  rw [← hsteps]
  apply tendsTo_pure.mp (hcalls.steps f k p)
  rw [hsteps]
  apply Function.isFinished_answer.mp hfinished

/-- A call that is finished is a run that ends. -/
theorem Function.Ends.of_call {bound : Nat} {trace : List Event} {args : List Val}
    (h : f.call W calls blank bound trace args = answer) (hfinished : IsFinished answer) :
  f.Ends W calls (f.activate blank trace args) answer
  := by
  unfold Function.call at h
  split at h
  · next hsteps =>
    rw [← h] at hfinished
    exact absurd rfl (hfinished trace)
  · next stop hsteps => exact ⟨bound, stop, hsteps, h⟩

theorem Function.call_eq_of_steps {bound k : Nat} {trace : List Event} {args : List Val} {stop : Stop}
    (h : steps (f.step W calls) k (f.activate blank trace args) = .error stop) (hle : k ≤ bound) :
  f.call W calls blank bound trace args = f.answer stop
  := by
  unfold Function.call
  rw [steps_error_of_le h hle]

end

/-! ## Answers without bounds -/

namespace Program

variable {p q : Program} {W : World} {blank : Blank}

section

variable {p : Program} {W : World} {blank : Blank}
variable {callee : String} {f : Function} {trace : List Event} {convention : Convention} {args : List Val}
    {answer : Except Stop (List Event × Val)}

theorem calls_of_none (h : p.function? callee = none) (bound : Nat) (trace : List Event) (convention : Convention)
    (args : List Val) :
  p.calls W blank bound trace callee convention args = W.caller trace callee convention args
  := by
  cases bound with
  | zero => rw [calls, h]
  | succ bound => rw [calls, h]

theorem calls_zero (h : p.function? callee = some f) (trace : List Event) (convention : Convention) (args : List Val) :
  p.calls W blank 0 trace callee convention args = .error (.unfinished trace)
  := by
  rw [calls, h]

theorem calls_succ (h : p.function? callee = some f) (bound : Nat) (trace : List Event) (convention : Convention)
    (args : List Val) :
  p.calls W blank (bound + 1) trace callee convention args
    = f.call W (p.calls W blank bound) blank bound trace args
  := by
  rw [calls, h]

/-- A larger bound does not change an answer. -/
theorem refines_calls_succ (p : Program) (W : World) (blank : Blank) (bound : Nat) :
  (p.calls W blank bound).Refines (p.calls W blank (bound + 1))
  := by
  induction bound with
  | zero =>
    intro trace callee convention args
    apply tendsTo_pure.mpr
    intro hfinished
    cases hfunction : p.function? callee with
    | none => rw [calls_of_none hfunction, calls_of_none hfunction]
    | some f =>
      rw [calls_zero hfunction] at hfinished
      exact absurd rfl (hfinished trace)
  | succ bound ih =>
    intro trace callee convention args
    apply tendsTo_pure.mpr
    intro hfinished
    cases hfunction : p.function? callee with
    | none => rw [calls_of_none hfunction, calls_of_none hfunction]
    | some f =>
      rw [calls_succ hfunction] at hfinished ⊢
      rw [calls_succ hfunction]
      unfold Function.call at hfinished ⊢
      cases hsteps : steps (f.step W (p.calls W blank bound)) bound (f.activate blank trace args) with
      | ok q =>
        rw [hsteps] at hfinished
        exact absurd rfl (hfinished trace)
      | error stop =>
        have hmore := tendsTo_pure.mp (ih.steps (W := W) f bound (f.activate blank trace args))
        rw [hsteps] at hfinished hmore
        rw [steps_error_of_le (hmore (Function.isFinished_answer.mp hfinished)) (Nat.le_succ bound)]

theorem calls_eq_of_le {bound bound' : Nat} (hle : bound ≤ bound')
    (hfinished : IsFinished (p.calls W blank bound trace callee convention args)) :
  p.calls W blank bound' trace callee convention args = p.calls W blank bound trace callee convention args
  := by
  induction hle with
  | refl => rfl
  | step _ ih =>
    rw [← ih] at hfinished ⊢
    apply tendsTo_pure.mp (refines_calls_succ p W blank _ trace callee convention args) hfinished

open Classical in
/-- The answers to calls, whatever bounds they need. -/
noncomputable def caller (p : Program) (W : World) (blank : Blank) : Caller :=
  fun trace callee convention args =>
    if h : ∃ bound, IsFinished (p.calls W blank bound trace callee convention args) then
      p.calls W blank h.choose trace callee convention args
    else .error (.unfinished trace)

theorem refines_caller (p : Program) (W : World) (blank : Blank) (bound : Nat) :
  (p.calls W blank bound).Refines (p.caller W blank)
  := by
  intro trace callee convention args
  apply tendsTo_pure.mpr
  intro hfinished
  have hexists : ∃ bound, IsFinished (p.calls W blank bound trace callee convention args) :=
    ⟨bound, hfinished⟩
  rw [caller, dif_pos hexists]
  rcases Nat.le_total bound hexists.choose with hle | hle
  · exact calls_eq_of_le hle hfinished
  · exact (calls_eq_of_le hle hexists.choose_spec).symm

theorem caller_eq_iff_calls (hfinished : IsFinished answer) :
  p.caller W blank trace callee convention args = answer
    ↔ ∃ bound, p.calls W blank bound trace callee convention args = answer
  := by
  constructor
  · intro h
    rw [caller] at h
    split at h
    · exact ⟨_, h⟩
    · rw [← h] at hfinished
      exact absurd rfl (hfinished trace)
  · rintro ⟨bound, rfl⟩
    exact tendsTo_pure.mp (refines_caller p W blank bound trace callee convention args) hfinished

/-- The answers with larger and larger bounds tend to those without. -/
theorem tendsTo_calls (p : Program) (W : World) (blank : Blank) :
  Caller.TendsTo Filter.atTop (p.calls W blank) (p.caller W blank)
  := by
  intro trace callee convention args hfinished
  obtain ⟨bound, hbound⟩ := (caller_eq_iff_calls hfinished).mp rfl
  filter_upwards [Filter.eventually_ge_atTop bound] with n hn
  rw [← hbound] at hfinished ⊢
  exact calls_eq_of_le hn hfinished

theorem caller_of_none (h : p.function? callee = none) (trace : List Event) (convention : Convention)
    (args : List Val) (hfinished : IsFinished (W.caller trace callee convention args)) :
  p.caller W blank trace callee convention args = W.caller trace callee convention args
  := (caller_eq_iff_calls hfinished).mpr ⟨0, calls_of_none h 0 trace convention args⟩

/-- The answer to a call of a function is what its run ends with. -/
theorem caller_eq_iff (h : p.function? callee = some f) (hfinished : IsFinished answer) :
  p.caller W blank trace callee convention args = answer
    ↔ f.Ends W (p.caller W blank) (f.activate blank trace args) answer
  := by
  constructor
  · intro hanswer
    obtain ⟨bound, hbound⟩ := (caller_eq_iff_calls hfinished).mp hanswer
    cases bound with
    | zero =>
      rw [calls_zero h] at hbound
      rw [← hbound] at hfinished
      exact absurd rfl (hfinished trace)
    | succ bound =>
      rw [calls_succ h] at hbound
      exact (Function.Ends.of_call hbound hfinished).refines (refines_caller p W blank bound) hfinished
  · rintro ⟨k, stop, hsteps, rfl⟩
    have htends := (p.tendsTo_calls W blank).steps (W := W) f k (f.activate blank trace args)
    rw [hsteps] at htends
    have hlarge := htends (Function.isFinished_answer.mp hfinished)
    obtain ⟨bound, hbound, hle⟩ := (hlarge.and (Filter.eventually_ge_atTop k)).exists
    apply (caller_eq_iff_calls hfinished).mpr
    use bound + 1
    rw [calls_succ h]
    exact Function.call_eq_of_steps hbound hle

end

/-- Two programs have the same calls if each caller refines the other one. -/
theorem sameCalls_of_refines (h : ∀ bound, (p.calls W blank bound).Refines (q.caller W blank))
    (h' : ∀ bound, (q.calls W blank bound).Refines (p.caller W blank)) :
  SameCalls W blank p q
  := by
  intro trace callee convention args answer hfinished
  constructor
  · rintro ⟨bound, rfl⟩
    apply (caller_eq_iff_calls hfinished).mp
    exact tendsTo_pure.mp (h bound trace callee convention args) hfinished
  · rintro ⟨bound, rfl⟩
    apply (caller_eq_iff_calls hfinished).mp
    exact tendsTo_pure.mp (h' bound trace callee convention args) hfinished

/-! ## Functions in place of others -/

section

variable (hnames : ∀ callee, p.function? callee = none ↔ q.function? callee = none)

include hnames

/--
One more call is allowed if the runs of each function end as those of the function with its name in the
other program.
-/
theorem refines_calls_succ_of_ends {bound : Nat}
    (hends : ∀ callee f g, p.function? callee = some f → q.function? callee = some g →
      ∀ trace args answer, IsFinished answer →
        f.Ends W (p.calls W blank bound) (f.activate blank trace args) answer →
        g.Ends W (q.caller W blank) (g.activate blank trace args) answer) :
  (p.calls W blank (bound + 1)).Refines (q.caller W blank)
  := by
  intro trace callee convention args
  apply tendsTo_pure.mpr
  intro hfinished
  cases hp : p.function? callee with
  | none =>
    rw [calls_of_none hp] at hfinished ⊢
    exact caller_of_none ((hnames callee).mp hp) trace convention args hfinished
  | some f =>
    obtain ⟨g, hq⟩ : ∃ g, q.function? callee = some g := by
      apply Option.ne_none_iff_exists'.mp
      intro hq
      rw [(hnames callee).mpr hq] at hp
      cases hp
    rw [calls_succ hp] at hfinished ⊢
    apply (caller_eq_iff hq hfinished).mpr
    exact hends callee f g hp hq trace args _ hfinished (.of_call rfl hfinished)

theorem refines_calls_zero :
  (p.calls W blank 0).Refines (q.caller W blank)
  := by
  intro trace callee convention args
  apply tendsTo_pure.mpr
  intro hfinished
  cases hp : p.function? callee with
  | none =>
    rw [calls_of_none hp] at hfinished ⊢
    exact caller_of_none ((hnames callee).mp hp) trace convention args hfinished
  | some f =>
    rw [calls_zero hp] at hfinished
    exact absurd rfl (hfinished trace)

/-- Programs have the same calls if functions of the same name end alike, however calls are answered. -/
theorem sameCalls_of_ends
    (hends : ∀ callee f g, p.function? callee = some f → q.function? callee = some g →
      ∀ calls trace args answer, f.Ends W calls (f.activate blank trace args) answer
        ↔ g.Ends W calls (g.activate blank trace args) answer) :
  SameCalls W blank p q
  := by
  apply sameCalls_of_refines
  · intro bound
    induction bound with
    | zero => exact refines_calls_zero hnames
    | succ bound ih =>
      apply refines_calls_succ_of_ends hnames
      intro callee f g hp hq trace args answer hfinished h
      exact (hends callee f g hp hq _ trace args answer).mp (h.refines ih hfinished)
  · intro bound
    induction bound with
    | zero => exact refines_calls_zero fun callee => (hnames callee).symm
    | succ bound ih =>
      apply refines_calls_succ_of_ends fun callee => (hnames callee).symm
      intro callee g f hq hp trace args answer hfinished h
      exact (hends callee f g hp hq _ trace args answer).mpr (h.refines ih hfinished)

end

/-- The program with a function in place of the one with its name. -/
def replace (p : Program) (g : Function) : Program :=
  { p with functions := p.functions.map fun f => if f.name = g.name then g else f }

section

variable {p : Program} {f g : Function}

theorem function?_replace (p : Program) (g : Function) (callee : String) :
  (p.replace g).function? callee = (p.function? callee).map fun f => if f.name = g.name then g else f
  := by
  unfold function? replace
  rw [List.find?_map]
  congr 2
  funext f
  simp only [Function.comp_apply]
  split
  · next heq => rw [heq]
  · rfl

theorem name_of_function? {callee : String} (h : p.function? callee = some f) :
  f.name = callee
  := by
  simpa using List.find?_some h

theorem function?_eq_none_iff_replace (p : Program) (g : Function) (callee : String) :
  p.function? callee = none ↔ (p.replace g).function? callee = none
  := by
  rw [function?_replace, Option.map_eq_none_iff]

theorem function?_replace_self (h : p.function? g.name = some f) :
  (p.replace g).function? g.name = some g
  := by
  rw [function?_replace, h, Option.map_some, if_pos (name_of_function? h)]

theorem function?_replace_of_ne {callee : String} (hne : callee ≠ g.name) :
  (p.replace g).function? callee = p.function? callee
  := by
  rw [function?_replace]
  cases h : p.function? callee with
  | none => rfl
  | some f => rw [Option.map_some, if_neg (name_of_function? h ▸ hne)]

/-- A function may be replaced by one that ends alike, however calls are answered. -/
theorem sameCalls_replace (h : p.function? g.name = some f)
    (hends : ∀ calls trace args answer, f.Ends W calls (f.activate blank trace args) answer
      ↔ g.Ends W calls (g.activate blank trace args) answer) :
  SameCalls W blank p (p.replace g)
  := by
  apply sameCalls_of_ends (function?_eq_none_iff_replace p g)
  intro callee f' g' hp hq
  by_cases heq : callee = g.name
  · subst heq
    rw [h] at hp
    rw [function?_replace_self h] at hq
    cases hp
    cases hq
    exact hends
  · rw [function?_replace_of_ne heq, hp] at hq
    cases hq
    exact fun _ _ _ _ => Iff.rfl

/-- Replacing a function twice is replacing it by the last one. -/
theorem sameCalls_replace_replace {h : Function} (hname : h.name = g.name) (W : World) (blank : Blank) :
  SameCalls W blank ((p.replace g).replace h) (p.replace h)
  := by
  have hfunction : ∀ callee, ((p.replace g).replace h).function? callee = (p.replace h).function? callee := by
    intro callee
    rw [function?_replace, function?_replace, function?_replace]
    cases p.function? callee with
    | none => rfl
    | some f =>
      simp only [Option.map_some, hname]
      split
      · rw [if_pos rfl]
      · rfl
  apply sameCalls_of_ends
  · exact fun callee => by rw [hfunction]
  · intro callee f₁ f₂ hf₁ hf₂
    rw [hfunction, hf₂] at hf₁
    cases hf₁
    exact fun _ _ _ _ => Iff.rfl

end

end Program

end FormCompiler.Flow
