import FormCompiler.Proofs.Flow.Calls
import FormCompiler.Proofs.Flow.Compact
import FormCompiler.Proofs.Optimize.Looped

/-!
# Tail calls

A function that calls itself and returns the answer may as well start anew: the answer of the call is the
answer of the function. Variables and slots then hold what they held before, but if all slots that are
loaded have been stored to since the entry, this makes no difference (`SameAt`).

One call is turned into a jump at a time. That callers then get the same answers is shown in both
directions. A call at some depth becomes a jump back to the entry (`ReturnsCall.ends_looped`), and if the
function ends after having jumped back, then it would also have ended at a greater depth
(`ReturnsCall.ends_of_looped`).
-/

namespace FormCompiler.Flow

variable {f : Function} {P : Program}

namespace TailCall

namespace ReturnsCall

variable {f : Function} {id : BlockId} {before : List Line} {dst : Option VarId} {args : List VarId}
  {W : World} {blank : Blank} {calls calls' : Caller} {p q : Point} {s t : State}
variable {stop : Stop}

/-! ## Single blocks -/

theorem step_of_ne (h : ReturnsCall f id before dst args) (hne : p.1 ≠ id) :
  (looped f id args).step W calls p = f.step W calls p
  := by
  unfold Function.step
  rw [h.block_of_ne hne]
  congr 1
  funext s
  cases (f.block p.1).terminator with
  | jump target args' => simp only [Terminator.run, h.params]
  | ret | branch | unreachable => rfl

/-- The start of the function anew, after a jump. -/
def restart (f : Function) (args : List VarId) (s : State) : Point :=
  (f.entry, ⟨passArgs (f.block f.entry).params args s.vars, s.store⟩)

variable (h : ReturnsCall f id before dst args)

include h

theorem step_self (s : State) :
  (looped f id args).step W calls (id, s)
    = (runAll W calls f.varType (before.map (·.instr)) s).map (restart f args)
  := by
  unfold Function.step
  simp only [h.instrs_self]
  rw [h.block_self, show (looped f id args).varType = f.varType from rfl]
  cases runAll W calls f.varType (before.map (·.instr)) s with
  | error stop => rfl
  | ok s' =>
    change Except.ok _ = Except.ok _
    simp only [h.params, restart]

/-- The answer of the call is the answer of the function. -/
theorem ends_of_answer (hbefore : runAll W calls f.varType (before.map (·.instr)) s = .ok t)
    (hcall : calls t.store.trace f.name .native (args.map t.vars) = f.answer stop) :
  f.Ends W calls (id, s) (f.answer stop)
  := by
  have hstep : f.step W calls (id, s)
      = (Instr.call dst f.name args .native true).run W calls f.varType t
        >>= (f.block id).terminator.run f := by
    unfold Function.step
    simp only [h.instrs]
    rw [runAll_append, hbefore]
    change runAll W calls f.varType _ t >>= _ = _
    rw [runAll_singleton]
  cases hanswer : f.answer stop with
  | error stop' =>
    have herror : f.step W calls (id, s) = .error stop' := by
      simp only [hstep, Instr.run, Instr.act, hcall, hanswer]
      rfl
    have hsame : f.answer stop' = .error stop' := by
      cases stop with
      | returned => cases hanswer
      | trapped | unfinished =>
        cases hanswer
        rfl
    exact hsame ▸ .of_error herror
  | ok answer =>
    obtain ⟨trace, x⟩ := answer
    have hafter : f.step W calls (id, s)
        = (f.block id).terminator.run f ⟨setVar t.vars dst x, { t.store with trace := trace }⟩ := by
      simp only [hstep, Instr.run, Instr.act, hcall, hanswer]
      rfl
    obtain ⟨k, hk⟩ := run_of_returnsDirectly h.ssa h.direct W calls
      ⟨setVar t.vars dst x, { t.store with trace := trace }⟩
    use k + 1, .returned trace t.store.slots (dst.map (setVar t.vars dst x))
    constructor
    · rw [steps, hafter]
      exact hk
    · cases stop with
      | trapped | unfinished => cases hanswer
      | returned trace' slots value =>
        cases hanswer
        have hresult := h.result
        cases dst with
        | none => simp [Function.answer, ← hresult]
        | some v =>
          have hnone : f.result.isNone = false := by simpa using hresult.symm
          simp [Function.answer, hnone, setVar]

/-- The instructions in front of the call do the same in both states. -/
theorem agree_before (hstored : f.LoadsStored) (hst : SameAt f (id, s) (id, t)) (W : World) (calls : Caller) :
  Agree (SameSince f id before.length) (runAll W calls f.varType (before.map (·.instr)) s)
    (runAll W calls f.varType (before.map (·.instr)) t)
  := by
  obtain ⟨hreached, -, hsame⟩ := hst
  have hle : before.length ≤ (f.block id).instrs.length := by
    rw [h.instrs, List.length_append, List.length_map]
    exact Nat.le_add_right _ _
  have hrun := hsame.runAll W calls h.ssa hstored hreached hle
  rwa [h.instrs, List.take_left' (List.length_map _)] at hrun

/-- A new activation has the same arguments as the function after a jump. -/
theorem sameAt_restart (hreached : id ∈ f.reversePostorder) (hst : SameSince f id before.length s t) (blank : Blank) :
  SameAt f (f.activate blank s.store.trace (args.map s.vars)) (restart f args t)
  := by
  obtain ⟨hlt, hlength, -⟩ := Verify.jump_eq_ok.mp h.jump
  obtain ⟨entry, hentry, hparams⟩ := h.ssa.entry
  have hblock : f.block f.entry = entry := by simp [Function.block, hentry]
  have hcall : (f.block id).instrs[before.length]? = some (.call dst f.name args .native true) := by
    rw [h.instrs, List.getElem?_append_right (by simp)]
    simp
  refine sameAt_entry rfl rfl hst.trace fun v hv => ?_
  obtain ⟨k, hk⟩ := List.getElem?_of_mem hv
  have hklt : k < args.length := hlength ▸ (List.getElem?_eq_some_iff.mp hk).1
  have harg : args[k]? = some args[k] := List.getElem?_eq_getElem hklt
  have hnodup : (f.block f.entry).params.Nodup := hblock ▸ h.ssa.nodup hentry
  have hold : (f.params.zip (args.map s.vars)).lookup v = some (s.vars args[k]) := by
    rw [← hparams, ← hblock]
    exact lookup_zip_of_getElem? hnodup hk (by rw [List.getElem?_map, harg]; rfl)
  have hnew := lookup_zip_of_getElem? hnodup hk harg
  simp only [Function.activate, Function.startPoint, hold, Option.getD_some, restart, passArgs, hnew]
  apply hst.vars
  apply h.ssa.isDefinedAt_of_mem_uses hreached (h.ssa.getElem?_block hreached) hcall
  exact List.getElem_mem hklt

variable (hstored : f.LoadsStored)

include hstored

/-- Another block is left in the same way, or it stops in the same way. -/
theorem step_cases (hpq : SameAt f p q) (W : World) (calls : Caller) :
  (∃ stop stop', f.step W calls p = .error stop ∧ f.step W calls q = .error stop'
      ∧ f.answer stop = f.answer stop')
    ∨ ∃ p' q', f.step W calls p = .ok p' ∧ f.step W calls q = .ok q' ∧ SameAt f p' q'
  := by
  have hagree := hpq.visibleStep h.ssa hstored W calls
  have hanswer : ∀ stop : Stop, f.answer stop.withoutSlots = f.answer stop := fun stop => by
    cases stop <;> rfl
  unfold Function.visibleStep at hagree
  cases hp : f.step W calls p with
  | error stop =>
    rw [hp] at hagree
    cases hq : f.step W calls q with
    | error stop' =>
      rw [hq] at hagree
      have heq : Except.error stop'.withoutSlots = (Except.error stop.withoutSlots : Except Stop Point) :=
        hagree
      left
      use stop, stop', rfl, rfl
      rw [← hanswer stop, ← hanswer stop', Except.error.inj heq]
    | ok q' =>
      rw [hq] at hagree
      have heq : (Except.ok q' : Except Stop Point) = .error stop.withoutSlots := hagree
      cases heq
  | ok p' =>
    rw [hp] at hagree
    obtain ⟨q', hq', hpq'⟩ := hagree
    cases hq : f.step W calls q with
    | error stop' =>
      rw [hq] at hq'
      cases hq'
    | ok q'' =>
      rw [hq] at hq'
      cases hq'
      exact .inr ⟨p', q', rfl, rfl, hpq'⟩

/-! ## Answers -/

/--
What a call ends with in a program, up to a bound, the function that jumps back ends with. At the call, the
induction goes on with the callee and a smaller bound.
-/
theorem ends_looped (hP : P.function? f.name = some f) {bound : Nat}
    (hrefines : (P.calls W blank bound).Refines calls')
    (hsmaller : ∀ smaller, bound = smaller + 1 → ∀ k p q stop, SameAt f p q →
      steps (f.step W (P.calls W blank smaller)) k p = .error stop → IsFinished (f.answer stop) →
      (looped f id args).Ends W calls' q (f.answer stop))
    {k : Nat} (hpq : SameAt f p q) (hsteps : steps (f.step W (P.calls W blank bound)) k p = .error stop)
    (hfinished : IsFinished (f.answer stop)) :
  (looped f id args).Ends W calls' q (f.answer stop)
  := by
  induction k generalizing p q with
  | zero => cases hsteps
  | succ k ih =>
    have hstepfinished : IsFinished (f.step W (P.calls W blank bound) p) := by
      apply IsFinished.of_bind
      rw [steps] at hsteps
      rw [hsteps]
      exact Function.isFinished_answer.mp hfinished
    have hends : f.Ends W (P.calls W blank bound) p (f.answer stop) := ⟨k + 1, stop, hsteps, rfl⟩
    have hsame := tendsTo_pure.mp (hrefines.step (W := W) f p) hstepfinished
    obtain ⟨b, s⟩ := p
    obtain ⟨b', t⟩ := q
    obtain rfl : b = b' := hpq.2.1
    by_cases hb : b = id
    · subst hb
      have hagree := h.agree_before hstored hpq W calls'
      have hbefore : Flow.TendsTo (pure ()) (fun _ => runAll W calls' f.varType (before.map (·.instr)) s)
          (runAll W (P.calls W blank bound) f.varType (before.map (·.instr)) s) := hrefines.runAll _ s
      have hunfold : f.step W (P.calls W blank bound) (b, s)
          = runAll W (P.calls W blank bound) f.varType (before.map (·.instr)) s
            >>= fun s' => (Instr.call dst f.name args .native true).run W (P.calls W blank bound) f.varType s'
            >>= (f.block b).terminator.run f := by
        unfold Function.step
        simp only [h.instrs, runAll_append, bind_assoc, runAll_singleton]
      cases hs : runAll W (P.calls W blank bound) f.varType (before.map (·.instr)) s with
      | error stop' =>
        rw [hunfold, hs] at hstepfinished
        rw [hs] at hbefore
        rw [tendsTo_pure.mp hbefore hstepfinished.of_bind] at hagree
        have hnew : (looped f b args).step W calls' (b, t) = .error stop' := by
          rw [h.step_self, show runAll W calls' f.varType (before.map (·.instr)) t = .error stop' from hagree]
          rfl
        have hold : f.step W (P.calls W blank bound) (b, s) = .error stop' := by
          rw [hunfold, hs]
          rfl
        rw [hends.unique (.of_error hold)]
        exact .of_error hnew
      | ok s' =>
        rw [hs] at hbefore
        rw [tendsTo_pure.mp hbefore (isFinished_ok s')] at hagree
        obtain ⟨t', ht', hst⟩ := hagree
        have hnew : (looped f b args).step W calls' (b, t) = .ok (restart f args t') := by
          rw [h.step_self, ht']
          rfl
        have hcallfinished : IsFinished (P.calls W blank bound s'.store.trace f.name .native
            (args.map s'.vars)) := by
          intro trace hcall
          apply hstepfinished trace
          rw [hunfold, hs]
          change (Instr.call dst f.name args .native true).run W _ f.varType s' >>= _ = _
          simp only [Instr.run, Instr.act, hcall]
          rfl
        cases bound with
        | zero =>
          rw [Program.calls_zero hP] at hcallfinished
          exact absurd rfl (hcallfinished _)
        | succ smaller =>
          rw [Program.calls_succ hP] at hcallfinished
          obtain ⟨k', stop', hcallee, hanswer⟩ := Function.Ends.of_call rfl hcallfinished
          have hcall : P.calls W blank (smaller + 1) s'.store.trace f.name .native (args.map s'.vars)
              = f.answer stop' := by
            rw [Program.calls_succ hP, hanswer]
          rw [hends.unique (h.ends_of_answer hs hcall)]
          apply Function.Ends.of_step hnew
          apply hsmaller smaller rfl k' _ _ stop' (h.sameAt_restart hpq.1 hst blank) hcallee
          rw [hanswer]
          exact hcallfinished
    · rw [← hsame] at hstepfinished
      rcases h.step_cases hstored hpq W calls' with
        ⟨stop₁, stop₂, hleft, hright, hanswer⟩ | ⟨p', q', hleft, hright, hnext⟩
      · rw [hleft] at hsame
        rw [hends.unique (.of_error hsame.symm), hanswer]
        rw [← h.step_of_ne (p := (b, t)) hb] at hright
        exact .of_error hright
      · rw [hleft] at hsame
        rw [← h.step_of_ne (p := (b, t)) hb] at hright
        apply Function.Ends.of_step hright
        apply ih hnext
        rw [steps, ← hsame] at hsteps
        exact hsteps

/--
What the function that jumps back ends with in a program, the old function ends with. After a jump, the
induction goes on with a new activation of the old function.
-/
theorem ends_of_looped (hP : P.function? f.name = some f) (hrefines : calls.Refines (P.caller W blank)) {k : Nat}
    (hpq : SameAt f p q) (hsteps : steps ((looped f id args).step W calls) k q = .error stop)
    (hfinished : IsFinished (f.answer stop)) :
  f.Ends W (P.caller W blank) p (f.answer stop)
  := by
  induction k generalizing p q with
  | zero => cases hsteps
  | succ k ih =>
    have hends : (looped f id args).Ends W calls q (f.answer stop) := ⟨k + 1, stop, hsteps, rfl⟩
    have hstepfinished : IsFinished ((looped f id args).step W calls q) := by
      apply IsFinished.of_bind
      rw [steps] at hsteps
      rw [hsteps]
      exact Function.isFinished_answer.mp hfinished
    obtain ⟨b, s⟩ := p
    obtain ⟨b', t⟩ := q
    obtain rfl : b = b' := hpq.2.1
    by_cases hb : b = id
    · subst hb
      have hagree := h.agree_before hstored hpq.symm W (P.caller W blank)
      have hbefore : Flow.TendsTo (pure ())
          (fun _ => runAll W (P.caller W blank) f.varType (before.map (·.instr)) t)
          (runAll W calls f.varType (before.map (·.instr)) t) := hrefines.runAll _ t
      cases ht : runAll W calls f.varType (before.map (·.instr)) t with
      | error stop' =>
        have hnew : (looped f b args).step W calls (b, t) = .error stop' := by
          rw [h.step_self, ht]
          rfl
        rw [hnew] at hstepfinished
        rw [ht] at hbefore
        rw [tendsTo_pure.mp hbefore (isFinished_error_iff.mp hstepfinished)] at hagree
        have hold : f.step W (P.caller W blank) (b, s) = .error stop' := by
          unfold Function.step
          simp only [h.instrs, runAll_append]
          rw [show runAll W (P.caller W blank) f.varType (before.map (·.instr)) s = .error stop' from hagree]
          rfl
        rw [hends.unique (.of_error hnew)]
        exact .of_error hold
      | ok t' =>
        rw [ht] at hbefore
        rw [tendsTo_pure.mp hbefore (isFinished_ok t')] at hagree
        obtain ⟨s', hs', hst⟩ := hagree
        have hnew : (looped f b args).step W calls (b, t) = .ok (restart f args t') := by
          rw [h.step_self, ht]
          rfl
        rw [steps, hnew] at hsteps
        have hcallee := ih (h.sameAt_restart hpq.1 hst.symm blank) hsteps
        apply h.ends_of_answer hs'
        exact (Program.caller_eq_iff hP hfinished).mpr hcallee
    · rw [h.step_of_ne (p := (b, t)) hb] at hstepfinished
      have hsame := (tendsTo_pure.mp (hrefines.step f (b, t)) hstepfinished).trans (h.step_of_ne hb).symm
      rcases h.step_cases hstored hpq W (P.caller W blank) with
        ⟨stop₁, stop₂, hleft, hright, hanswer⟩ | ⟨p', q', hleft, hright, hnext⟩
      · rw [hright] at hsame
        rw [hends.unique (.of_error hsame.symm), show (looped f id args).answer stop₂ = f.answer stop₂ from rfl,
          ← hanswer]
        exact .of_error hleft
      · rw [hright] at hsame
        apply Function.Ends.of_step hleft
        apply ih hnext
        rw [steps, ← hsame] at hsteps
        exact hsteps

/-- Callers get the same answers if a call is turned into a jump. -/
theorem sameCalls (hP : P.function? f.name = some f) (W : World) (blank : Blank) :
  SameCalls W blank P (P.replace (looped f id args))
  := by
  have hnames := P.function?_eq_none_iff_replace (looped f id args)
  have hstart : ∀ trace args', SameAt f (f.activate blank trace args') (f.activate blank trace args') :=
    fun trace args' => .refl (Function.IsSsa.mem_reversePostorder_entry f)
  have hself : (P.replace (looped f id args)).function? f.name = some (looped f id args) :=
    Program.function?_replace_self hP
  have hother : ∀ callee, callee ≠ f.name →
      (P.replace (looped f id args)).function? callee = P.function? callee :=
    fun callee hne => Program.function?_replace_of_ne hne
  apply Program.sameCalls_of_refines
  · suffices hboth : ∀ bound,
        (P.calls W blank bound).Refines ((P.replace (looped f id args)).caller W blank)
        ∧ ∀ k p q stop, SameAt f p q → steps (f.step W (P.calls W blank bound)) k p = .error stop →
          IsFinished (f.answer stop) → (looped f id args).Ends W
            ((P.replace (looped f id args)).caller W blank) q (f.answer stop) by
      exact fun bound => (hboth bound).1
    intro bound
    induction bound with
    | zero =>
      have hrefines : (P.calls W blank 0).Refines ((P.replace (looped f id args)).caller W blank) :=
        Program.refines_calls_zero hnames
      refine ⟨hrefines, fun k p q stop hpq hsteps hfinished => ?_⟩
      exact h.ends_looped hstored hP hrefines (by simp) hpq hsteps hfinished
    | succ bound ih =>
      have hrefines : (P.calls W blank (bound + 1)).Refines
          ((P.replace (looped f id args)).caller W blank) := by
        apply Program.refines_calls_succ_of_ends hnames
        intro callee f' g hp hq trace args' answer hfinished hends
        by_cases heq : callee = f.name
        · subst heq
          rw [hP] at hp
          rw [hself] at hq
          cases hp
          cases hq
          obtain ⟨k, stop, hsteps, rfl⟩ := hends
          exact ih.2 k _ _ stop (hstart trace args') hsteps hfinished
        · rw [hother callee heq, hp] at hq
          cases hq
          exact hends.refines ih.1 hfinished
      refine ⟨hrefines, fun k p q stop hpq hsteps hfinished => ?_⟩
      apply h.ends_looped hstored hP hrefines _ hpq hsteps hfinished
      rintro smaller heq
      cases heq
      exact ih.2
  · intro bound
    induction bound with
    | zero => exact Program.refines_calls_zero fun callee => (hnames callee).symm
    | succ bound ih =>
      apply Program.refines_calls_succ_of_ends fun callee => (hnames callee).symm
      intro callee g f' hq hp trace args' answer hfinished hends
      by_cases heq : callee = f.name
      · subst heq
        rw [hP] at hp
        rw [hself] at hq
        cases hp
        cases hq
        obtain ⟨k, stop, hsteps, rfl⟩ := hends
        exact h.ends_of_looped hstored hP ih (hstart trace args') hsteps hfinished
      · rw [hother callee heq, hp] at hq
        cases hq
        exact hends.refines ih hfinished

end ReturnsCall

/-! ## All calls -/

/-- The calls of a function to itself pass what it takes, and take what it returns. -/
def CallsItself (f : Function) : Prop :=
  ∀ id dst args isTail, .call dst f.name args .native isTail ∈ (f.block id).instrs →
    Verify.terminator f (.jump f.entry args) = .ok () ∧ dst.isNone = f.result.isNone

variable {f : Function} {isReadOnce : VarId → Bool}

theorem exists_returnsCall (hf : f.verify = .ok ()) (hcalls : CallsItself f)
    (honce : ∀ v, isReadOnce v = true → f.useCount v ≤ 1) {id : BlockId} (hid : id < f.blocks.length)
    {args : List VarId} (h : returnedCall? f isReadOnce (f.block id) = some args) :
  ∃ before dst, ReturnsCall f id before dst args
  := by
  unfold returnedCall? at h
  split at h
  · next dst callee args' position hlast =>
    split at h
    · next hcond =>
      cases h
      obtain ⟨rfl, hread, hdirect⟩ := hcond
      have hbody := List.dropLast_append_getLast? _ hlast
      have hmem : Instr.call dst f.name args .native true ∈ (f.block id).instrs := by
        rw [Block.instrs, ← hbody]
        simp
      obtain ⟨hjump, hresult⟩ := hcalls id dst args true hmem
      use (f.block id).body.dropLast, dst
      refine ⟨hf, hid, ⟨position, hbody.symm⟩, hdirect, ?_, hjump, hresult⟩
      rintro v rfl
      exact honce v (by simpa using hread)
    · cases h
  · cases h

theorem ReturnsCall.callsItself {id : BlockId} {before : List Line} {dst : Option VarId}
    {args : List VarId} (h : ReturnsCall f id before dst args) (hcalls : CallsItself f) :
  CallsItself (looped f id args)
  := by
  intro d dst' args' isTail hmem
  obtain ⟨hjump, hresult⟩ := hcalls d dst' args' isTail (h.instrs_subset hmem)
  exact ⟨h.terminator hjump, hresult⟩

/-- One call after the other is turned into a jump. -/
theorem sameCalls_rewriteBlocks {ids : List BlockId} (hids : ∀ id ∈ ids, id < f.blocks.length)
    (hf : f.verify = .ok ()) (hstored : f.LoadsStored) (hcalls : CallsItself f)
    (honce : ∀ v, isReadOnce v = true → f.useCount v ≤ 1) :
  (rewriteBlocks isReadOnce ids f).2.verify = .ok () ∧ (rewriteBlocks isReadOnce ids f).2.name = f.name
    ∧ ∀ (P : Program) W blank, P.function? f.name = some f →
      SameCalls W blank P (P.replace (rewriteBlocks isReadOnce ids f).2)
  := by
  induction ids generalizing f with
  | nil =>
    refine ⟨hf, rfl, fun P W blank hP => ?_⟩
    exact Program.sameCalls_replace hP fun _ _ _ _ => Iff.rfl
  | cons id rest ih =>
    have hrest : ∀ d ∈ rest, d < f.blocks.length := fun d hd => hids d (List.mem_cons_of_mem id hd)
    rw [rewriteBlocks]
    cases hreturned : returnedCall? f isReadOnce (f.block id) with
    | none => exact ih hrest hf hstored hcalls honce
    | some args =>
      obtain ⟨before, dst, h⟩ := exists_returnsCall hf hcalls honce (hids id (by simp)) hreturned
      have hrest' : ∀ d ∈ rest, d < (looped f id args).blocks.length := by
        rwa [ReturnsCall.length]
      have honce' : ∀ v, isReadOnce v = true → (looped f id args).useCount v ≤ 1 := by
        intro v hv
        have hle := honce v hv
        rw [← h.useCount v] at hle
        omega
      obtain ⟨hverify, hname, hsame⟩ := ih hrest' h.verify (h.loadsStored hstored) (h.callsItself hcalls)
        honce'
      refine ⟨hverify, hname, fun P W blank hP => ?_⟩
      have hfirst := h.sameCalls hstored hP W blank
      have hnext := hsame (P.replace (looped f id args)) W blank (Program.function?_replace_self hP)
      exact (hfirst.trans hnext).trans (Program.sameCalls_replace_replace hname W blank)

end TailCall

/-- A function without its unreachable blocks ends alike, however calls are answered. -/
theorem Function.ends_removeUnreachable (hf : f.verify = .ok ()) (W : World) (blank : Blank) (calls : Caller)
    (trace : List Event) (args : List Val) (answer : Except Stop (List Event × Val)) :
  f.Ends W calls (f.activate blank trace args) answer
    ↔ f.removeUnreachable.2.Ends W calls (f.removeUnreachable.2.activate blank trace args) answer
  := by
  have hkeeps := keepsPaths_reached hf
  rcases f.removeUnreachable_eq with heq | heq
  · rw [heq]
  · rw [heq]
    have hagree : ∀ k, Agree (KeepsPaths.Placed f f.reversePostorder.contains)
        (steps (f.step W calls) k (f.activate blank trace args))
        (steps ((f.keepBlocks f.reversePostorder.contains).step W calls) k
          ((f.keepBlocks f.reversePostorder.contains).activate blank trace args)) := by
      intro k
      apply Agree.steps (hkeeps.step_keepBlocks W calls) k
      refine ⟨hkeeps.entry, ?_⟩
      simp only [activate, startPoint, hkeeps.entry_keepBlocks]
      rfl
    constructor
    · rintro ⟨k, stop, hsteps, hanswer⟩
      have hk := hagree k
      rw [hsteps] at hk
      exact ⟨k, stop, hk, hanswer⟩
    · rintro ⟨k, stop, hsteps, hanswer⟩
      have hk := hagree k
      cases hold : steps (f.step W calls) k (f.activate blank trace args) with
      | ok p =>
        rw [hold] at hk
        obtain ⟨q, hq, -⟩ := hk
        rw [hsteps] at hq
        cases hq
      | error stop' =>
        rw [hold, hsteps] at hk
        cases hk
        exact ⟨k, stop, hold, hanswer⟩

theorem Function.name_removeUnreachable (f : Function) :
  f.removeUnreachable.2.name = f.name
  := by
  rcases f.removeUnreachable_eq with heq | heq <;> rw [heq]
  rfl

theorem Program.sameCalls_removeUnreachable (hf : f.verify = .ok ()) (hP : P.function? f.name = some f) (W : World)
    (blank : Blank) :
  SameCalls W blank P (P.replace f.removeUnreachable.2)
  := by
  rw [← f.name_removeUnreachable] at hP
  exact Program.sameCalls_replace hP (Function.ends_removeUnreachable hf W blank)

theorem Program.function?_of_mem (hnames : (P.functions.map (·.name)).Nodup) (hf : f ∈ P.functions) :
  P.function? f.name = some f
  := by
  unfold Program.function?
  cases hfind : P.functions.find? (·.name == f.name) with
  | none => simpa using List.find?_eq_none.mp hfind f hf
  | some g =>
    have hname : g.name = f.name := by simpa using List.find?_some hfind
    rw [List.inj_on_of_nodup_map hnames (List.mem_of_find?_eq_some hfind) hf hname]

/-- Well-formed programs call functions with what they take. -/
theorem Program.callsItself (hP : P.verify = .ok ()) (hf : f ∈ P.functions) (hfunction : P.function? f.name = some f) :
  f.verify = .ok () ∧ TailCall.CallsItself f
  := by
  obtain ⟨hverify, hreferences⟩ := check_bind_eq_ok.mp (forM_eq_ok.mp hP f hf)
  refine ⟨hverify, fun id dst args isTail hmem => ?_⟩
  have hssa := Function.isSsa_of_verify hverify
  have hblock := Function.getElem?_of_mem_instrs hmem
  have hreference := forM_eq_ok.mp (Verify.eachBlock_eq_ok.mp hreferences id _ hblock) _ hmem
  obtain ⟨entry, hentry, hparams⟩ := hssa.entry
  have hentryBlock : f.block f.entry = entry := by simp [Function.block, hentry]
  simp only [Verify.reference, Verify.callee, hfunction, bind_eq_ok, pure, Except.pure, Except.ok.injEq,
    exists_eq_left', List.length_map] at hreference
  obtain ⟨⟨⟩, hcount, ⟨⟩, htypes, hdst⟩ := hreference
  rw [Verify.ensure_eq_ok, decide_eq_true_eq] at hcount
  constructor
  · apply Verify.jump_eq_ok.mpr
    rw [hentryBlock, hparams]
    refine ⟨(List.getElem?_eq_some_iff.mp hentry).1, hcount, ?_⟩
    rintro ⟨arg, param⟩ hpair
    have hmapped : (arg, f.varType param) ∈ args.zip (f.params.map f.varType) := by
      rw [List.zip_map_right]
      exact List.mem_map.mpr ⟨_, hpair, rfl⟩
    have htype := Verify.expect_eq_ok.mp (forM_eq_ok.mp htypes _ hmapped)
    have hparam : param ∈ entry.params := hparams ▸ (List.of_mem_zip hpair).2
    have hlt := Verify.lt_of_mem_params hverify hentry hparam
    refine ⟨f.varType param, htype, ?_⟩
    simp [Function.varType, hlt]
  · cases dst with
    | none => exact (Verify.ensure_eq_ok.mp hdst).symm
    | some v =>
      obtain ⟨t, ht, hvalue⟩ := Verify.expectThat_eq_ok.mp (Verify.instr_of_mem hverify hmem)
      rw [Verify.expect_eq_ok.mp hdst] at ht
      cases ht
      simpa using hvalue

/--
With its tail calls turned into jumps a function is still well-formed, and all calls in the program that
are finished have the same answers as before, and the same events happen.
-/
theorem sameCalls_eliminateTailCalls {P : Program} (hP : P.verify = .ok ())
    (hnames : (P.functions.map (·.name)).Nodup) {f : Function} (hf : f ∈ P.functions)
    (hstored : f.LoadsStored) :
  (eliminateTailCalls f).2.verify = .ok ()
    ∧ ∀ W blank, SameCalls W blank P (P.replace (eliminateTailCalls f).2)
  := by
  have hfunction := Program.function?_of_mem hnames hf
  obtain ⟨hverify, hcalls⟩ := Program.callsItself hP hf hfunction
  have hids : ∀ id ∈ List.range f.blocks.length, id < f.blocks.length := by simp
  have honce : ∀ v, decide (f.useCount v = 1) = true → f.useCount v ≤ 1 := by simp +contextual
  obtain ⟨hrewritten, hname, hsame⟩ :=
    TailCall.sameCalls_rewriteBlocks hids hverify hstored hcalls honce
  unfold eliminateTailCalls
  simp only
  generalize TailCall.rewriteBlocks (fun v => decide (f.useCount v = 1)) (List.range f.blocks.length) f
    = rewritten at hrewritten hname hsame ⊢
  obtain ⟨n, g⟩ := rewritten
  simp only at hrewritten hname hsame ⊢
  split
  · exact ⟨hrewritten, fun W blank => hsame P W blank hfunction⟩
  · refine ⟨(Function.sameBehaviour_removeUnreachable hrewritten).1, fun W blank => ?_⟩
    have hg : (P.replace g).function? g.name = some g := by
      apply Program.function?_replace_self
      rwa [hname]
    apply (hsame P W blank hfunction).trans
    apply (Program.sameCalls_removeUnreachable hrewritten hg W blank).trans
    exact Program.sameCalls_replace_replace g.name_removeUnreachable W blank

/-- Adds up all numbers to a parameter, and keeps the sum in a slot. -/
def sumsUp : Function where
  name := "sum"
  params := [0, 1]
  result := .int 64
  blocks :=
    [ ⟨[0, 1],
        [⟨.store 0 1, none⟩, ⟨.set 2 (.const (.int 0)), none⟩, ⟨.set 3 (.binary .eq 0 2), none⟩],
        .branch 3 1 2⟩,
      ⟨[], [⟨.load 4 0, none⟩], .jump 3 [4]⟩,
      ⟨[],
        [ ⟨.set 5 (.const (.int 1)), none⟩, ⟨.set 6 (.binary .sub 0 5), none⟩, ⟨.load 7 0, none⟩,
          ⟨.set 8 (.binary .add 7 0), none⟩, ⟨.call (some 9) "sum" [6, 8] .native true, none⟩ ],
        .jump 3 [9]⟩,
      ⟨[10], [], .ret (some 10)⟩ ]
  entry := 0
  varTypes := (List.replicate 11 (.int 64)).set 3 .bool
  slots := [⟨none, .int 64⟩]
  loops := []
  flags := .none

theorem loadsStored_sumsUp :
  sumsUp.LoadsStored
  := by
  -- The entry stores to the slot, so no other block is reached without that.
  have hentry : ∀ id, sumsUp.ReachesUnstored 0 id → id = 0 := by
    intro id h
    induction h with
    | entry => rfl
    | step _ hnot _ ih =>
      subst ih
      exact absurd ⟨1, by decide⟩ hnot
  rintro id j i slot hi hloaded ⟨hreaches, -⟩
  have hloads : ∀ id < sumsUp.blocks.length, ∀ i ∈ (sumsUp.block id).instrs,
      ∀ slot, DeadStore.loadedSlot? i = some slot → slot = 0 ∧ id ≠ 0 := by
    intro id hid i hi slot hslot
    revert hslot
    revert slot i id
    decide
  have hmem := List.mem_of_getElem? hi
  have hlt := (List.getElem?_eq_some_iff.mp (Function.getElem?_of_mem_instrs hmem)).1
  obtain ⟨rfl, hne⟩ := hloads id hlt i hmem slot hloaded
  exact hne (hentry id hreaches)

theorem sameCalls_eliminateTailCalls_sumsUp :
  (Program.mk [sumsUp] [] []).verify = .ok () ∧ sumsUp.LoadsStored ∧ (eliminateTailCalls sumsUp).1 = 1
    ∧ (eliminateTailCalls sumsUp).2.verify = .ok ()
    ∧ ∀ W blank, SameCalls W blank ⟨[sumsUp], [], []⟩ ⟨[(eliminateTailCalls sumsUp).2], [], []⟩
  := by
  have hverify : (Program.mk [sumsUp] [] []).verify = .ok () := by decide +kernel
  obtain ⟨hrewritten, hsame⟩ := sameCalls_eliminateTailCalls hverify (by decide)
    (List.mem_singleton_self sumsUp) loadsStored_sumsUp
  have hreplace : (Program.mk [sumsUp] [] []).replace (eliminateTailCalls sumsUp).2
      = ⟨[(eliminateTailCalls sumsUp).2], [], []⟩ := by
    simp only [Program.replace, List.map_cons, List.map_nil]
    rw [if_pos (by decide +kernel)]
  exact ⟨hverify, loadsStored_sumsUp, by decide +kernel, hrewritten, hreplace ▸ hsame⟩

end FormCompiler.Flow
