import FormCompiler.Proofs.Lowering.Module
import FormCompiler.Proofs.Lowering.WalkedExpr
import FormCompiler.Proofs.Optimize.Unrolled

/-!
# Recorded counters are true

If lowering records that a loop counts, then in all runs the counter has its first value when control comes
to the loop, the loop goes on as long as the comparison succeeds, and only the step changes the counter. The
numbers are those of the program text.
-/

namespace FormCompiler

open FormCompiler.Flow

namespace Flow

variable {W : World} {calls : Caller} {type : VarId → ValueType} {f : Function} {l : LoopInfo} {i : Induction}
  {before id : BlockId} {s s' : State} {slot : SlotId}

/-! ## Runs of the code of a counter -/

theorem slots_of_runAll {instrs : List Instr} (h : runAll W calls type instrs s = .ok s')
    (hslot : ∀ instr ∈ instrs, instr.writtenSlot? ≠ some slot) :
  s'.store.slots slot = s.store.slots slot
  := by
  induction instrs generalizing s with
  | nil =>
    cases h
    rfl
  | cons instr rest ih =>
    rw [List.forall_mem_cons] at hslot
    rw [runAll_cons, bind_eq_ok] at h
    obtain ⟨t, hrun, hrest⟩ := h
    obtain ⟨x, after, hact, rfl⟩ := Instr.run_eq_ok.mp hrun
    exact (ih hrest hslot.2).trans (Instr.slots_of_act hact hslot.1)

/-- The states that runs come to a block with: what holds of the first one, and is kept by all blocks. -/
theorem Gets.of_steps {P : BlockId → State → Prop}
    (hstart : ∀ args vars store, P f.entry (f.startPoint args vars store).2)
    (hstep : ∀ before s s' p, Gets W f before 0 s → P before s →
      runAll W W.caller f.varType (f.block before).instrs s = .ok s' →
      (f.block before).terminator.run f s' = .ok p → P p.1 p.2)
    (h : Gets W f id 0 s) :
  P id s
  := by
  obtain ⟨args, vars, store, n, s₀, hsteps, hs⟩ := h
  obtain rfl : s₀ = s := Except.ok.inj hs
  induction n generalizing id s₀ with
  | zero =>
    obtain ⟨rfl, rfl⟩ := Prod.mk.inj (Except.ok.inj hsteps)
    exact hstart args vars store
  | succ n ih =>
    rw [steps_add, bind_eq_ok] at hsteps
    obtain ⟨⟨before, s₁⟩, hbefore, hstep'⟩ := hsteps
    rw [steps_one, Function.step, bind_eq_ok] at hstep'
    obtain ⟨s', hbody, hlast⟩ := hstep'
    exact hstep before s₁ s' (id, s₀) ⟨args, vars, store, n, s₁, hbefore, rfl⟩ (ih s₁ hbefore rfl) hbody hlast

namespace LoopInfo.Code

variable (h : l.Code f i before)

include h

end LoopInfo.Code

/-! ## Loops that count -/

/--
What is recorded of the counter of a loop is true: of the control flow graph, and of all runs in a world.
-/
structure LoopInfo.IsCountedBy (W : World) (f : Function) (l : LoopInfo) (i : Induction) : Prop where
  jump : (f.block l.preheader).terminator = .jump l.header []
  /-- Control gets into the loop from the preheader only, and then to the header. -/
  edge : l.preheader ∉ l.blocks ∧ l.header ∈ l.blocks ∧ f.entry ∉ l.blocks
    ∧ ∀ a b, a ∉ l.blocks → b ∈ l.blocks → b ∈ f.successors a → a = l.preheader ∧ b = l.header
  start : ∀ s, Gets W f l.preheader (f.block l.preheader).instrs.length s → s.store.slots i.slot = .int i.init
  /-- The header branches to the body as long as the comparison succeeds. -/
  test : ∃ t body, (f.block l.header).terminator = .branch t body l.exit ∧ body ∈ l.blocks ∧ l.exit ∉ l.blocks
    ∧ ∀ s, Gets W f l.header (f.block l.header).instrs.length s →
      ∃ n, s.store.slots i.slot = .int n ∧ (s.vars t).isTrue = i.goesOn n
  writes : ∀ id ∈ l.blocks, ∀ instr ∈ (f.block id).instrs, instr.writtenSlot? = some i.slot → id = l.latch
  /-- The latch adds the step to the counter, and control goes back to the header. -/
  step : l.latch ∈ l.blocks ∧ (f.block l.latch).terminator = .jump l.header []
    ∧ ∀ s s', Gets W f l.latch 0 s → runAll W W.caller f.varType (f.block l.latch).instrs s = .ok s' →
      ∃ n, s.store.slots i.slot = .int n ∧ s'.store.slots i.slot = .int (Word.wrap (n + i.step))

/-- Rounds of a loop may be counted by what is recorded of its counter. -/
theorem LoopInfo.countsTruly_of_isCountedBy (h : ∀ i, l.induction = some i → l.IsCountedBy W f i) :
  l.CountsTruly W f
  where
  start i _ _ hi _ s hs := (h i hi).start s hs
  test i test body hi hp s n hs hn := by
    obtain ⟨t, body', hbranch, -, -, htest⟩ := (h i hi).test
    obtain ⟨rfl, -, -⟩ := Terminator.branch.inj (hp.branch.symm.trans hbranch)
    obtain ⟨m, hm, htrue⟩ := htest s hs
    obtain rfl := Val.int.inj (hn.symm.trans hm)
    exact htrue
  round i test body hi hp s s' n hs hn hrun := by
    rw [LoopInfo.round, runAll_append, bind_eq_ok] at hrun
    obtain ⟨t, hbody, hlatch⟩ := hrun
    have hcounter : t.store.slots i.slot = .int n := by
      refine (slots_of_runAll hbody fun instr hinstr hwrites => hp.ne ?_).trans hn
      exact (h i hi).writes body ((hp.blocks body).mpr (.inr (.inl rfl))) instr hinstr hwrites
    have hparams : (f.block l.latch).params = [] := hp.params _ ((hp.blocks _).mpr (.inr (.inr rfl)))
    have hjump : (f.block body).terminator.run f t = .ok (l.latch, t) := by
      rw [hp.toLatch, Terminator.run, hparams]
      rfl
    obtain ⟨m, hm, hnext⟩ := (h i hi).step.2.2 t s' ((hs.runBody hbody).last hjump) hlatch
    obtain rfl := Val.int.inj (hcounter.symm.trans hm)
    exact hnext

end Flow

end FormCompiler
