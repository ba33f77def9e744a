import FormCompiler.Proofs.Flow.Lockstep

/-!
# Where runs get to

`Gets` says that a run gets to a position of a block with some state. It is the strongest invariant,
and what is true of all states at the end of a block can be carried on to the next one. If a block has
only one predecessor, then control has just been there, and all that was defined there is still
defined.
-/

namespace FormCompiler.Flow

open Verify (IsSite IsDefinedAt Site)

/-! ## States of runs -/

/-- A run gets to a position of a block with a state. -/
def Gets (W : World) (f : Function) (id : BlockId) (j : Nat) (s : State) : Prop :=
  ∃ args vars store n s₀, steps (f.step W W.caller) n (f.startPoint args vars store) = .ok (id, s₀)
    ∧ runAll W W.caller f.varType ((f.block id).instrs.take j) s₀ = .ok s

section

variable {W : World} {f : Function} {id : BlockId} {j : Nat} {s : State}
variable {p : Point}

theorem Gets.succ_iff {i : Instr} (hi : (f.block id).instrs[j]? = some i) {s' : State} :
  Gets W f id (j + 1) s' ↔ ∃ s, Gets W f id j s ∧ i.run W W.caller f.varType s = .ok s'
  := by
  have htake : (f.block id).instrs.take (j + 1) = (f.block id).instrs.take j ++ [i] := by
    rw [List.take_add_one, hi, Option.toList_some]
  unfold Gets
  rw [htake]
  simp only [runAll_append, bind_eq_ok, runAll_singleton]
  constructor
  · rintro ⟨args, vars, store, n, s₀, hsteps, s, hs, hrun⟩
    exact ⟨s, ⟨args, vars, store, n, s₀, hsteps, hs⟩, hrun⟩
  · rintro ⟨s, ⟨args, vars, store, n, s₀, hsteps, hs⟩, hrun⟩
    exact ⟨args, vars, store, n, s₀, hsteps, s, hs, hrun⟩

/-- Leaving a block gets a run to the start of the next one. -/
theorem Gets.last (h : Gets W f id (f.block id).instrs.length s) (hrun : (f.block id).terminator.run f s = .ok p) :
  Gets W f p.1 0 p.2
  := by
  obtain ⟨args, vars, store, n, s₀, hsteps, hs⟩ := h
  rw [List.take_length] at hs
  refine ⟨args, vars, store, n + 1, p.2, ?_, rfl⟩
  rw [steps_add, hsteps]
  change steps (f.step W W.caller) 1 (id, s₀) = .ok p
  rw [steps_one, Function.step, hs]
  exact hrun

/-- So does a step from the start of a block. -/
theorem Gets.step (h : Gets W f id 0 s) (hstep : f.step W W.caller (id, s) = .ok p) :
  Gets W f p.1 0 p.2
  := by
  obtain ⟨args, vars, store, n, s₀, hsteps, hs⟩ := h
  obtain rfl : s₀ = s := Except.ok.inj hs
  refine ⟨args, vars, store, n + 1, p.2, ?_, rfl⟩
  rw [steps_add, hsteps]
  exact (steps_one _ _).trans hstep

/-- Running the instructions of a block gets a run to its end. -/
theorem Gets.runBody (h : Gets W f id 0 s) {s' : State}
    (hrun : runAll W W.caller f.varType (f.block id).instrs s = .ok s') :
  Gets W f id (f.block id).instrs.length s'
  := by
  obtain ⟨args, vars, store, n, s₀, hsteps, hs⟩ := h
  obtain rfl : s₀ = s := Except.ok.inj hs
  exact ⟨args, vars, store, n, s₀, hsteps, by rwa [List.take_length]⟩

theorem Gets.steps (h : Gets W f id 0 s) {n : Nat} (hsteps : steps (f.step W W.caller) n (id, s) = .ok p) :
  Gets W f p.1 0 p.2
  := by
  induction n generalizing id s with
  | zero =>
    cases hsteps
    exact h
  | succ n ih =>
    obtain ⟨⟨next, s'⟩, hstep, hrest⟩ := bind_eq_ok.mp hsteps
    exact ih (h.step hstep) hrest

theorem invariant_gets (W : World) (f : Function) :
  Invariant W f (Gets W f)
  where
  start args vars store := ⟨args, vars, store, 0, _, rfl, rfl⟩
  instr _ hi hs hrun := (Gets.succ_iff hi).mpr ⟨_, hs, hrun⟩
  last _ hs hrun := hs.last hrun

/-- A run is at its start, or it has just left another block. -/
theorem Gets.start_or_last (h : Gets W f id 0 s) :
  (id = f.entry ∧ ∃ args vars store, s = (f.startPoint args vars store).2)
    ∨ ∃ before s', Gets W f before (f.block before).instrs.length s'
      ∧ (f.block before).terminator.run f s' = .ok (id, s)
  := by
  obtain ⟨args, vars, store, n, s₀, hsteps, hs⟩ := h
  obtain rfl : s₀ = s := Except.ok.inj hs
  cases n with
  | zero =>
    left
    obtain ⟨hid, hstate⟩ := Prod.mk.inj (Except.ok.inj hsteps)
    exact ⟨hid.symm, args, vars, store, hstate.symm⟩
  | succ n =>
    right
    rw [steps_add, bind_eq_ok] at hsteps
    obtain ⟨⟨before, s₁⟩, hbefore, hstep⟩ := hsteps
    rw [steps_one, Function.step, bind_eq_ok] at hstep
    obtain ⟨s', hbody, hlast⟩ := hstep
    exact ⟨before, s', ⟨args, vars, store, n, s₁, hbefore, by rwa [List.take_length]⟩, hlast⟩

theorem Gets.mem_reversePostorder (h : Gets W f id j s) :
  id ∈ f.reversePostorder
  := by
  obtain ⟨args, vars, store, n, s₀, hsteps, -⟩ := h
  induction n generalizing id s₀ with
  | zero =>
    obtain ⟨rfl, -⟩ := Prod.mk.inj (Except.ok.inj hsteps)
    exact Function.IsSsa.mem_reversePostorder_entry f
  | succ n ih =>
    rw [steps_add, bind_eq_ok] at hsteps
    obtain ⟨⟨before, s₁⟩, hbefore, hstep⟩ := hsteps
    rw [steps_one, Function.step, bind_eq_ok] at hstep
    obtain ⟨s', -, hlast⟩ := hstep
    exact Function.mem_reversePostorder_of_run (ih s₁ hbefore) hlast

theorem Terminator.mem_successors_of_run {t : Terminator} (h : t.run f s = .ok p) :
  p.1 ∈ t.successors
  := by
  cases t with
  | ret | unreachable => cases h
  | jump target args =>
    cases h
    simp [Terminator.successors]
  | branch test thenBlock elseBlock =>
    cases h
    simp only [Terminator.successors]
    split <;> simp

/-- Leaving a block changes no slot, and nothing happens. -/
theorem Terminator.store_of_run {t : Terminator} (h : t.run f s = .ok p) :
  p.2.store = s.store
  := by
  cases t with
  | ret | unreachable => cases h
  | jump | branch =>
    cases h
    rfl

end

/-! ## Blocks with one predecessor -/

namespace Function

variable {f : Function} {p b q : BlockId}

theorem eq_of_predecessors (h : f.predecessors b = [p]) (hnext : b ∈ f.successors q) :
  q = p
  := by
  simpa [h] using mem_predecessors.mpr hnext

/-- The only predecessor of a block is on every path to it. -/
theorem dominates_of_predecessors (h : f.predecessors b = [p]) (hb : b ∈ f.reversePostorder)
    (hentry : b ≠ f.entry) :
  f.dominates p b = true
  := by
  refine dominates_iff.mpr (.inr ⟨hb, fun hreaches => ?_⟩)
  cases hreaches with
  | entry => exact hentry rfl
  | step hq hnext _ =>
    obtain rfl := eq_of_predecessors h hnext
    exact not_mem_of_reaches hq (by simp)

/-- A path to a block other than the entry comes there for the first time. -/
theorem exists_reaches_before {avoided : List BlockId} (hb : f.Reaches avoided b) (hentry : b ≠ f.entry) :
  ∃ q, f.Reaches (b :: avoided) q ∧ b ∈ f.successors q
  := by
  have hfirst : ∀ {x}, f.Reaches avoided x →
      f.Reaches (b :: avoided) x ∨ ∃ q, f.Reaches (b :: avoided) q ∧ b ∈ f.successors q := by
    intro x hx
    induction hx with
    | entry hnot => exact .inl (.entry (by simpa using ⟨hentry.symm, hnot⟩))
    | @step x next _ hnext hnot ih =>
      rcases ih with hreaches | hbefore
      · by_cases heq : next = b
        · exact .inr ⟨x, hreaches, heq ▸ hnext⟩
        · exact .inl (.step hreaches hnext (by simpa using ⟨heq, hnot⟩))
      · exact .inr hbefore
  exact (hfirst hb).resolve_left fun hreaches => not_mem_of_reaches hreaches (by simp)

/-- A block does not dominate its only predecessor. -/
theorem not_dominates_of_predecessors (h : f.predecessors b = [p]) (hb : b ∈ f.reversePostorder)
    (hentry : b ≠ f.entry) :
  f.dominates b p ≠ true
  := by
  obtain ⟨q, hq, hnext⟩ := exists_reaches_before (mem_reachedAvoiding.mp hb) hentry
  obtain rfl := eq_of_predecessors h hnext
  rw [ne_eq, dominates_iff]
  rintro (rfl | ⟨-, hnot⟩)
  · exact not_mem_of_reaches hq (by simp)
  · exact hnot hq

/-- What is defined at the end of the only predecessor is defined in a block, before its parameters. -/
theorem IsSsa.isDefinedAt_of_predecessors (hf : f.IsSsa) (h : f.predecessors b = [p])
    (hb : b ∈ f.reversePostorder) (hentry : b ≠ f.entry) {position : Nat} {v : VarId}
    (hv : IsDefinedAt f p position v) :
  IsDefinedAt f b 0 v ∧ v ∉ (f.block b).params
  := by
  have hnot := not_dominates_of_predecessors h hb hentry
  have hdominates := dominates_of_predecessors h hb hentry
  obtain ⟨site, hsite, hwhere⟩ := hv
  have hbefore : site.block ≠ b ∧ f.dominates site.block b = true := by
    rcases hwhere with ⟨rfl, -⟩ | ⟨-, hsp⟩
    · exact ⟨fun heq => hnot (heq ▸ dominates_iff.mpr (.inl rfl)), hdominates⟩
    · exact ⟨fun heq => hnot (heq ▸ hsp), dominates_trans hsp hdominates⟩
  refine ⟨⟨site, hsite, .inr hbefore⟩, fun hparam => ?_⟩
  have hsite' : IsSite f v ⟨b, none⟩ := ⟨f.block b, hf.getElem?_block hb, hparam⟩
  exact hbefore.1 (congrArg Site.block (hf.unique hsite hsite'))

end Function

end FormCompiler.Flow
