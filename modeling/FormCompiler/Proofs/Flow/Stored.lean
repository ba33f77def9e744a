import FormCompiler.Optimize.DeadStore
import FormCompiler.Proofs.Flow.Visited

/-!
# Slots that are stored before they are loaded

If on every path from the entry of a function a slot is stored to as a whole before it is loaded, then
it does not matter what the slots held when the function started. The same is true of variables, as they
are defined before they are read. So two states at the same place of a function need only agree on what
has been stored and defined since the start (`SameSince`), and the function will be seen to do the same.
-/

namespace FormCompiler.Flow

open Verify (IsSite IsDefinedAt Site)

namespace Function

/-- A block stores to a slot as a whole. -/
def Stores (f : Function) (id : BlockId) (slot : SlotId) : Prop :=
  ∃ v, Instr.store slot v ∈ (f.block id).instrs

/-- There is a path from the entry to a block on which a slot is not stored to as a whole. -/
inductive ReachesUnstored (f : Function) (slot : SlotId) : BlockId → Prop where
  | entry : ReachesUnstored f slot f.entry
  | step {id next} : ReachesUnstored f slot id → ¬f.Stores id slot → next ∈ f.successors id →
    ReachesUnstored f slot next

/-- There is a path from the entry to a position on which a slot is not stored to as a whole. -/
def IsUnstored (f : Function) (slot : SlotId) (id : BlockId) (position : Nat) : Prop :=
  f.ReachesUnstored slot id ∧ ∀ v, Instr.store slot v ∉ (f.block id).instrs.take position

/-- On every path, the slots that are loaded have been stored to as a whole. -/
def LoadsStored (f : Function) : Prop :=
  ∀ (id : BlockId) j i slot, (f.block id).instrs[j]? = some i → DeadStore.loadedSlot? i = some slot →
    ¬f.IsUnstored slot id j

end Function

/-- Two states at a position agree on what has been defined and stored since the start. -/
structure SameSince (f : Function) (id : BlockId) (position : Nat) (s t : State) : Prop where
  trace : s.store.trace = t.store.trace
  vars : ∀ v, IsDefinedAt f id position v → s.vars v = t.vars v
  slots : ∀ slot, ¬f.IsUnstored slot id position → s.store.slots slot = t.store.slots slot

/-- Two states at the start of a block agree on what has been defined and stored since the start. -/
def SameAt (f : Function) (p q : Point) : Prop :=
  p.1 ∈ f.reversePostorder ∧ p.1 = q.1 ∧ SameSince f p.1 0 p.2 q.2

section

variable {f : Function} {W : World} {calls : Caller} {id : BlockId} {j : Nat} {s t : State} {p q : Point}

theorem SameSince.symm (h : SameSince f id j s t) :
  SameSince f id j t s
  where
  trace := h.trace.symm
  vars v hv := (h.vars v hv).symm
  slots slot hslot := (h.slots slot hslot).symm

theorem SameAt.symm (h : SameAt f p q) :
  SameAt f q p
  := by
  obtain ⟨hreached, hid, hsame⟩ := h
  rw [hid] at hreached hsame
  exact ⟨hreached, hid.symm, hsame.symm⟩

/-- At the entry, only the parameters have been set. -/
theorem sameAt_entry (hentry : p.1 = f.entry) (hid : p.1 = q.1)
    (htrace : p.2.store.trace = q.2.store.trace)
    (hvars : ∀ v ∈ (f.block f.entry).params, p.2.vars v = q.2.vars v) :
  SameAt f p q
  := by
  rw [SameAt, hentry]
  use Function.IsSsa.mem_reversePostorder_entry f, hentry ▸ hid
  constructor
  · exact htrace
  · exact fun v hv => hvars v hv.of_entry
  · exact fun slot hslot => absurd ⟨.entry, by simp⟩ hslot

theorem SameAt.refl (hreached : p.1 ∈ f.reversePostorder) :
  SameAt f p p
  := ⟨hreached, rfl, rfl, fun _ _ => rfl, fun _ _ => rfl⟩

theorem take_succ_of_getElem? {i : Instr} {instrs : List Instr} (hi : instrs[j]? = some i) :
  instrs.take (j + 1) = instrs.take j ++ [i]
  := by
  rw [List.take_add_one, hi, Option.toList_some]

/-- After an instruction, a slot has been stored to if it was before, or if the instruction does it. -/
theorem Function.isUnstored_succ {i : Instr} (hi : (f.block id).instrs[j]? = some i) {slot : SlotId} :
  f.IsUnstored slot id (j + 1) ↔ f.IsUnstored slot id j ∧ ∀ v, i ≠ .store slot v
  := by
  simp only [IsUnstored, take_succ_of_getElem? hi, List.mem_append, List.mem_singleton, not_or,
    forall_and, and_assoc, ne_eq, eq_comm]

/-- What an instruction reads has been defined and stored, so it does the same in both states. -/
theorem SameSince.run (hf : f.IsSsa) (hstored : f.LoadsStored) (hid : id ∈ f.reversePostorder) {i : Instr}
    (hi : (f.block id).instrs[j]? = some i) (h : SameSince f id j s t) :
  Agree (SameSince f id (j + 1)) (i.run W calls f.varType s) (i.run W calls f.varType t)
  := by
  have hblock := hf.getElem?_block hid
  have huses : ∀ v ∈ i.uses, s.vars v = t.vars v := fun v hv =>
    h.vars v (hf.isDefinedAt_of_mem_uses hid hblock hi hv)
  have hloaded : ∀ slot, DeadStore.loadedSlot? i = some slot → s.store.slots slot = t.store.slots slot :=
    fun slot hslot => h.slots slot (hstored id j i slot hi hslot)
  -- It remains to compare what is written to slots that have been stored to.
  suffices hact : Agree (fun a b : Val × Store => a.1 = b.1 ∧ a.2.trace = b.2.trace
      ∧ ∀ slot, ¬f.IsUnstored slot id (j + 1) → a.2.slots slot = b.2.slots slot)
      (i.act W calls f.varType s.vars s.store) (i.act W calls f.varType t.vars t.store) by
    unfold Instr.run
    apply hact.bind
    rintro ⟨x, after⟩ ⟨_, after'⟩ ⟨rfl, htrace, hslots⟩
    refine ⟨_, rfl, htrace, fun v hv => ?_, hslots⟩
    simp only [setVar]
    split
    · rfl
    · next hne =>
      apply h.vars v
      apply hv.of_succ hblock
      intro i' hi' hdef
      rw [hi] at hi'
      cases hi'
      exact hne hdef
  rw [Instr.act_congr huses]
  obtain ⟨svars, sslots, strace⟩ := s
  obtain ⟨tvars, tslots, ttrace⟩ := t
  obtain ⟨htrace, -, hslots⟩ := h
  simp only at htrace hslots hloaded
  subst htrace
  have hkept : (∀ slot v, i ≠ .store slot v) → ∀ slot, ¬f.IsUnstored slot id (j + 1) →
      sslots slot = tslots slot := by
    intro hne slot hslot
    apply hslots slot
    intro hunstored
    exact hslot ((Function.isUnstored_succ hi).mpr ⟨hunstored, hne slot⟩)
  cases i with
  | set dst value =>
    simp only [Instr.act]
    cases value.eval W (f.varType dst) tvars with
    | none => rfl
    | some x => exact ⟨_, rfl, rfl, rfl, hkept (by simp)⟩
  | call dst callee args convention isTail =>
    simp only [Instr.act]
    cases calls strace callee convention (args.map tvars) with
    | error stop => rfl
    | ok answer => exact ⟨_, rfl, rfl, rfl, hkept (by simp)⟩
  | boundsCheck index length =>
    simp only [Instr.act]
    cases (tvars index).isBelow length with
    | false => rfl
    | true => exact ⟨_, rfl, rfl, rfl, hkept (by simp)⟩
  | binaryLanes dst op lhs rhs =>
    simp only [Instr.act]
    cases op.mayTrap && (tvars rhs).lanes.any Val.isZero with
    | true => rfl
    | false => exact ⟨_, rfl, rfl, rfl, hkept (by simp)⟩
  | load dst slot | loadElement dst slot index | loadLanes dst slot start =>
    simp only [Instr.act, hloaded slot rfl]
    exact ⟨_, rfl, rfl, rfl, hkept (by simp)⟩
  | store slot value =>
    refine ⟨_, rfl, rfl, rfl, fun other hother => ?_⟩
    by_cases heq : other = slot
    · subst heq
      simp [Store.set]
    · simp only [Store.set, Function.update_of_ne heq]
      apply hslots other
      intro hunstored
      apply hother ((Function.isUnstored_succ hi).mpr ⟨hunstored, fun v hv => heq ?_⟩)
      cases hv
      rfl
  | storeElement slot index value | storeLanes slot start value =>
    refine ⟨_, rfl, rfl, rfl, fun other hother => ?_⟩
    have hother' := hkept (by simp) other hother
    by_cases heq : other = slot
    · subst heq
      simp [Store.set, hother']
    · simp only [Store.set, Function.update_of_ne heq]
      exact hother'
  | loadGlobal | makeArray | makeTuple | extract | alloc | free | release =>
    exact ⟨_, rfl, rfl, rfl, hkept (by simp)⟩

/-- The same for all instructions up to a position. -/
theorem SameSince.runAll (W : World) (calls : Caller) (hf : f.IsSsa) (hstored : f.LoadsStored)
    (hid : id ∈ f.reversePostorder)
    (hj : j ≤ (f.block id).instrs.length) (h : SameSince f id 0 s t) :
  Agree (SameSince f id j) (runAll W calls f.varType ((f.block id).instrs.take j) s)
    (runAll W calls f.varType ((f.block id).instrs.take j) t)
  := by
  induction j with
  | zero => exact ⟨t, rfl, h⟩
  | succ j ih =>
    have hi : (f.block id).instrs[j]? = some (f.block id).instrs[j] := List.getElem?_eq_getElem hj
    rw [take_succ_of_getElem? hi, runAll_append, runAll_append]
    apply (ih (Nat.le_of_succ_le hj)).bind
    intro s' t' hst
    rw [runAll_singleton, runAll_singleton]
    exact hst.run hf hstored hid hi

/-- What has been defined and stored at the start of the next block. -/
theorem SameSince.next (hid : id ∈ f.reversePostorder) (hf : f.IsSsa)
    (h : SameSince f id (f.block id).instrs.length s t) {next : BlockId} (hnext : next ∈ f.successors id)
    {vars vars' : VarId → Val} (hparams : ∀ v ∈ (f.block next).params, vars v = vars' v)
    (hvars : ∀ v ∉ (f.block next).params, vars v = s.vars v ∧ vars' v = t.vars v) :
  SameAt f (next, ⟨vars, s.store⟩) (next, ⟨vars', t.store⟩)
  := by
  use Function.mem_reversePostorder_of_successor hid hnext, rfl
  constructor
  · exact h.trace
  · intro v hv
    by_cases hparam : v ∈ (f.block next).params
    · exact hparams v hparam
    · have hdefined := (hv.of_successor hid hnext (hf.getElem?_block hid)).resolve_left hparam
      rw [← Block.length_instrs] at hdefined
      obtain ⟨hleft, hright⟩ := hvars v hparam
      exact hleft.trans ((h.vars v hdefined).trans hright.symm)
  · intro slot hslot
    apply h.slots slot
    rintro ⟨hreaches, hnot⟩
    rw [List.take_length] at hnot
    exact hslot ⟨hreaches.step (fun ⟨v, hv⟩ => hnot v hv) hnext, by simp⟩

/-- The end of a block. -/
theorem SameSince.terminator (hf : f.IsSsa) (hid : id ∈ f.reversePostorder)
    (h : SameSince f id (f.block id).instrs.length s t) :
  Agree (SameAt f) (((f.block id).terminator.run f s).mapError Stop.withoutSlots)
    (((f.block id).terminator.run f t).mapError Stop.withoutSlots)
  := by
  have hblock := hf.getElem?_block hid
  have huses : ∀ v ∈ (f.block id).terminator.uses, s.vars v = t.vars v := by
    intro v hv
    apply h.vars v
    rw [Block.length_instrs]
    exact hf.isDefinedAt_of_mem_terminator hid hblock hv
  have hsuccessors : f.successors id = (f.block id).terminator.successors := rfl
  cases hlast : (f.block id).terminator with
  | unreachable =>
    simp only [Terminator.run, Except.mapError, Stop.withoutSlots, h.trace]
    rfl
  | ret value =>
    have hvalue : value.map s.vars = value.map t.vars := by
      cases value with
      | none => rfl
      | some v => exact congrArg some (huses v (by simp [hlast, Terminator.uses]))
    simp only [Terminator.run, Except.mapError, Stop.withoutSlots, h.trace, hvalue]
    rfl
  | branch test thenBlock elseBlock =>
    have htest := huses test (by simp [hlast, Terminator.uses])
    simp only [Terminator.run, Except.mapError, htest]
    refine ⟨_, rfl, ?_⟩
    have hnext : (if (t.vars test).isTrue then thenBlock else elseBlock) ∈ f.successors id := by
      rw [hsuccessors, hlast]
      simp only [Terminator.successors]
      split <;> simp
    have hparams := hf.branch hblock hlast (if (t.vars test).isTrue then thenBlock else elseBlock)
      (by simpa [hsuccessors, hlast, Terminator.successors] using hnext)
    apply h.next hid hf hnext
    · rw [hparams.2]
      simp
    · exact fun _ _ => ⟨rfl, rfl⟩
  | jump target args =>
    simp only [Terminator.run, Except.mapError]
    refine ⟨_, rfl, ?_⟩
    have hnext : target ∈ f.successors id := by simp [hsuccessors, hlast, Terminator.successors]
    have hlength := (hf.jump hblock hlast).2
    apply h.next hid hf hnext
    · intro v hv
      unfold passArgs
      cases hlookup : ((f.block target).params.zip args).lookup v with
      | none =>
        obtain ⟨k, hk⟩ := List.getElem?_of_mem hv
        have hlt : k < args.length := hlength ▸ (List.getElem?_eq_some_iff.mp hk).1
        have hmem : (v, args[k]) ∈ (f.block target).params.zip args :=
          List.mem_of_getElem? (List.getElem?_zip_eq_some.mpr ⟨hk, List.getElem?_eq_getElem hlt⟩)
        simpa using List.lookup_eq_none_iff.mp hlookup _ hmem
      | some arg =>
        apply huses arg
        rw [hlast]
        exact (List.of_mem_zip (mem_of_lookup_eq_some hlookup)).2
    · exact fun v hv => ⟨passArgs_of_not_mem hv, passArgs_of_not_mem hv⟩

/-- A block is seen to do the same. -/
theorem SameAt.visibleStep (hf : f.IsSsa) (hstored : f.LoadsStored) (W : World) (calls : Caller)
    (h : SameAt f p q) :
  Agree (SameAt f) (f.visibleStep W calls p) (f.visibleStep W calls q)
  := by
  obtain ⟨id, s⟩ := p
  obtain ⟨_, t⟩ := q
  obtain ⟨hreached, rfl, hsame⟩ := h
  have hbody := hsame.runAll W calls hf hstored hreached le_rfl
  rw [List.take_length] at hbody
  unfold Function.visibleStep Function.step
  simp only
  cases hs : Flow.runAll W calls f.varType (f.block id).instrs s with
  | error stop =>
    rw [hs] at hbody
    rw [show Flow.runAll W calls f.varType (f.block id).instrs t = .error stop from hbody]
    rfl
  | ok s' =>
    rw [hs] at hbody
    obtain ⟨t', ht, hst⟩ := hbody
    rw [ht]
    exact hst.terminator hf hreached

end

end FormCompiler.Flow
