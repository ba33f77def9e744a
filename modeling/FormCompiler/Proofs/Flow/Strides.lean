import FormCompiler.Proofs.Flow.Visited

/-!
# Functions that differ in some blocks

If a pass changes only some blocks, then runs of the two functions go through all the others in the
same way. They need only agree on the variables that are defined where they are, and some variables
may be *hidden* if the blocks that are left do not read them (`SameBlock.agree_step`). From a block
that has been changed, one run may take more steps than the other, until they are at the same block
again. If they always get there (`Strides`), then the functions behave alike, and wherever a run of the
new function gets, a run of the old one has got with a similar state, the blocks in between apart.
-/

namespace FormCompiler.Flow

open Verify (IsSite IsDefinedAt Site)

/-! ## Blocks that are the same -/

/-- A variable is not defined at a position, or it is hidden. -/
def Unseen (f : Function) (hidden : VarId → Prop) (id : BlockId) (position : Nat) (v : VarId) : Prop :=
  IsDefinedAt f id position v → hidden v

/-- A block is the same in another function, and it reads no hidden variable. -/
structure SameBlock (f g : Function) (hidden : VarId → Prop) (id : BlockId) : Prop where
  instrs : (g.block id).instrs = (f.block id).instrs
  terminator : (g.block id).terminator = (f.block id).terminator
  types : ∀ i ∈ (f.block id).instrs, ∀ v, i.def? = some v → f.varType v = g.varType v
  visible : ∀ v ∈ (f.block id).uses, ¬hidden v

/-- A run of a function gets to the start of a block, and another state there is similar. -/
structure Joint (W : World) (f : Function) (hidden : VarId → Prop) (p q : Point) : Prop where
  same : p.1 = q.1
  gets : Gets W f p.1 0 p.2
  similar : Similar (Unseen f hidden p.1 0) p.2 q.2

section

variable {W : World} {f g : Function} {hidden : VarId → Prop} {id next : BlockId} {j : Nat} {s t : State}
  {p q : Point}

theorem not_unseen {v : VarId} (hv : IsDefinedAt f id j v) (hhidden : ¬hidden v) :
  ¬Unseen f hidden id j v
  := fun h => hhidden (h hv)

theorem isDefinedAt_of_not_unseen {v : VarId} (h : ¬Unseen f hidden id j v) :
  IsDefinedAt f id j v ∧ ¬hidden v
  := Classical.not_imp.mp h

/-- What is seen at the start of a block without parameters is seen at the end of the block before. -/
theorem Similar.enter (h : Similar (Unseen f hidden id (f.block id).instrs.length) s t) (hf : f.IsSsa)
    (hid : id ∈ f.reversePostorder) (hnext : next ∈ f.successors id) (hparams : (f.block next).params = []) :
  Similar (Unseen f hidden next 0) s t
  := by
  use h.1
  intro v hv
  obtain ⟨hdefined, hhidden⟩ := isDefinedAt_of_not_unseen hv
  apply h.2 v
  have hbefore := hdefined.of_successor hid hnext (hf.getElem?_block hid)
  rw [hparams, ← Block.length_instrs] at hbefore
  exact not_unseen (hbefore.resolve_left List.not_mem_nil) hhidden

/-- The instructions of a block, with the same types for what they define. -/
theorem agree_take {type : VarId → ValueType} (hf : f.IsSsa) (hid : id ∈ f.reversePostorder)
    (htype : ∀ i ∈ (f.block id).instrs, ∀ v, i.def? = some v → f.varType v = type v)
    (hvisible : ∀ v ∈ (f.block id).uses, ¬hidden v) (hj : j ≤ (f.block id).instrs.length)
    (hst : Similar (Unseen f hidden id 0) s t) :
  Agree (Similar (Unseen f hidden id j))
    (runAll W W.caller f.varType ((f.block id).instrs.take j) s)
    (runAll W W.caller type ((f.block id).instrs.take j) t)
  := by
  induction j with
  | zero => exact ⟨t, rfl, hst⟩
  | succ j ih =>
    have hi : (f.block id).instrs[j]? = some (f.block id).instrs[j] := List.getElem?_eq_getElem hj
    have hmem := List.mem_of_getElem? hi
    rw [List.take_add_one, hi, Option.toList_some, runAll_append, runAll_append]
    apply (ih (Nat.le_of_succ_le hj)).bind
    intro s' t' hst'
    rw [runAll_singleton, runAll_singleton]
    apply hst'.run_def
    · intro v hv
      apply not_unseen (hf.isDefinedAt_of_mem_uses hid (hf.getElem?_block hid) hi hv)
      exact hvisible v (List.mem_append_left _ (List.mem_flatMap.mpr ⟨_, hmem, hv⟩))
    · exact htype _ hmem
    · intro v hv hdef
      obtain ⟨hdefined, hhidden⟩ := isDefinedAt_of_not_unseen hv
      refine not_unseen (hdefined.of_succ (hf.getElem?_block hid) fun i hi' => ?_) hhidden
      rw [hi] at hi'
      cases hi'
      exact hdef

theorem agree_instrs {type : VarId → ValueType} (hf : f.IsSsa) (hid : id ∈ f.reversePostorder)
    (htype : ∀ i ∈ (f.block id).instrs, ∀ v, i.def? = some v → f.varType v = type v)
    (hvisible : ∀ v ∈ (f.block id).uses, ¬hidden v) (hst : Similar (Unseen f hidden id 0) s t) :
  Agree (Similar (Unseen f hidden id (f.block id).instrs.length))
    (runAll W W.caller f.varType (f.block id).instrs s) (runAll W W.caller type (f.block id).instrs t)
  := by
  have htake := agree_take (W := W) hf hid htype hvisible le_rfl hst
  rwa [List.take_length] at htake

namespace SameBlock

theorem agree_runBody (h : SameBlock f g hidden id) (hf : f.IsSsa) (hid : id ∈ f.reversePostorder)
    (hst : Similar (Unseen f hidden id 0) s t) :
  Agree (Similar (Unseen f hidden id (f.block id).instrs.length)) (f.runBody W W.caller (id, s))
    (g.runBody W W.caller (id, t))
  := by
  unfold Function.runBody
  rw [h.instrs]
  exact agree_instrs hf hid h.types h.visible hst

/-- The end of a block that is the same. -/
theorem agree_terminator (h : SameBlock f g hidden id) (hf : f.IsSsa) (hid : id ∈ f.reversePostorder)
    (hparams : ∀ d, (g.block d).params = (f.block d).params)
    (hst : Similar (Unseen f hidden id (f.block id).instrs.length) s t) :
  Agree (fun p q => p.1 = q.1 ∧ Similar (Unseen f hidden p.1 0) p.2 q.2)
    ((f.block id).terminator.run f s) ((g.block id).terminator.run g t)
  := by
  have hblock := hf.getElem?_block hid
  have huses : ∀ v ∈ (f.block id).terminator.uses, s.vars v = t.vars v := by
    intro v hv
    have hdefined := hf.isDefinedAt_of_mem_terminator hid hblock hv
    rw [← Block.length_instrs] at hdefined
    exact hst.2 v (not_unseen hdefined (h.visible v (List.mem_append_right _ hv)))
  have hsuccessors : f.successors id = (f.block id).terminator.successors := rfl
  rw [h.terminator]
  cases hlast : (f.block id).terminator with
  | unreachable =>
    simp only [Terminator.run, hst.1]
    rfl
  | ret value =>
    have hvalue : value.map s.vars = value.map t.vars := by
      cases value with
      | none => rfl
      | some v => exact congrArg some (huses v (by simp [hlast, Terminator.uses]))
    simp only [Terminator.run, hst.1, hvalue]
    rfl
  | branch test thenBlock elseBlock =>
    simp only [Terminator.run, huses test (by simp [hlast, Terminator.uses])]
    refine ⟨_, rfl, rfl, ?_⟩
    have hnext : (if (t.vars test).isTrue then thenBlock else elseBlock) ∈ [thenBlock, elseBlock] := by
      split <;> simp
    apply hst.enter hf hid
    · rwa [hsuccessors, hlast]
    · exact (hf.branch hblock hlast _ hnext).2
  | jump target args =>
    simp only [Terminator.run, hparams]
    refine ⟨_, rfl, rfl, hst.1, fun v hv => ?_⟩
    obtain ⟨hdefined, hhidden⟩ := isDefinedAt_of_not_unseen hv
    have hnext : target ∈ f.successors id := by simp [hsuccessors, hlast, Terminator.successors]
    obtain ⟨hlt, hlength⟩ := hf.jump hblock hlast
    by_cases hparam : v ∈ (f.block target).params
    · -- A parameter gets the value of an argument, which is read here.
      obtain ⟨k, hk⟩ := List.getElem?_of_mem hparam
      obtain ⟨hklt, -⟩ := List.getElem?_eq_some_iff.mp hk
      have harg : args[k]? = some args[k] := List.getElem?_eq_getElem (hlength ▸ hklt)
      have hnodup := hf.nodup (Function.getElem?_of_lt hlt)
      simp only [passArgs, lookup_zip_of_getElem? hnodup hk harg]
      exact huses _ (by simp [hlast, Terminator.uses])
    · have hbefore := (hdefined.of_successor hid hnext hblock).resolve_left hparam
      rw [← Block.length_instrs] at hbefore
      simp only [passArgs_of_not_mem hparam]
      exact hst.2 v (not_unseen hbefore hhidden)

/-- A step through a block that is the same. -/
theorem agree_step (h : SameBlock f g hidden p.1) (hf : f.IsSsa)
    (hparams : ∀ d, (g.block d).params = (f.block d).params) (hpq : Joint W f hidden p q) :
  Agree (Joint W f hidden) (f.step W W.caller p) (g.step W W.caller q)
  := by
  obtain ⟨id, s⟩ := p
  obtain ⟨_, t⟩ := q
  obtain ⟨rfl, hgets, hst⟩ := hpq
  have hid : id ∈ f.reversePostorder := hgets.mem_reversePostorder
  have hstep : Agree (fun p q => p.1 = q.1 ∧ Similar (Unseen f hidden p.1 0) p.2 q.2)
      (f.step W W.caller (id, s)) (g.step W W.caller (id, t)) :=
    (h.agree_runBody hf hid hst).bind fun _ _ => h.agree_terminator hf hid hparams
  refine (hstep.and fun p' hp' => hgets.step hp').mono ?_
  rintro p' q' ⟨⟨hsame, hsimilar⟩, hgets'⟩
  exact ⟨hsame, hgets', hsimilar⟩

end SameBlock

/-- What steps of a run get to, a run gets to. -/
theorem Joint.agree_steps (hpq : Joint W f hidden p q) {meeting : Point → Prop} {n : Nat}
    {y : Except Stop Point}
    (h : Agree (fun p q => p.1 = q.1 ∧ Similar (Unseen f hidden p.1 0) p.2 q.2 ∧ meeting p)
      (steps (f.step W W.caller) n p) y) :
  Agree (fun p q => Joint W f hidden p q ∧ meeting p) (steps (f.step W W.caller) n p) y
  := by
  refine (h.and fun p' hp' => hpq.gets.steps hp').mono ?_
  rintro p' q' ⟨⟨hsame, hsimilar, hmeeting⟩, hgets⟩
  exact ⟨⟨hsame, hgets, hsimilar⟩, hmeeting⟩

end

/-! ## Runs that take different steps -/

/--
Runs of two functions take different numbers of steps between points where they meet; in between, the
second one is at inner blocks.
-/
structure Strides (W : World) (f g : Function) (hidden : VarId → Prop) (meeting : Point → Prop)
    (inner : BlockId → Prop) : Prop where
  entry : g.entry = f.entry
  params : g.params = f.params
  start : ∀ args vars store, meeting (f.startPoint args vars store)
  stride : ∀ {p q}, Joint W f hidden p q → meeting p →
    ∃ m n, Agree (fun p q => Joint W f hidden p q ∧ meeting p)
        (steps (f.step W W.caller) (m + 1) p) (steps (g.step W W.caller) (n + 1) q)
      ∧ ∀ k q', 0 < k → k ≤ n → steps (g.step W W.caller) k q = .ok q' → inner q'.1

namespace Strides

variable {W : World} {f g : Function} {hidden : VarId → Prop} {meeting : Point → Prop}
  {inner : BlockId → Prop} {id : BlockId} {t : State}

variable (h : Strides W f g hidden meeting inner)

include h

theorem joint_start (args : List Val) (vars : VarId → Val) (store : Store) :
  Joint W f hidden (f.startPoint args vars store) (g.startPoint args vars store)
  where
  same := h.entry.symm
  gets := ⟨args, vars, store, 0, _, rfl, rfl⟩
  similar := by
    rw [show (g.startPoint args vars store).2 = (f.startPoint args vars store).2 by
      simp only [Function.startPoint, h.params]]
    exact ⟨rfl, fun _ _ => rfl⟩

theorem sameBehaviour :
  SameBehaviour W f g
  := by
  intro args vars store
  have hmeets : Meets (f.step W W.caller) (g.step W W.caller)
      fun p q => Joint W f hidden p q ∧ meeting p := by
    constructor
    · exact fun hpq => congrArg Store.trace hpq.1.similar.1
    · intro p q hpq
      obtain ⟨m, n, hagree, -⟩ := h.stride hpq.1 hpq.2
      exact ⟨m, n, hagree⟩
  apply SameRuns.of_meets hmeets (f.keepsTrace W W.remembers_caller) (g.keepsTrace W W.remembers_caller)
  exact ⟨h.joint_start args vars store, h.start args vars store⟩

/-- Wherever a run of the second function gets, the runs meet, or it is at an inner block. -/
theorem joint_of_steps {p q q' : Point} (hpq : Joint W f hidden p q) (hp : meeting p) {k : Nat}
    (hsteps : steps (g.step W W.caller) k q = .ok q') :
  inner q'.1 ∨ ∃ p', Joint W f hidden p' q' ∧ meeting p'
  := by
  induction k using Nat.strong_induction_on generalizing p q with
  | _ k ih =>
    obtain ⟨m, n, hagree, hinner⟩ := h.stride hpq hp
    cases k with
    | zero =>
      cases hsteps
      exact .inr ⟨p, hpq, hp⟩
    | succ k =>
      by_cases hle : k + 1 ≤ n
      · exact .inl (hinner (k + 1) q' (Nat.succ_pos k) hle hsteps)
      · obtain ⟨r, hr⟩ := Nat.exists_eq_add_of_le (show n + 1 ≤ k + 1 by omega)
        rw [hr, steps_add] at hsteps
        obtain ⟨q₁, hq₁, hrest⟩ := bind_eq_ok.mp hsteps
        obtain ⟨p₁, -, hpq₁, hp₁⟩ := hagree.of_ok hq₁
        exact ih r (by omega) hpq₁ hp₁ hrest

theorem joint_of_gets (hid : ¬inner id) (ht : Gets W g id 0 t) :
  ∃ s, Joint W f hidden (id, s) (id, t) ∧ meeting (id, s)
  := by
  obtain ⟨args, vars, store, k, t₀, hsteps, ht⟩ := ht
  obtain rfl : t₀ = t := Except.ok.inj ht
  have hstart := h.joint_start args vars store
  obtain ⟨⟨_, s⟩, hpq, hp⟩ := (h.joint_of_steps hstart (h.start args vars store) hsteps).resolve_left hid
  obtain rfl := hpq.same
  exact ⟨s, hpq, hp⟩

/-- At the end of a block that is the same, the states are still similar. -/
theorem gets_end (hf : f.IsSsa) (hsame : SameBlock f g hidden id) (hid : ¬inner id)
    (ht : Gets W g id (g.block id).instrs.length t) :
  ∃ s, Gets W f id (f.block id).instrs.length s
    ∧ Similar (Unseen f hidden id (f.block id).instrs.length) s t
  := by
  obtain ⟨args, vars, store, k, t₀, hsteps, ht⟩ := ht
  obtain ⟨s₀, hjoint, -⟩ := h.joint_of_gets hid ⟨args, vars, store, k, t₀, hsteps, rfl⟩
  rw [List.take_length] at ht
  obtain ⟨s, hs, hst⟩ :=
    (hsame.agree_runBody hf hjoint.gets.mem_reversePostorder hjoint.similar).of_ok ht
  exact ⟨s, hjoint.gets.runBody hs, hst⟩

end Strides

end FormCompiler.Flow
