import FormCompiler.Proofs.Flow.Replace

/-!
# Functions that run in lockstep

Two functions run in *lockstep* if they go through the same blocks, and slots and events are the same
at the end of each block. The variables may differ. `SameBlocks` says this of all runs, and `Lockstep`
is what has to be shown of single blocks.
-/

namespace FormCompiler.Flow

open Verify (IsSite IsDefinedAt Site)

/-- Runs the instructions of a block. -/
def Function.runBody (f : Function) (W : World) (calls : Caller) (p : Point) : Except Stop State :=
  runAll W calls f.varType (f.block p.1).instrs p.2

/-- The same block, with the same slots and events. -/
def SamePoint (p q : Point) : Prop := p.1 = q.1 ∧ p.2.store = q.2.store

/--
Two functions run through the same blocks, or end in the same way, and slots and events are the same
before and at the end of each block.
-/
structure SameBlocks (W : World) (f g : Function) : Prop where
  starts : ∀ args vars store n, Agree SamePoint
    (steps (f.step W W.caller) n (f.startPoint args vars store))
    (steps (g.step W W.caller) n (g.startPoint args vars store))
  ends : ∀ args vars store n, Agree (fun s t : State => s.store = t.store)
    (steps (f.step W W.caller) n (f.startPoint args vars store) >>= f.runBody W W.caller)
    (steps (g.step W W.caller) n (g.startPoint args vars store) >>= g.runBody W W.caller)

theorem Agree.trans {α β γ : Type} {R : α → β → Prop} {S : β → γ → Prop} {T : α → γ → Prop}
    {x : Except Stop α} {y : Except Stop β} {z : Except Stop γ} (hxy : Agree R x y) (hyz : Agree S y z)
    (hT : ∀ a b c, R a b → S b c → T a c) :
  Agree T x z
  := by
  cases x with
  | error stop =>
    rw [show y = .error stop from hxy] at hyz
    exact hyz
  | ok a =>
    obtain ⟨b, rfl, hab⟩ := hxy
    obtain ⟨c, rfl, hbc⟩ := hyz
    exact ⟨c, rfl, hT a b c hab hbc⟩

theorem Agree.refl {α : Type} {R : α → α → Prop} (hR : ∀ a, R a a) (x : Except Stop α) :
  Agree R x x
  := by
  cases x with
  | error stop => rfl
  | ok a => exact ⟨a, rfl, hR a⟩

/-- What is known of the results of one part of a run can be added to what relates them. -/
theorem Agree.and {α β : Type} {R : α → β → Prop} {P : α → Prop} {x : Except Stop α}
    {y : Except Stop β} (h : Agree R x y) (hP : ∀ a, x = .ok a → P a) :
  Agree (fun a b => R a b ∧ P a) x y
  := by
  cases x with
  | error stop => exact h
  | ok a =>
    obtain ⟨b, rfl, hab⟩ := h
    exact ⟨b, rfl, hab, hP a rfl⟩

theorem SameBlocks.refl (W : World) (f : Function) :
  SameBlocks W f f
  := by
  constructor
  · exact fun _ _ _ _ => Agree.refl (fun _ => ⟨rfl, rfl⟩) _
  · exact fun _ _ _ _ => (agree_eq.mpr rfl).mono fun _ _ => congrArg State.store

theorem SameBlocks.trans {W : World} {f g h : Function} (hfg : SameBlocks W f g)
    (hgh : SameBlocks W g h) :
  SameBlocks W f h
  := by
  constructor
  · intro args vars store n
    refine (hfg.starts args vars store n).trans (hgh.starts args vars store n) ?_
    exact fun _ _ _ hpq hqr => ⟨hpq.1.trans hqr.1, hpq.2.trans hqr.2⟩
  · intro args vars store n
    refine (hfg.ends args vars store n).trans (hgh.ends args vars store n) ?_
    exact fun _ _ _ => Eq.trans

/-! ## From blocks to runs -/

/--
Each block of a function agrees with the block of another one; `P` relates what is before a block, and
`Q` what is at its end.
-/
structure Lockstep (W : World) (f g : Function) (P : Point → Point → Prop)
    (Q : BlockId → State → State → Prop) : Prop where
  start : ∀ args vars store, P (f.startPoint args vars store) (g.startPoint args vars store)
  same : ∀ {p q}, P p q → SamePoint p q
  body : ∀ {p q}, P p q → Agree (Q p.1) (f.runBody W W.caller p) (g.runBody W W.caller q)
  store : ∀ {id s t}, Q id s t → s.store = t.store
  last : ∀ {id s t}, Q id s t →
    Agree P ((f.block id).terminator.run f s) ((g.block id).terminator.run g t)

namespace Lockstep

variable {W : World} {f g : Function} {P : Point → Point → Prop} {Q : BlockId → State → State → Prop}

theorem step (h : Lockstep W f g P Q) {p q : Point} (hpq : P p q) :
  Agree P (f.step W W.caller p) (g.step W W.caller q)
  := by
  refine Agree.bind (h.body hpq) fun s t hst => ?_
  rw [← (h.same hpq).1]
  exact h.last hst

theorem sameBlocks (h : Lockstep W f g P Q) :
  SameBlocks W f g
  := by
  have hsteps : ∀ args vars store n, Agree P (steps (f.step W W.caller) n (f.startPoint args vars store))
      (steps (g.step W W.caller) n (g.startPoint args vars store)) :=
    fun args vars store n => Agree.steps h.step n (h.start args vars store)
  constructor
  · intro args vars store n
    exact (hsteps args vars store n).mono fun _ _ => h.same
  · intro args vars store n
    refine (hsteps args vars store n).bind fun p q hpq => ?_
    exact (h.body hpq).mono fun _ _ => h.store

theorem sameBehaviour (h : Lockstep W f g P Q) :
  SameBehaviour W f g
  := by
  intro args vars store
  have hmeets : Meets (f.step W W.caller) (g.step W W.caller) P :=
    .of_agree (fun hpq => congrArg Store.trace (h.same hpq).2) h.step
  exact .of_meets hmeets (f.keepsTrace W W.remembers_caller) (g.keepsTrace W W.remembers_caller)
    (h.start args vars store)

end Lockstep

/-- Control goes from a block to its successors. -/
theorem Function.mem_reversePostorder_of_run {f : Function} {id : BlockId} {s : State} {p : Point}
    (hid : id ∈ f.reversePostorder) (hrun : (f.block id).terminator.run f s = .ok p) :
  p.1 ∈ f.reversePostorder
  := by
  refine Function.mem_reversePostorder_of_successor hid ?_
  unfold Function.successors
  cases hterminator : (f.block id).terminator with
  | ret | unreachable =>
    rw [hterminator] at hrun
    cases hrun
  | jump target args =>
    rw [hterminator] at hrun
    cases hrun
    simp [Terminator.successors]
  | branch test thenBlock elseBlock =>
    rw [hterminator] at hrun
    cases hrun
    simp only [Terminator.successors]
    split <;> simp

/-! ## From instructions to blocks -/

/-- What holds before each position of each block, in every run. -/
structure Invariant (W : World) (f : Function) (I : BlockId → Nat → State → Prop) : Prop where
  start : ∀ args vars store, I f.entry 0 (f.startPoint args vars store).2
  instr : ∀ {id j i s s'}, id ∈ f.reversePostorder → (f.block id).instrs[j]? = some i → I id j s →
    i.run W W.caller f.varType s = .ok s' → I id (j + 1) s'
  last : ∀ {id s p}, id ∈ f.reversePostorder → I id (f.block id).instrs.length s →
    (f.block id).terminator.run f s = .ok p → I p.1 0 p.2

theorem Equations.invariant {W : World} {f : Function} {E : VarId → (VarId → Val) → Prop}
    {dependsOn : VarId → VarId → Prop} (hE : Equations f W W.caller E dependsOn) (hf : f.IsSsa) :
  Invariant W f fun id j s => HoldAt f E id j s.vars
  where
  start args vars store := hE.holdAt_start hf _
  instr hid hi h hrun := hE.holdAt_instr hf hid (hf.getElem?_block hid) hi h hrun
  last hid h hrun := by
    rw [Block.length_instrs] at h
    exact (hE.holdAt_terminator hf hid (hf.getElem?_block hid) h hrun).2

/--
Each instruction of a function agrees with the instructions that replace it in another one; `R`
relates the states before a position of a block.
-/
structure Follows (W : World) (f g : Function) (new : BlockId → Instr × Nat → List Instr)
    (R : BlockId → Nat → State → State → Prop) : Prop where
  entry : g.entry = f.entry
  instrs : ∀ id, (g.block id).instrs = (f.block id).instrs.zipIdx.flatMap (new id)
  start : ∀ args vars store,
    R f.entry 0 (f.startPoint args vars store).2 (g.startPoint args vars store).2
  instr : ∀ {id j i s t}, id ∈ f.reversePostorder → (f.block id).instrs[j]? = some i → R id j s t →
    Agree (R id (j + 1)) (i.run W W.caller f.varType s) (runAll W W.caller g.varType (new id (i, j)) t)
  last : ∀ {id s t}, id ∈ f.reversePostorder → R id (f.block id).instrs.length s t →
    Agree (fun p q => p.1 = q.1 ∧ R p.1 0 p.2 q.2) ((f.block id).terminator.run f s)
      ((g.block id).terminator.run g t)
  before : ∀ {id s t}, R id 0 s t → s.store = t.store
  after : ∀ {id s t}, R id (f.block id).instrs.length s t → s.store = t.store

section

variable {W : World} {f g : Function} {new : BlockId → Instr × Nat → List Instr}

theorem Follows.lockstep {R : BlockId → Nat → State → State → Prop} (h : Follows W f g new R) :
  Lockstep W f g (fun p q => (p.1 = q.1 ∧ R p.1 0 p.2 q.2) ∧ p.1 ∈ f.reversePostorder)
    fun id s t => R id (f.block id).instrs.length s t ∧ id ∈ f.reversePostorder
  := by
  constructor
  · intro args vars store
    exact ⟨⟨h.entry.symm, h.start args vars store⟩, Function.IsSsa.mem_reversePostorder_entry f⟩
  · rintro p q ⟨⟨hid, hR⟩, -⟩
    exact ⟨hid, h.before hR⟩
  · rintro ⟨id, s⟩ ⟨_, t⟩ ⟨⟨rfl, hR⟩, hid⟩
    refine Agree.and ?_ fun _ _ => hid
    unfold Function.runBody
    rw [h.instrs id]
    exact agree_runAll_body (fun j i hi s t hst => h.instr hid hi hst) hR
  · rintro id s t ⟨hR, -⟩
    exact h.after hR
  · rintro id s t ⟨hR, hid⟩
    exact (h.last hid hR).and fun p hp => Function.mem_reversePostorder_of_run hid hp

/-- The states are the same, and an invariant tells what the new instructions do. -/
theorem Follows.of_eq {I : BlockId → Nat → State → Prop} (hI : Invariant W f I)
    (hentry : g.entry = f.entry) (hparams : g.params = f.params)
    (hinstrs : ∀ id, (g.block id).instrs = (f.block id).instrs.zipIdx.flatMap (new id))
    (hinstr : ∀ {id j i s}, id ∈ f.reversePostorder → (f.block id).instrs[j]? = some i → I id j s →
      runAll W W.caller g.varType (new id (i, j)) s = i.run W W.caller f.varType s)
    (hlast : ∀ {id s}, id ∈ f.reversePostorder → I id (f.block id).instrs.length s →
      (g.block id).terminator.run g s = (f.block id).terminator.run f s) :
  Follows W f g new fun id j s t => s = t ∧ I id j s
  where
  entry := hentry
  instrs := hinstrs
  start args vars store := ⟨by simp only [Function.startPoint, hparams], hI.start args vars store⟩
  instr := by
    rintro id j i s _ hid hi ⟨rfl, hs⟩
    rw [hinstr hid hi hs]
    exact (agree_eq.mpr rfl).and fun s' hrun => hI.instr hid hi hs hrun
  last := by
    rintro id s _ hid ⟨rfl, hs⟩
    rw [hlast hid hs]
    refine ((agree_eq.mpr rfl).and fun p hp => hI.last hid hs hp).mono ?_
    rintro p _ ⟨rfl, hp⟩
    exact ⟨rfl, rfl, hp⟩
  before h := congrArg State.store h.1
  after h := congrArg State.store h.1

end

/-! ## Hidden variables -/

/-- Two states differ in hidden variables only. -/
def Similar (hidden : VarId → Prop) (s t : State) : Prop :=
  s.store = t.store ∧ ∀ v, ¬hidden v → s.vars v = t.vars v

section

variable {W : World} {calls : Caller} {type type' : VarId → ValueType} {hidden : VarId → Prop}
  {f g : Function} {s t : State}

/-- What an instruction computes depends on the type of the variable that it defines. -/
theorem Instr.act_congr_type {vars : VarId → Val} {store : Store} {i : Instr}
    (h : ∀ v, i.def? = some v → type v = type' v) :
  i.act W calls type vars store = i.act W calls type' vars store
  := by
  cases i with
  | set dst value | loadLanes dst slot start | binaryLanes dst op lhs rhs => simp only [Instr.act, h dst rfl]
  | call | load | store | loadGlobal | loadElement | storeElement | boundsCheck | makeArray
  | makeTuple | extract | alloc | free | release | storeLanes => rfl

variable (h : Similar hidden s t)

include h

/-- An instruction that reads no hidden variable; what it defines need not be hidden any more. -/
theorem Similar.run_def {i : Instr} {hidden' : VarId → Prop} (huses : ∀ v ∈ i.uses, ¬hidden v)
    (htype : ∀ v, i.def? = some v → type v = type' v) (hhidden : ∀ v, ¬hidden' v → i.def? ≠ some v → ¬hidden v) :
  Agree (Similar hidden') (i.run W calls type s) (i.run W calls type' t)
  := by
  have hact : i.act W calls type s.vars s.store = i.act W calls type' t.vars t.store := by
    rw [Instr.act_congr_type htype, h.1]
    exact Instr.act_congr fun v hv => h.2 v (huses v hv)
  unfold Instr.run
  rw [hact]
  refine (agree_eq.mpr rfl).bind ?_
  rintro ⟨x, after⟩ _ rfl
  refine ⟨_, rfl, rfl, fun v hv => ?_⟩
  simp only [setVar]
  split
  · rfl
  · next hdef => exact h.2 v (hhidden v hv hdef)

theorem Similar.run {i : Instr} (huses : ∀ v ∈ i.uses, ¬hidden v) (htype : ∀ v, i.def? = some v → type v = type' v) :
  Agree (Similar hidden) (i.run W calls type s) (i.run W calls type' t)
  := h.run_def huses htype fun _ hv _ => hv

theorem Similar.passArgs {params args : List VarId} (hargs : ∀ v ∈ args, ¬hidden v) :
  Similar hidden ⟨passArgs params args s.vars, s.store⟩ ⟨passArgs params args t.vars, t.store⟩
  := by
  refine ⟨h.1, fun v hv => ?_⟩
  simp only [Flow.passArgs]
  cases hlookup : (params.zip args).lookup v with
  | none => exact h.2 v hv
  | some arg => exact h.2 arg (hargs arg (List.of_mem_zip (mem_of_lookup_eq_some hlookup)).2)

/-- A terminator that reads no hidden variable. -/
theorem Similar.terminator {terminator : Terminator} (huses : ∀ v ∈ terminator.uses, ¬hidden v)
    (hparams : ∀ id, (g.block id).params = (f.block id).params) :
  Agree (fun p q => p.1 = q.1 ∧ Similar hidden p.2 q.2) (terminator.run f s) (terminator.run g t)
  := by
  cases terminator with
  | unreachable =>
    simp only [Terminator.run, h.1]
    rfl
  | ret value =>
    have hvalue : value.map s.vars = value.map t.vars := by
      cases value with
      | none => rfl
      | some v => exact congrArg some (h.2 v (huses v (by simp [Terminator.uses])))
    simp only [Terminator.run, h.1, hvalue]
    rfl
  | branch test thenBlock elseBlock =>
    simp only [Terminator.run, h.2 test (huses test (by simp [Terminator.uses]))]
    exact ⟨_, rfl, rfl, h⟩
  | jump target args =>
    simp only [Terminator.run, hparams]
    exact ⟨_, rfl, rfl, h.passArgs huses⟩

end

end FormCompiler.Flow
