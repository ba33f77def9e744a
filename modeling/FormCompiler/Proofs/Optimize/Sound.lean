import FormCompiler.Proofs.Flow.Rename
import FormCompiler.Proofs.Optimize.Constants
import FormCompiler.Optimize.Basic
import FormCompiler.Proofs.Flow.Lockstep
import FormCompiler.Proofs.Flow.Uses

/-!
# Sound passes

Instructions that only define variables that nothing reads can be dropped: the function stays
well-formed, and it runs through the same blocks with the same slots and events.

A pass is *sound* if it keeps functions well-formed and if they behave as before in every world that
computes as the optimiser does. Passes that are sound may run one after the other, and again and again.
This module also says what passes do that go through all blocks or replace single instructions.
-/

namespace FormCompiler.Flow

variable {f g : Function}

/-! ## Dropped instructions -/

section

open Verify (IsSite IsDefinedAt Site)

namespace Pass

variable {f : Function} {keep : Instr → Bool}

theorem block_keepInstrs (f : Function) (keep : Instr → Bool) (id : BlockId) :
  (keepInstrs keep f).2.block id
    = { f.block id with body := (f.block id).body.filter fun line => keep line.instr }
  := by
  simp only [keepInstrs, onBlocks, Function.block, List.getD_eq_getElem?_getD, List.map_map,
    List.getElem?_map]
  cases f.blocks[id]? with
  | none => rfl
  | some b => rfl

theorem instrs_keepInstrs (f : Function) (keep : Instr → Bool) (id : BlockId) :
  ((keepInstrs keep f).2.block id).instrs = (f.block id).instrs.filter keep
  := by
  rw [block_keepInstrs]
  exact List.filter_map.symm

theorem sameShape_keepInstrs (f : Function) (keep : Instr → Bool) :
  SameShape f (keepInstrs keep f).2
  where
  entry := rfl
  params := rfl
  result := rfl
  loops := rfl
  length := by simp [keepInstrs, onBlocks]
  blockParams id := by rw [block_keepInstrs]
  terminator id := by rw [block_keepInstrs]

end Pass

/-- The instruction itself, or nothing. -/
def kept (keep : Instr → Bool) (line : Instr × Nat) : List Instr :=
  if keep line.1 then [line.1] else []

theorem filter_eq_flatMap_kept (keep : Instr → Bool) (instrs : List Instr) (k : Nat) :
  instrs.filter keep = (instrs.zipIdx k).flatMap (kept keep)
  := by
  induction instrs generalizing k with
  | nil => rfl
  | cons i rest ih =>
    rw [List.zipIdx_cons, List.flatMap_cons, ← ih (k + 1), List.filter_cons, kept]
    split <;> rfl

/-- A variable that is not read. -/
def IsUnread (f : Function) (v : VarId) : Prop := f.useCount v = 0

/-- Only instructions without effects are dropped, and what they define is not read. -/
def DropsUnread (f : Function) (keep : Instr → Bool) : Prop :=
  ∀ b ∈ f.blocks, ∀ i ∈ b.instrs, keep i = false →
    i.isPure = true ∧ ∃ v, i.def? = some v ∧ IsUnread f v

section

variable {f : Function} {id : BlockId} {b : Block} {v : VarId} {i : Instr}

theorem not_isUnread_of_mem_uses (hb : b ∈ f.blocks) (hi : i ∈ b.instrs) (hv : v ∈ i.uses) :
  ¬IsUnread f v
  := by
  intro hunread
  refine useCount_eq_zero_iff.mp hunread b hb (List.mem_append_left _ ?_)
  exact List.mem_flatMap.mpr ⟨i, hi, hv⟩

theorem not_isUnread_of_mem_terminator (hb : b ∈ f.blocks) (hv : v ∈ b.terminator.uses) :
  ¬IsUnread f v
  := fun hunread => useCount_eq_zero_iff.mp hunread b hb (List.mem_append_right _ hv)

variable {keep : Instr → Bool}

theorem replaces_of_dropsUnread (hf : f.IsSsa) (hkeep : DropsUnread f keep) :
  Replaces f (Pass.keepInstrs keep f).2 (IsUnread f) fun _ => kept keep
  := by
  have hblock : ∀ {id : BlockId}, id ∈ f.reversePostorder → f.block id ∈ f.blocks :=
    fun hid => List.mem_of_getElem? (hf.getElem?_block hid)
  refine (Pass.sameShape_keepInstrs f keep).replaces hf ?_ ?_ ?_ ?_ ?_
  · intro id
    rw [Pass.instrs_keepInstrs]
    exact filter_eq_flatMap_kept keep _ 0
  · obtain ⟨-, hnodup, -⟩ := Function.isSsa_iff.mp hf
    rw [nodup_defs_iff_blocks] at hnodup ⊢
    have hsub : ∀ id, ((Pass.keepInstrs keep f).2.block id).defs.Sublist (f.block id).defs := by
      intro id
      rw [Block.defs, Pass.instrs_keepInstrs, Pass.block_keepInstrs]
      exact (List.Sublist.refl _).append (List.filter_sublist.filterMap _)
    exact ⟨fun id => (hnodup.1 id).sublist (hsub id),
      fun id id' v hv hv' => hnodup.2 id id' v ((hsub id).subset hv) ((hsub id').subset hv')⟩
  · intro id j i hi v hdef hread
    refine ⟨i, ?_, hdef⟩
    have hlt : id < f.blocks.length := by
      by_contra hge
      simp [Function.block, hge, Block.empty, Block.instrs] at hi
    have hmem : f.block id ∈ f.blocks := by simp [Function.block, hlt]
    cases hk : keep i with
    | true => simp [kept, hk]
    | false =>
      obtain ⟨-, w, hw, hunread⟩ := hkeep _ hmem i (List.mem_of_getElem? hi) hk
      obtain rfl := Option.some.inj (hdef.symm.trans hw)
      exact absurd hunread hread
  · intro id hid j i hi known hknown
    unfold kept
    split
    · refine ⟨fun v hv => hknown v ?_ ?_, by simp [Scoped]⟩
      · exact hf.isDefinedAt_of_mem_uses hid (hf.getElem?_block hid) hi hv
      · exact not_isUnread_of_mem_uses (hblock hid) (List.mem_of_getElem? hi) hv
    · simp [Scoped]
  · intro id hid v hv
    exact not_isUnread_of_mem_terminator (hblock hid) hv

theorem verify_of_dropsUnread (hf : f.verify = .ok ()) (hkeep : DropsUnread f keep) :
  (Pass.keepInstrs keep f).2.verify = .ok ()
  := by
  have hssa := Function.isSsa_of_verify hf
  refine Function.verify_of_sameShape hf ((replaces_of_dropsUnread hssa hkeep).isSsa hssa)
    (Pass.sameShape_keepInstrs f keep) ⟨rfl, List.prefix_rfl⟩ fun id i hi => .inl ?_
  rw [Pass.instrs_keepInstrs] at hi
  exact (List.mem_filter.mp hi).1

/-- Dropping what is not read makes no difference in any block. -/
theorem follows_of_dropsUnread (hf : f.IsSsa) (hkeep : DropsUnread f keep) (W : World) :
  Follows W f (Pass.keepInstrs keep f).2 (fun _ => kept keep) fun _ _ => Similar (IsUnread f)
  where
  entry := rfl
  instrs := (replaces_of_dropsUnread hf hkeep).instrs
  start _ _ _ := ⟨rfl, fun _ _ => rfl⟩
  instr := by
    intro id j i s t hid hi hst
    have hmem := List.mem_of_getElem? (hf.getElem?_block hid)
    cases hk : keep i with
    | true =>
      simp only [kept, hk, if_true, runAll_singleton]
      refine hst.run (fun v hv => ?_) fun _ _ => rfl
      exact not_isUnread_of_mem_uses hmem (List.mem_of_getElem? hi) hv
    | false =>
      obtain ⟨hpure, v, hdef, hunread⟩ := hkeep _ hmem i (List.mem_of_getElem? hi) hk
      obtain ⟨x, hact⟩ := Instr.act_of_isPure hpure W W.caller f.varType s.vars s.store
      simp only [kept, hk, Bool.false_eq_true, if_false, runAll_nil]
      rw [Instr.run_eq_ok.mpr ⟨x, s.store, hact, rfl⟩]
      refine ⟨t, rfl, hst.1, fun w hw => ?_⟩
      rw [← hst.2 w hw]
      refine setVar_of_ne ?_
      rw [hdef]
      rintro ⟨⟩
      exact hw hunread
  last := by
    intro id s t hid hst
    rw [(Pass.sameShape_keepInstrs f keep).terminator]
    refine hst.terminator (fun v hv => ?_) (Pass.sameShape_keepInstrs f keep).blockParams
    exact not_isUnread_of_mem_terminator (List.mem_of_getElem? (hf.getElem?_block hid)) hv
  before h := h.1
  after h := h.1

end

end

/-! ## Passes -/

/-- Functions stay well-formed, and they behave as before. -/
def Pass.IsSound (pass : Pass) : Prop :=
  ∀ f, f.verify = .ok () →
    (pass f).2.verify = .ok () ∧ ∀ W : World, W.IsExact → SameBehaviour W f (pass f).2

namespace Pass

theorem isSound_nothing :
  IsSound fun f => (0, f)
  := fun f hf => ⟨hf, fun W _ => .refl W f⟩

theorem IsSound.andThen {first second : Pass} (h : first.IsSound) (h' : second.IsSound) :
  (first.andThen second).IsSound
  := by
  intro f hf
  obtain ⟨hverify, hsame⟩ := h f hf
  obtain ⟨hverify', hsame'⟩ := h' _ hverify
  exact ⟨hverify', fun W hW => (hsame W hW).trans (hsame' W hW)⟩

theorem IsSound.repeated {pass : Pass} (h : pass.IsSound) (bound : Nat) :
  (pass.repeated bound).IsSound
  := by
  induction bound with
  | zero => exact isSound_nothing
  | succ bound ih =>
    intro f hf
    obtain ⟨hverify, hsame⟩ := h f hf
    rw [Pass.repeated]
    simp only
    split
    · exact ⟨hverify, hsame⟩
    · obtain ⟨hverify', hsame'⟩ := ih _ hverify
      exact ⟨hverify', fun W hW => (hsame W hW).trans (hsame' W hW)⟩

/-! ## All blocks -/

theorem block_onBlocks {change : Block → Nat × Block} (hempty : (change .empty).2 = .empty) (f : Function)
    (id : BlockId) :
  (onBlocks change f).2.block id = (change (f.block id)).2
  := by
  simp only [onBlocks, Function.block, List.getD_eq_getElem?_getD, List.map_map, List.getElem?_map]
  cases f.blocks[id]? with
  | none => exact hempty.symm
  | some b => rfl

/-! ## Replaced instructions -/

theorem block_replaceInstrs (replace : Instr → Option Instr) (f : Function) (id : BlockId) :
  (replaceInstrs replace f).2.block id = (f.block id).mapInstrs fun i => (replace i).getD i
  := block_onBlocks rfl f id

theorem sameShape_replaceInstrs (replace : Instr → Option Instr) (f : Function) :
  SameShape f (replaceInstrs replace f).2
  where
  entry := rfl
  params := rfl
  result := rfl
  loops := rfl
  length := by simp [replaceInstrs, onBlocks]
  blockParams id := by rw [block_replaceInstrs]; rfl
  terminator id := by rw [block_replaceInstrs]; rfl

theorem instrs_replaceInstrs (replace : Instr → Option Instr) (f : Function) (id : BlockId) :
  ((replaceInstrs replace f).2.block id).instrs
    = (f.block id).instrs.zipIdx.map fun line => (replace line.1).getD line.1
  := by
  rw [block_replaceInstrs]
  have hmap : (f.block id).instrs.zipIdx.map (fun line => (replace line.1).getD line.1)
      = ((f.block id).instrs.zipIdx.map (·.1)).map fun i => (replace i).getD i := by
    rw [List.map_map]
    rfl
  rw [hmap, List.zipIdx_map_fst]
  simp [Block.mapInstrs, Block.instrs]

end Pass

/-! ## Dropped instructions -/

/-- Instructions that define nothing may be dropped. -/
theorem Pass.verify_keepInstrs (hf : f.verify = .ok ()) {keep : Instr → Bool}
    (hdef : ∀ {i : Instr}, keep i = false → i.def? = none) :
  (keepInstrs keep f).2.verify = .ok ()
  := by
  have hssa := Function.isSsa_of_verify hf
  have hshape := sameShape_keepInstrs f keep
  refine Function.verify_of_sameShape hf (hshape.isSsa_of_scoped hssa (fun id => ?_) fun id known h => ?_)
    hshape ⟨rfl, List.prefix_rfl⟩ fun id i hi => .inl ?_
  · rw [Block.defs, Block.defs, instrs_keepInstrs, hshape.blockParams]
    congr 1
    generalize (f.block id).instrs = instrs
    induction instrs with
    | nil => rfl
    | cons i rest ih =>
      cases hi : keep i with
      | true => simp [hi, List.filterMap_cons, ih]
      | false => simp [hi, ih, hdef hi]
  · rw [instrs_keepInstrs, hshape.terminator]
    generalize (f.block id).instrs = instrs at h ⊢
    induction instrs generalizing known with
    | nil => exact h
    | cons i rest ih =>
      cases hi : keep i with
      | true =>
        rw [List.filter_cons_of_pos hi]
        exact ⟨h.1, ih _ h.2⟩
      | false =>
        rw [List.filter_cons_of_neg (by simp [hi])]
        refine ih _ (h.2.mono fun v hv => hv.resolve_right ?_)
        simp [hdef hi]
  · rw [instrs_keepInstrs] at hi
    exact (List.mem_filter.mp hi).1

/-! ## The same states -/

/-- Control goes the same way from the same state. -/
theorem SameShape.run_terminator (h : SameShape f g) (id : BlockId) (s : State) :
  (g.block id).terminator.run g s = (f.block id).terminator.run f s
  := by
  rw [h.terminator]
  cases (f.block id).terminator with
  | jump target args => simp only [Terminator.run, h.blockParams]
  | ret | branch | unreachable => rfl

/-- Two functions differ only in instructions and terminators. -/
structure SameFrame (f g : Function) : Prop where
  entry : g.entry = f.entry
  params : g.params = f.params
  result : g.result = f.result
  loops : g.loops = f.loops
  slots : g.slots = f.slots
  varTypes : g.varTypes = f.varTypes
  length : g.blocks.length = f.blocks.length
  blockParams : ∀ id, (g.block id).params = (f.block id).params

/-- An instruction may stand in the place of another one. -/
structure CanReplace (f : Function) (id : BlockId) (j : Nat) (i new : Instr) : Prop where
  defines : new.def? = i.def?
  reads : id ∈ f.reversePostorder → ∀ v ∈ new.uses, Verify.IsDefinedAt f id j v
  check : Verify.instr f new = .ok ()

theorem CanReplace.refl (hf : f.verify = .ok ()) {id : BlockId} {j : Nat} {i : Instr}
    (hi : (f.block id).instrs[j]? = some i) :
  CanReplace f id j i i
  where
  defines := rfl
  reads hid v hv := by
    have hssa := Function.isSsa_of_verify hf
    exact hssa.isDefinedAt_of_mem_uses hid (hssa.getElem?_block hid) hi hv
  check := Verify.instr_of_mem hf (List.mem_of_getElem? hi)

/-- A terminator may stand at the end of a block. -/
structure CanEnd (f : Function) (id : BlockId) (t : Terminator) : Prop where
  edges : ∀ next ∈ t.successors, next ∈ f.successors id
  reads : id ∈ f.reversePostorder → ∀ v ∈ t.uses, Verify.IsDefinedAt f id (f.block id).body.length v
  check : id < f.blocks.length → Verify.terminator f t = .ok ()

theorem CanEnd.refl (hf : f.verify = .ok ()) (id : BlockId) :
  CanEnd f id (f.block id).terminator
  where
  edges _ := fun hnext => hnext
  reads hid v hv := by
    have hssa := Function.isSsa_of_verify hf
    exact hssa.isDefinedAt_of_mem_terminator hid (hssa.getElem?_block hid) hv
  check := Verify.terminator_of_lt hf

namespace SameFrame

variable {f g : Function} {change : BlockId → Instr × Nat → Instr}

theorem of_sameShape (h : SameShape f g) (hslots : g.slots = f.slots) (htypes : g.varTypes = f.varTypes) :
  SameFrame f g
  := ⟨h.entry, h.params, h.result, h.loops, hslots, htypes, h.length, h.blockParams⟩

variable (h : SameFrame f g)

include h

theorem toExtends :
  f.Extends g
  := ⟨h.slots, h.varTypes ▸ List.prefix_rfl⟩

theorem varType :
  g.varType = f.varType
  := by
  funext v
  simp only [Function.varType, h.varTypes]

theorem terminator {t : Terminator} (ht : Verify.terminator f t = .ok ()) :
  Verify.terminator g t = .ok ()
  := by
  have hrename := Verify.keeps_terminator_rename h.result h.length h.blockParams
    (fun v => Verify.keeps_varType h.toExtends v) (t := t) id fun v _ => Verify.keeps_varType h.toExtends v
  have hid : t.mapUses id = t := by cases t <;> simp [Terminator.mapUses]
  rw [hid] at hrename
  exact hrename () ht

theorem getElem?_block {id : BlockId} {b : Block} (hb : g.blocks[id]? = some b) :
  id < f.blocks.length ∧ b = g.block id
  := ⟨h.length ▸ (List.getElem?_eq_some_iff.mp hb).1, by simp [Function.block, hb]⟩

theorem replaces (hf : f.verify = .ok ())
    (hinstrs : ∀ id, (g.block id).instrs = (f.block id).instrs.zipIdx.map (change id))
    (hcan : ∀ (id : BlockId) j i, (f.block id).instrs[j]? = some i →
      CanReplace f id j i (change id (i, j)))
    (hend : ∀ id, CanEnd f id (g.block id).terminator) :
  Replaces f g (fun _ => False) fun id line => [change id line]
  where
  entry := h.entry
  params := by
    obtain ⟨b, hb, hparams⟩ := (Function.isSsa_of_verify hf).entry
    have hlt : g.entry < g.blocks.length := by
      rw [h.entry, h.length]
      exact (List.getElem?_eq_some_iff.mp hb).1
    refine ⟨g.block g.entry, by simp [Function.block, hlt], ?_⟩
    rw [h.blockParams, h.entry, h.params, ← hparams]
    simp [Function.block, hb]
  edges id := (hend id).edges
  instrs id := by rw [hinstrs, List.map_eq_flatMap]
  nodup := by
    obtain ⟨-, hnodup, -⟩ := Function.isSsa_iff.mp (Function.isSsa_of_verify hf)
    have hdefs : ∀ id, (g.block id).defs = (f.block id).defs := by
      intro id
      have hold : (f.block id).instrs.filterMap Instr.def?
          = (f.block id).instrs.zipIdx.filterMap (Instr.def? ∘ Prod.fst) := by
        rw [← List.filterMap_map, List.zipIdx_map_fst]
      rw [Block.defs, Block.defs, h.blockParams, hinstrs, List.filterMap_map, hold]
      congr 1
      refine List.filterMap_congr fun line hline => ?_
      exact (hcan id line.2 line.1 (List.mk_mem_zipIdx_iff_getElem?.mp hline)).defines
    rw [nodup_defs_iff_blocks] at hnodup ⊢
    simpa only [hdefs] using hnodup
  jump id b target args hb hterminator := by
    obtain ⟨hid, rfl⟩ := h.getElem?_block hb
    have hcheck := (hend id).check hid
    rw [hterminator] at hcheck
    obtain ⟨htarget, hlength, -⟩ := Verify.jump_eq_ok.mp hcheck
    exact ⟨h.length ▸ htarget, h.blockParams target ▸ hlength⟩
  branch id b test thenBlock elseBlock hb hterminator next hnext := by
    obtain ⟨hid, rfl⟩ := h.getElem?_block hb
    have hcheck := (hend id).check hid
    rw [hterminator] at hcheck
    rw [h.length, h.blockParams]
    exact (Verify.branch_eq_ok.mp hcheck).2 next hnext
  blockParams id v hv _ := h.blockParams id ▸ hv
  defs id j i hi v hv _ := ⟨_, List.mem_singleton_self _, (hcan id j i hi).defines.trans hv⟩
  reads id hid j i hi known hknown := by
    refine ⟨fun v hv => hknown v ((hcan id j i hi).reads hid v hv) not_false, ?_⟩
    simp [Scoped]
  last id hid v hv := ⟨(hend id).reads hid v hv, not_false⟩

/--
Each instruction and each terminator is replaced by one that does the same, as far as an invariant
tells.
-/
theorem sound (hf : f.verify = .ok ()) (change : BlockId → Instr × Nat → Instr)
    (hinstrs : ∀ id, (g.block id).instrs = (f.block id).instrs.zipIdx.map (change id))
    (hcan : ∀ (id : BlockId) j i, (f.block id).instrs[j]? = some i →
      CanReplace f id j i (change id (i, j)))
    (hend : ∀ id, CanEnd f id (g.block id).terminator)
    (hrun : ∀ W : World, W.IsExact → ∃ I, Invariant W f I
      ∧ (∀ {id j i s}, id ∈ f.reversePostorder → (f.block id).instrs[j]? = some i → I id j s →
        (change id (i, j)).run W W.caller f.varType s = i.run W W.caller f.varType s)
      ∧ ∀ {id s}, id ∈ f.reversePostorder → I id (f.block id).instrs.length s →
        (g.block id).terminator.run f s = (f.block id).terminator.run f s) :
  g.verify = .ok () ∧ ∀ W : World, W.IsExact → SameBehaviour W f g
  := by
  have hreplaces := h.replaces hf hinstrs hcan hend
  constructor
  · refine Function.verify_of_blocks (hreplaces.isSsa (Function.isSsa_of_verify hf)) ?_ ?_ ?_ ?_
    · rw [show Verify.shape g = Verify.shape f by
        simp only [Verify.shape, h.entry, h.length, h.params, h.blockParams, h.loops]]
      exact (Function.verify_eq_ok.mp hf).1
    · intro id v hv
      rw [h.varTypes]
      apply Verify.lt_of_mem_defs hf
      rcases List.mem_append.mp hv with hparam | hdef
      · exact List.mem_append_left _ (h.blockParams id ▸ hparam)
      · obtain ⟨i, hi, hdef⟩ := List.mem_filterMap.mp hdef
        rw [hinstrs] at hi
        obtain ⟨⟨i, j⟩, hline, rfl⟩ := List.mem_map.mp hi
        have hi := List.mk_mem_zipIdx_iff_getElem?.mp hline
        rw [(hcan id j i hi).defines] at hdef
        exact List.mem_append_right _ (List.mem_filterMap.mpr ⟨i, List.mem_of_getElem? hi, hdef⟩)
    · intro id i hi
      rw [hinstrs] at hi
      obtain ⟨⟨i, j⟩, hline, rfl⟩ := List.mem_map.mp hi
      have hi := List.mk_mem_zipIdx_iff_getElem?.mp hline
      exact Verify.keeps_instr h.toExtends _ () (hcan id j i hi).check
    · exact fun id hid => h.terminator ((hend id).check (h.length ▸ hid))
  · intro W hW
    obtain ⟨I, hI, hinstr, hlast⟩ := hrun W hW
    have hfollows : Follows W f g (fun id line => [change id line]) fun id j s t => s = t ∧ I id j s := by
      refine .of_eq hI h.entry h.params hreplaces.instrs (fun hid hi hs => ?_) fun {id s} hid hs => ?_
      · rw [runAll_singleton, h.varType]
        exact hinstr hid hi hs
      · rw [← hlast hid hs]
        cases (g.block id).terminator with
        | jump target args => simp only [Terminator.run, h.blockParams]
        | ret | branch | unreachable => rfl
    exact hfollows.lockstep.sameBehaviour

end SameFrame

/-- Only instructions are replaced. -/
theorem SameShape.sound (h : SameShape f g) (hf : f.verify = .ok ()) (hslots : g.slots = f.slots)
    (htypes : g.varTypes = f.varTypes) (change : BlockId → Instr × Nat → Instr)
    (hinstrs : ∀ id, (g.block id).instrs = (f.block id).instrs.zipIdx.map (change id))
    (hcan : ∀ (id : BlockId) j i, (f.block id).instrs[j]? = some i →
      CanReplace f id j i (change id (i, j)))
    (hrun : ∀ W : World, W.IsExact → ∃ I, Invariant W f I ∧ ∀ {id j i s}, id ∈ f.reversePostorder →
      (f.block id).instrs[j]? = some i → I id j s →
      (change id (i, j)).run W W.caller f.varType s = i.run W W.caller f.varType s) :
  g.verify = .ok () ∧ ∀ W : World, W.IsExact → SameBehaviour W f g
  := by
  refine (SameFrame.of_sameShape h hslots htypes).sound hf change hinstrs hcan
    (fun id => h.terminator id ▸ CanEnd.refl hf id) fun W hW => ?_
  obtain ⟨I, hI, hinstr⟩ := hrun W hW
  exact ⟨I, hI, hinstr, fun _ _ => by rw [h.terminator]⟩

end FormCompiler.Flow
