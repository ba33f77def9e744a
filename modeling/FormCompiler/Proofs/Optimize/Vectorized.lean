import FormCompiler.Proofs.Optimize.Sound
import FormCompiler.Proofs.Optimize.LaneRun

/-!
# Vectorisation

A function in which groups have been replaced by vector instructions, and the constants that only
they read dropped, is well-formed, runs through the same blocks as before, and has the same events
and the same contents of slots at the end of each block.
-/

namespace FormCompiler.Flow

open Verify (IsSite IsDefinedAt Site)

namespace Lanes

/-! ## One group -/

section

variable {f : Function} {id : BlockId} {b : Block} {g : Group} {width : Nat} {chain : Nat → Chain}
  {constants : List (VarId × Const)} {W : World}

theorem varType_rewrite_of_lt {v : VarId} (hv : v < f.varTypes.length) :
  (rewrite f id g width).varType v = f.varType v
  := by
  rw [Function.varType, Function.varType, varTypes_rewrite, List.getD_append _ _ _ _ hv]

theorem varType_rewrite_new {k : Nat} (hk : k < 3) :
  (rewrite f id g width).varType (f.varTypes.length + k) = laneVector g width
  := by
  rw [Function.varType, varTypes_rewrite, List.getD_append_right _ _ _ _ (Nat.le_add_right _ _),
    Nat.add_sub_cancel_left]
  interval_cases k <;> rfl

/-- Each instruction of the block agrees with what replaces it. -/
theorem IsGroup.agree_replacement (hg : IsGroup f b constants width g chain) (hf : f.verify = .ok ())
    (hid : id ∈ f.reversePostorder) (hb : f.blocks[id]? = some b) (hwidth : 0 < width)
    (hconstants : AreConstants f constants) {j : Nat} {i : Instr} (hi : b.instrs[j]? = some i)
    {s t : State} (h : Between f W id g width chain j s t) (calls : Caller) :
  Agree (Between f W id g width chain (j + 1)) (i.run W calls f.varType s)
    (runAll W calls (rewrite f id g width).varType (replacement f id g id (i, j)) t)
  := by
  have hssa := Function.isSsa_of_verify hf
  have hself : f.block id = b := by simp [Function.block, hb]
  have hlast := hg.last_eq hssa hid hb
  by_cases hmember : j ∈ g.members
  · obtain ⟨k, hk, hposition⟩ := (hg.members j).mp hmember
    have hnew : replacement f id g id (i, j)
        = if j = g.last then laneInstrs g f.varTypes.length else [] := by
      simp [replacement, unlessAt, hmember]
    obtain ⟨hleft, hright, hoperation⟩ := hg.lt_store hssa hid hb hk
    have hle := hg.member_le hssa hid hb (hg.store_mem hk)
    -- Only a store can be the last instruction of the group.
    have hearly : j ≠ g.last →
        (∃ s', i.run W calls f.varType s = .ok s' ∧ Between f W id g width chain (j + 1) s' t) →
        Agree (Between f W id g width chain (j + 1)) (i.run W calls f.varType s)
          (runAll W calls (rewrite f id g width).varType (replacement f id g id (i, j)) t) := by
      rintro hne ⟨s', hrun, hs'⟩
      rw [hnew, if_neg hne, hrun]
      exact ⟨t, rfl, hs'⟩
    obtain ⟨-, -, hoperationInstr, ⟨-, _, hleftInstr, -⟩, ⟨-, _, hrightInstr, -⟩⟩ := hg.chains k hk
    simp only [Chain.positions, List.mem_cons, List.not_mem_nil, or_false] at hposition
    rcases hposition with hj | rfl | rfl | rfl
    · rcases Nat.lt_or_eq_of_le (Nat.succ_le_of_lt hk) with hlt | heq
      · refine hearly ?_ (h.run_store_of_lt hg hssa hid hb hconstants hi hlt hj.symm)
        have hstore := hg.increasing k (width - 1) (by omega) (by omega)
        omega
      · have hk' : k = width - 1 := by omega
        subst hk'
        rw [hnew, if_pos (hj.trans hlast.symm)]
        exact h.run_last hg hssa hid hb hconstants hi hwidth (fun _ => varType_rewrite_new) rfl hj.symm
    · refine hearly (by omega) (h.run_of_isPure hg hssa hid hb hconstants hi hmember ?_)
      obtain rfl := Option.some.inj (hi.symm.trans hoperationInstr)
      simp [Instr.isPure, Value.isPure, mayTrap_of_isLaneWise hg.laneWise]
    · refine hearly (by omega) (h.run_of_isPure hg hssa hid hb hconstants hi hmember ?_)
      obtain rfl := Option.some.inj (hi.symm.trans hleftInstr)
      rfl
    · refine hearly (by omega) (h.run_of_isPure hg hssa hid hb hconstants hi hmember ?_)
      obtain rfl := Option.some.inj (hi.symm.trans hrightInstr)
      rfl
  · have hne : j ≠ g.last := by
      rintro rfl
      exact hmember (hlast ▸ hg.store_mem (by omega))
    have hnew : replacement f id g id (i, j) = [i] := by
      simp [replacement, unlessAt, hmember, hne]
    rw [hnew, runAll_singleton]
    refine h.run_other hg hssa hid hb hi hconstants (fun v hdef => ?_) (fun v hv => ?_) hmember
    · exact (varType_rewrite_of_lt (Verify.lt_of_def? hf hb (List.mem_of_getElem? hi) hdef)).symm
    · exact hg.not_isHidden_of_mem_uses hf hb hid (hself ▸ hi) (fun _ => hmember) hv

/--
What relates the original and the function with vector instructions: in the block of the group, they
may be between its instructions.
-/
def Related (f : Function) (W : World) (id : BlockId) (g : Group) (width : Nat) (chain : Nat → Chain)
    (d : BlockId) (j : Nat) (s t : State) : Prop :=
  if d = id then Between f W id g width chain j s t
  else Similar (IsHidden f width chain) s t ∧ HoldAt f (SetHolds f W) d j s.vars

/-- At the start and at the end of a block, only hidden variables may differ. -/
theorem related_iff {d : BlockId} {j : Nat} {s t : State}
    (hj : d = id → (∀ k < width, ∀ p ∈ (chain k).positions, j ≤ p) ∨ ∀ k < width, (chain k).store < j) :
  Related f W id g width chain d j s t
    ↔ Similar (IsHidden f width chain) s t ∧ HoldAt f (SetHolds f W) d j s.vars
  := by
  unfold Related
  split
  · next hd =>
    subst hd
    exact ⟨fun h => ⟨h.similar (hj rfl), h.holds⟩, fun h => Between.of_similar h.1 h.2 (hj rfl)⟩
  · exact Iff.rfl

/-- The function with vector instructions follows the original. -/
theorem IsGroup.follows (hg : IsGroup f b constants width g chain) (hf : f.verify = .ok ())
    (hb : f.blocks[id]? = some b) (hwidth : 0 < width) (hconstants : AreConstants f constants)
    (W : World) :
  Follows W f (rewrite f id g width) (replacement f id g) (Related f W id g width chain)
  := by
  have hssa := Function.isSsa_of_verify hf
  have hinvariant := (equations_set hssa W W.caller).invariant hssa
  have hshape := sameShape_rewrite f id g width
  have hself : f.block id = b := by simp [Function.block, hb]
  have hbefore : ∀ {d : BlockId} {s t : State}, Related f W id g width chain d 0 s t
      ↔ Similar (IsHidden f width chain) s t ∧ HoldAt f (SetHolds f W) d 0 s.vars :=
    related_iff fun _ => .inl fun _ _ p _ => Nat.zero_le p
  have hafter : ∀ {d : BlockId} {s t : State},
      Related f W id g width chain d (f.block d).instrs.length s t
        ↔ Similar (IsHidden f width chain) s t
          ∧ HoldAt f (SetHolds f W) d (f.block d).instrs.length s.vars := by
    intro d s t
    refine related_iff fun hd => .inr fun k hk => ?_
    rw [hd, hself]
    exact hg.member_lt (hg.store_mem hk)
  constructor
  · exact hshape.entry
  · exact instrs_rewrite hb (hg.last_lt hwidth)
  · intro args vars store
    exact hbefore.mpr ⟨⟨rfl, fun _ _ => rfl⟩, hinvariant.start args vars store⟩
  · intro d j i s t hd hi h
    unfold Related at h ⊢
    by_cases hdid : d = id
    · subst hdid
      simp only [if_true] at h ⊢
      exact hg.agree_replacement hf hd hb hwidth hconstants (hself ▸ hi) h W.caller
    · simp only [if_neg hdid] at h ⊢
      simp only [replacement, if_neg hdid, runAll_singleton]
      refine (h.1.run (fun v hv => ?_) fun v hdef => ?_).and fun s' hrun => hinvariant.instr hd hi h.2 hrun
      · exact hg.not_isHidden_of_mem_uses hf hb hd hi (fun h => absurd h hdid) hv
      · have hlt := Verify.lt_of_def? hf (hssa.getElem?_block hd) (List.mem_of_getElem? hi) hdef
        exact (varType_rewrite_of_lt hlt).symm
  · intro d s t hd h
    obtain ⟨hst, hholds⟩ := hafter.mp h
    rw [hshape.terminator]
    refine Agree.mono ((hst.terminator (fun v hv => ?_) hshape.blockParams).and fun p hp =>
      hinvariant.last hd hholds hp) fun p q hpq => ⟨hpq.1.1, hbefore.mpr ⟨hpq.1.2, hpq.2⟩⟩
    exact hg.not_isHidden_of_mem_terminator hf hb hd hv
  · exact fun h => (hbefore.mp h).1.1
  · exact fun h => (hafter.mp h).1.1

/-- The constants stay where they are. -/
theorem IsGroup.areConstants_rewrite (hg : IsGroup f b constants width g chain)
    (hb : f.blocks[id]? = some b) (hwidth : 0 < width) (hconstants : AreConstants f constants) :
  AreConstants (rewrite f id g width) constants
  := by
  intro v c hlookup
  obtain ⟨b', hb', hset⟩ := hconstants v c hlookup
  obtain ⟨d, hd⟩ := List.getElem?_of_mem hb'
  have hlt : d < (rewrite f id g width).blocks.length := by
    rw [(sameShape_rewrite f id g width).length]
    exact (List.getElem?_eq_some_iff.mp hd).1
  refine ⟨(rewrite f id g width).block d, by simp [Function.block, hlt], ?_⟩
  rw [instrs_rewrite hb (hg.last_lt hwidth), show f.block d = b' by simp [Function.block, hd]]
  obtain ⟨j, hj⟩ := List.getElem?_of_mem hset
  refine List.mem_flatMap.mpr ⟨(_, j), List.mk_mem_zipIdx_iff_getElem?.mpr hj, ?_⟩
  unfold replacement
  split
  · next hdid =>
    subst hdid
    obtain rfl := Option.some.inj (hd.symm.trans hb)
    have hmember : j ∉ g.members := by
      intro hmember
      obtain ⟨k, hk, hposition⟩ := (hg.members j).mp hmember
      obtain ⟨⟨_, hstore, -⟩, -, hoperation, ⟨-, _, hleft, -⟩, ⟨-, _, hright, -⟩⟩ := hg.chains k hk
      simp only [Chain.positions, List.mem_cons, List.not_mem_nil, or_false] at hposition
      rcases hposition with rfl | rfl | rfl | rfl
      · cases Option.some.inj (hj.symm.trans hstore)
      · cases Option.some.inj (hj.symm.trans hoperation)
      · cases Option.some.inj (hj.symm.trans hleft)
      · cases Option.some.inj (hj.symm.trans hright)
    refine List.mem_append_left _ ?_
    simp [unlessAt, hmember]
  · simp

end

/-! ## All groups -/

/-- A function into which another one can be rewritten. -/
structure IsSound (constants : List (VarId × Const)) (f g : Function) : Prop where
  verify : g.verify = .ok ()
  constants : AreConstants g constants
  sameBlocks : ∀ W, SameBlocks W f g

section

variable {f : Function} {constants : List (VarId × Const)} {width : Nat}

theorem isSound_block (hwidth : 0 < width) (hf : f.verify = .ok ()) (hconstants : AreConstants f constants)
    (id : BlockId) (bound : Nat) :
  IsSound constants f (block constants width id bound f).2.2
  := by
  induction bound generalizing f with
  | zero => exact ⟨hf, hconstants, fun W => .refl W f⟩
  | succ bound ih =>
    rw [block]
    cases hgroup : Scan.firstGroup? ⟨f, (f.block id).body, constants⟩ width with
    | none => exact ⟨hf, hconstants, fun W => .refl W f⟩
    | some g =>
      obtain ⟨position, hposition, hfound⟩ := List.exists_of_findSome?_eq_some hgroup
      have hlt : id < f.blocks.length := by
        by_contra hge
        simp [Function.block, hge, Block.empty] at hposition
      have hb : f.blocks[id]? = some (f.block id) := by simp [Function.block, hlt]
      obtain ⟨chain, hg⟩ := Scan.exists_isGroup hwidth hfound
      obtain ⟨hverify, hconstants', hsame⟩ := ih (hg.verify_rewrite hf hb hwidth)
        (hg.areConstants_rewrite hb hwidth hconstants)
      refine ⟨hverify, hconstants', fun W => ?_⟩
      exact (hg.follows hf hb hwidth hconstants W).lockstep.sameBlocks.trans (hsame W)

theorem isSound_blocks (hwidth : 0 < width) (hf : f.verify = .ok ())
    (hconstants : AreConstants f constants) (ids : List BlockId) :
  IsSound constants f (blocks constants width ids f).2.2
  := by
  induction ids generalizing f with
  | nil => exact ⟨hf, hconstants, fun W => .refl W f⟩
  | cons id ids ih =>
    rw [blocks]
    obtain ⟨hverify, hconstants', hsame⟩ := isSound_block hwidth hf hconstants id (f.block id).body.length
    obtain ⟨hverify', hconstants'', hsame'⟩ := ih hverify hconstants'
    exact ⟨hverify', hconstants'', fun W => (hsame W).trans (hsame' W)⟩

/-- Only constants that nothing reads are dropped. -/
theorem exists_removeOrphans_eq (orphans : List VarId) (f : Function) :
  ∃ keep, removeOrphans orphans f = (Pass.keepInstrs keep f).2 ∧ DropsUnread f keep
  := by
  refine ⟨_, rfl, fun b _ i _ hdropped => ?_⟩
  beta_reduce at hdropped
  split at hdropped
  · refine ⟨rfl, _, rfl, ?_⟩
    simp only [Bool.or_eq_false_iff, decide_eq_false_iff_not] at hdropped
    exact Nat.eq_zero_of_not_pos hdropped.2
  · cases hdropped

end

end Lanes

/--
Vectorisation of any width keeps functions well-formed. Runs go through the same blocks, with the
same events and the same contents of slots at the end of each block, and end in the same way.
-/
theorem sameBlocks_vectorize {f : Function} (hf : f.verify = .ok ()) (width : Nat) :
  (vectorize width f).2.verify = .ok () ∧ ∀ W, SameBlocks W f (vectorize width f).2
  := by
  unfold vectorize
  split
  · exact ⟨hf, fun W => .refl W f⟩
  · next hwidth =>
    have hpositive : 0 < width := by omega
    obtain ⟨hverify, -, hsame⟩ := Lanes.isSound_blocks hpositive hf (areConstants_constants f)
      (List.range f.blocks.length)
    simp only
    split
    · exact ⟨hverify, hsame⟩
    · obtain ⟨keep, hkeep, hdrops⟩ := Lanes.exists_removeOrphans_eq
        (Lanes.blocks f.constants width (List.range f.blocks.length) f).2.1
        (Lanes.blocks f.constants width (List.range f.blocks.length) f).2.2
      rw [hkeep]
      refine ⟨verify_of_dropsUnread hverify hdrops, fun W => (hsame W).trans ?_⟩
      exact (follows_of_dropsUnread (Function.isSsa_of_verify hverify) hdrops W).lockstep.sameBlocks

/-- Adds two arrays of two numbers. -/
def addArrays : Function where
  name := "add"
  params := []
  result := .none
  blocks :=
    [ ⟨[],
        [ ⟨.set 0 (.const (.int 0)), none⟩, ⟨.set 1 (.const (.int 1)), none⟩,
          ⟨.loadElement 2 0 0, none⟩, ⟨.loadElement 3 1 0, none⟩, ⟨.set 4 (.binary .add 2 3), none⟩,
          ⟨.storeElement 2 0 4, none⟩,
          ⟨.loadElement 5 0 1, none⟩, ⟨.loadElement 6 1 1, none⟩, ⟨.set 7 (.binary .add 5 6), none⟩,
          ⟨.storeElement 2 1 7, none⟩ ],
        .ret none⟩ ]
  entry := 0
  varTypes := List.replicate 8 (.int 64)
  slots := List.replicate 3 ⟨none, .array (.int 64) 2⟩
  loops := []
  flags := .none

theorem sameBlocks_vectorize_addArrays :
  addArrays.verify = .ok () ∧ (vectorize 2 addArrays).1 = 1
    ∧ (vectorize 2 addArrays).2.verify = .ok () ∧ ∀ W, SameBlocks W addArrays (vectorize 2 addArrays).2
  := ⟨by decide +kernel, by decide +kernel, sameBlocks_vectorize (by decide +kernel) 2⟩

end FormCompiler.Flow
