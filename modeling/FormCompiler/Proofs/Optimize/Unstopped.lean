import FormCompiler.Optimize.Fault
import FormCompiler.Proofs.Optimize.Lightened

/-!
# Folding is not stopped and comes to an end

Where control may come to every block, whatever is read is defined: so it has a type, and of the copies
and of the block parameters that stand for others one always comes before the other. Together with
integers of at least one bit and at most as many as a word has, this rules out all that stops the
folding of constants. A round of its rewrites keeps the types of variables, and it leaves only blocks that
are reached.

A round of rewrites that changes something makes a function lighter, so the rounds come to an end, long
before the number that bounds them. The function they end at is not changed any more. The two rewrites of
a round that are themselves repeated come to an end as well: each joint of blocks uses up a jump, and each
removal of unread results an instruction.
-/

namespace FormCompiler.Flow

open Verify (IsSite IsDefinedAt Site)

/-- Every integer has at least one bit and at most as many as a word. -/
def Function.HasWordIntegers (f : Function) : Prop :=
  ∀ bits, .int bits ∈ f.varTypes → 0 < bits ∧ bits ≤ 64

/-- A well-formed function without anything that stops the folding of constants. -/
structure Function.IsOrderly (f : Function) : Prop where
  verify : f.verify = .ok ()
  reached : f.AllReached
  integers : f.HasWordIntegers

/-- A pass leaves functions orderly. -/
def Pass.KeepsOrder (pass : Pass) : Prop := ∀ f : Function, f.IsOrderly → (pass f).2.IsOrderly

variable {f g : Function}

/-- What a pass keeps is kept however often it is repeated. -/
theorem Pass.repeated_induction {pass : Pass} {P : Function → Prop} (hkept : ∀ g, P g → P (pass g).2)
    (hf : P f) (bound : Nat) :
  P (pass.repeated bound f).2
  := by
  induction bound generalizing f with
  | zero => exact hf
  | succ bound ih =>
    simp only [Pass.repeated]
    split
    · exact hkept f hf
    · exact ih (hkept f hf)

/-! ## Reached blocks -/

theorem Function.AllReached.of_successors (h : f.AllReached) (hentry : g.entry = f.entry)
    (hlength : g.blocks.length = f.blocks.length) (hsuccessors : ∀ id, g.successors id = f.successors id) :
  g.AllReached
  := fun id hid => mem_reversePostorder_of_successors (h id (hlength ▸ hid)) hentry.symm
    fun id _ hnext => (hsuccessors id).symm ▸ hnext

theorem Function.AllReached.of_sameShape (h : f.AllReached) (hfg : SameShape f g) :
  g.AllReached
  := h.of_successors hfg.entry hfg.length hfg.successors

/-- Control comes to each block that is left when those are dropped that it does not come to. -/
theorem Function.allReached_removeUnreachable (hf : f.verify = .ok ()) :
  f.removeUnreachable.2.AllReached
  := by
  rcases Fold.removeUnreachable_cases f with ⟨hall, heq⟩ | ⟨-, -, heq⟩
  · rw [heq]
    exact hall
  · have hkeeps := keepsPaths_reached hf
    have hreaches : ∀ {b}, f.Reaches [] b →
        (f.keepBlocks f.reversePostorder.contains).Reaches [] (f.place f.reversePostorder.contains b) := by
      intro b hb
      induction hb with
      | entry => exact hkeeps.entry_keepBlocks ▸ .entry (by simp)
      | @step b next hbefore hnext _ ih =>
        have hkept := hkeeps.mem_kept_of_reached (mem_reachedAvoiding.mpr hbefore)
        refine .step ih ?_ (by simp)
        rw [successors, block_keepBlocks hkept, Terminator.successors_mapTargets]
        exact List.mem_map_of_mem hnext
    rw [heq]
    intro k hk
    rw [length_keepBlocks] at hk
    obtain ⟨b, hb, rfl⟩ := exists_place hk
    have hreached : b ∈ f.reversePostorder := by simpa using (mem_kept.mp hb).2
    exact mem_reachedAvoiding.mpr (hreaches (mem_reachedAvoiding.mp hreached))

/-! ## Typed reads -/

theorem Function.IsOrderly.lt_of_mem_uses (h : f.IsOrderly) {b : Block} (hb : b ∈ f.blocks) {v : VarId}
    (hv : v ∈ b.uses) :
  v < f.varTypes.length
  := by
  obtain ⟨id, -, j, hdefined⟩ := h.reached.isDefinedAt (Function.isSsa_of_verify h.verify) hb hv
  obtain ⟨site, hsite⟩ := hdefined.exists_site
  exact Verify.lt_of_mem_defs h.verify (mem_defs_iff.mpr ⟨site, rfl, hsite⟩)

theorem Function.IsOrderly.countFault?_eq_none (h : f.IsOrderly) :
  f.countFault? = none
  := by
  rw [countFault?, if_pos]
  simp only [readsTyped, List.all_eq_true, decide_eq_true_eq]
  exact fun b hb v hv => h.lt_of_mem_uses hb hv

theorem Function.readsReplaced_eq_false {replaced : List (VarId × VarId)}
    (h : ∀ b ∈ f.blocks, ∀ v ∈ b.uses, replaced.lookup v = none) :
  f.readsReplaced replaced = false
  := by
  simp only [readsReplaced, List.any_eq_false, Bool.not_eq_true]
  intro b hb v hv
  rw [h b hb v hv]
  rfl

/-! ## Operations -/

section

variable {type : ValueType}

variable (h : ∀ bits, type = .int bits → 0 < bits ∧ bits ≤ 64)

include h

theorem Const.binaryFault?_eq_none (op : BinaryOp) (lhs rhs : Const) :
  Const.binaryFault? op lhs rhs type = none
  := by
  unfold Const.binaryFault?
  split
  · next bits =>
    obtain ⟨hpos, hle⟩ := h bits rfl
    have hshift : ∀ b : Int, ¬(op = .shr ∧ 64 ≤ b ∧ b < bits) := fun b hb => by omega
    simp only [hshift, hpos.ne', false_and, if_false, ite_self]
  · rfl

theorem Const.unaryFault?_eq_none (op : UnaryOp) (operand : Const) :
  Const.unaryFault? op operand type = none
  := by
  unfold Const.unaryFault?
  split
  · exact absurd (h 0 rfl).1 (lt_irrefl 0)
  · rfl

theorem Const.castFault?_eq_none (operand : Const) :
  Const.castFault? operand type = none
  := by
  unfold Const.castFault?
  split
  · exact absurd (h 0 rfl).1 (lt_irrefl 0)
  · exact absurd (h 0 rfl).1 (lt_irrefl 0)
  · rfl

end

namespace Fold

theorem valuesFault?_eq_none (h : f.HasWordIntegers) :
  valuesFault? f = none
  := by
  have htype : ∀ dst bits, f.varType dst = .int bits → 0 < bits ∧ bits ≤ 64 := by
    intro dst bits hdst
    rw [Function.varType, List.getD_eq_getElem?_getD] at hdst
    cases hget : f.varTypes[dst]? with
    | none =>
      rw [hget] at hdst
      cases hdst
    | some type =>
      rw [hget] at hdst
      obtain rfl : type = .int bits := hdst
      exact h bits (List.mem_of_getElem? hget)
  have hvalue : ∀ dst value, valueFault? f.constants (f.varType dst) value = none := by
    intro dst value
    cases value with
    | const | copy => rfl
    | binary op lhs rhs =>
      simp [valueFault?, Const.binaryFault?_eq_none (htype dst)]
    | unary op operand =>
      simp [valueFault?, Const.unaryFault?_eq_none (htype dst)]
    | cast source =>
      simp [valueFault?, Const.castFault?_eq_none (htype dst)]
  simp only [valuesFault?, List.findSome?_eq_none_iff]
  intro b _ i _
  split
  · exact hvalue _ _
  · rfl

/-! ## Copies -/

theorem copiesFault?_eq_none (h : f.IsOrderly) :
  copiesFault? f = none
  := by
  have hreads : (copies f).2.readsReplaced (copiesOf f) = false := by
    refine Function.readsReplaced_eq_false fun b' hb' v hv => ?_
    obtain ⟨b, hb, rfl⟩ := List.mem_map.mp
      (show b' ∈ f.blocks.map (Block.mapUses (Function.follow (copiesOf f) (copiesOf f).length)) from hb')
    obtain ⟨u, hu, rfl⟩ := Block.mem_uses_mapUses.mp hv
    obtain ⟨id, hid, j, hdefined⟩ := h.reached.isDefinedAt (Function.isSsa_of_verify h.verify) hb hu
    exact lookup_follow_copiesOf h.verify hid hdefined
  rw [copiesFault?, h.countFault?_eq_none, hreads]
  simp

/-! ## Block parameters -/

theorem uses_decidedTerminator_subset (f : Function) (t : Terminator) :
  (decidedTerminator f t).uses ⊆ t.uses
  := by
  unfold decidedTerminator
  split
  · exact List.nil_subset _
  · exact List.Subset.refl _

/-- What stands for a parameter where branches are decided did so before: only jumps pass anything. -/
theorem IsRedundant.of_branches {id : BlockId} {position : Nat} {param source : VarId}
    (h : IsRedundant (branches f).2 id position param source) :
  IsRedundant f id position param source
  := by
  have hincoming : ∀ args, args ∈ incoming f id → args ∈ incoming (branches f).2 id := by
    intro args hargs
    obtain ⟨b, hb, hjump⟩ := mem_incoming.mp hargs
    refine mem_incoming.mpr ⟨b, ?_, hjump⟩
    refine List.mem_map.mpr ⟨_, List.mem_map_of_mem hb, ?_⟩
    rw [hjump]
    rfl
  have hpassed : ∀ args v, args ∈ incoming (branches f).2 id → v ∈ args → args ∈ incoming f id := by
    intro args v hargs hv
    obtain ⟨b', hb', hjump⟩ := mem_incoming.mp hargs
    obtain ⟨_, hchanged, rfl⟩ := List.mem_map.mp hb'
    obtain ⟨b, hb, rfl⟩ := List.mem_map.mp hchanged
    split at hjump
    · obtain ⟨-, rfl⟩ := Terminator.jump.inj hjump
      cases hv
    · exact mem_incoming.mpr ⟨b, hb, hjump⟩
  obtain ⟨args, hargs, hsource⟩ := h.passed
  refine ⟨h.entry, ?_, fun args hargs => h.args args (hincoming args hargs),
    ⟨args, hpassed args source hargs (List.mem_of_getElem? hsource), hsource⟩, ?_⟩
  · simpa only [block_branches] using h.isParam
  · have houtside := h.outside
    rw [block_branches] at houtside
    exact houtside

/-- Where branches were decided, nothing is read after all that a parameter stands for. -/
theorem blockParamsFault?_branches (h : f.IsOrderly) :
  blockParamsFault? (branches f).2 = none
  := by
  have hssa := Function.isSsa_of_verify h.verify
  have hreads : (blockParams (branches f).2).2.readsReplaced (replacedParams (branches f).2) = false := by
    refine Function.readsReplaced_eq_false fun b hb v hv => ?_
    obtain ⟨id, hid⟩ := List.getElem?_of_mem hb
    obtain rfl : (blockParams (branches f).2).2.block id = b := by simp [Function.block, hid]
    rw [block_blockParams] at hv
    obtain ⟨u, hu, rfl⟩ := Block.mem_uses_mapUses.mp hv
    have hlt : id < f.blocks.length := by
      have hlt := (List.getElem?_eq_some_iff.mp hid).1
      rw [length_blockParams] at hlt
      simpa [branches, Pass.onBlocks] using hlt
    have huses : u ∈ (f.block id).uses := by
      rcases List.mem_append.mp hu with hu | hu
      · refine List.mem_append_left _ ?_
        simpa only [Block.instrs, block_branches] using hu
      · have hterminator := uses_dropArgs_subset _ _ hu
        rw [block_branches] at hterminator
        exact List.mem_append_right _ (uses_decidedTerminator_subset f _ hterminator)
    obtain ⟨d, hd, j, hdefined⟩ := h.reached.isDefinedAt hssa (block_mem hlt) huses
    refine lookup_follow_redundant hssa (fun v source hlookup => ?_) hd hdefined
    obtain ⟨id, position, hredundant⟩ := isRedundant_of_lookup hlookup
    exact ⟨id, position, hredundant.of_branches⟩
  exact if_neg (by rw [show ((List.range _).map _).flatten.map _ = replacedParams _ from rfl, hreads]; simp)

/-! ## Orderly functions -/

theorem keepsOrder_values :
  values.KeepsOrder
  := fun f h => ⟨(isSound_values f h.verify).1, h.reached.of_sameShape (Pass.sameShape_replaceInstrs _ f),
    h.integers⟩

theorem keepsOrder_copies :
  copies.KeepsOrder
  := by
  intro f h
  refine ⟨(isSound_copies f h.verify).1, h.reached.of_successors rfl ?_ fun id => ?_, h.integers⟩
  · simp [copies, Function.replaceUses, Function.mapBlocks]
  · have hblock := f.block_replaceUses (copiesOf f) id
    rw [Function.successors, show (copies f).2 = f.replaceUses (copiesOf f) from rfl, hblock]
    exact Terminator.successors_mapUses _ _

theorem keepsOrder_storedValues :
  storedValues.KeepsOrder
  := by
  intro f h
  obtain ⟨hshape, -, htypes, -⟩ := forwardBlocks_spec [] f.nodup_reversePostorder
    fun d hd => Verify.lt_of_mem_reversePostorder h.verify hd
  exact ⟨(isSound_storedValues f h.verify).1, h.reached.of_sameShape hshape,
    fun bits hbits => h.integers bits (htypes ▸ hbits)⟩

theorem keepsOrder_singleStoredValues :
  singleStoredValues.KeepsOrder
  := by
  intro f h
  refine ⟨(isSound_singleStoredValues f h.verify).1, h.reached.of_successors rfl ?_ fun id => ?_, h.integers⟩
  · simp [singleStoredValues]
  · rw [Function.successors, block_singleStoredValues]
    rfl

theorem keepsOrder_boundsChecks :
  boundsChecks.KeepsOrder
  := fun f h => ⟨(isSound_boundsChecks f h.verify).1, h.reached.of_sameShape (Pass.sameShape_keepInstrs f _),
    h.integers⟩

theorem keepsOrder_unread :
  unread.KeepsOrder
  := by
  have honce : unreadOnce.KeepsOrder := fun f h =>
    ⟨(isSound_unreadOnce f h.verify).1, h.reached.of_sameShape (Pass.sameShape_keepInstrs f _), h.integers⟩
  exact fun f h => Pass.repeated_induction honce h f.instrCount

/-! ## Rounds -/

theorem varTypes_jumpChains (f : Function) :
  (jumpChains f).2.varTypes = f.varTypes
  := by
  refine Pass.repeated_induction (P := fun g => g.varTypes = f.varTypes) (fun g hg => ?_) rfl f.blocks.length
  unfold joinFirst
  simp only
  split
  · exact hg
  · exact hg

theorem varTypes_removeUnreachable (f : Function) :
  f.removeUnreachable.2.varTypes = f.varTypes
  := by
  rcases f.removeUnreachable_eq with heq | heq <;> rw [heq]
  rfl

/-- The rewrites of a round before branches are decided. -/
def beforeBranches : Pass :=
  Pass.sequence [values, copies, storedValues, singleStoredValues, boundsChecks]

/-- The rewrites of a round from there on that may leave blocks unreached. -/
def fromBranches : Pass := Pass.sequence [branches, blockParams, jumpChains]

theorem keepsOrder_beforeBranches :
  beforeBranches.KeepsOrder
  := by
  intro f h
  simp only [beforeBranches, Pass.sequence, Pass.andThen]
  exact keepsOrder_boundsChecks _ (keepsOrder_singleStoredValues _ (keepsOrder_storedValues _
    (keepsOrder_copies _ (keepsOrder_values _ h))))

theorem isOrderly_fromBranches (h : f.IsOrderly) :
  (fromBranches f).2.removeUnreachable.2.IsOrderly
  := by
  have hbranches := (isSound_branches f h.verify).1
  have hparams := (isSound_blockParams _ hbranches).1
  have hchains := (isSound_jumpChains _ hparams).1
  simp only [fromBranches, Pass.sequence, Pass.andThen]
  refine ⟨(isSound_removeUnreachable _ hchains).1, Function.allReached_removeUnreachable hchains, ?_⟩
  rw [Function.HasWordIntegers, varTypes_removeUnreachable, varTypes_jumpChains]
  exact h.integers

theorem round_eq (f : Function) :
  round f = ((beforeBranches f).1 + ((fromBranches (beforeBranches f).2).1
      + ((fromBranches (beforeBranches f).2).2.removeUnreachable.1
        + (unread (fromBranches (beforeBranches f).2).2.removeUnreachable.2).1)),
    (unread (fromBranches (beforeBranches f).2).2.removeUnreachable.2).2)
  := by
  simp only [round, beforeBranches, fromBranches, Pass.sequence, Pass.andThen, Nat.add_zero, Nat.add_assoc]

theorem keepsOrder_round :
  round.KeepsOrder
  := by
  intro f h
  simp only [round_eq]
  exact keepsOrder_unread _ (isOrderly_fromBranches (keepsOrder_beforeBranches f h))

/-- Nothing stops a round. -/
theorem partialRound_fault? (h : f.IsOrderly) :
  partialRound.fault? f = none
  := by
  have hvalues := keepsOrder_values f h
  have hbranches := keepsOrder_beforeBranches f h
  have hunread := isOrderly_fromBranches hbranches
  have hcopies := copiesFault?_eq_none hvalues
  have hparams := blockParamsFault?_branches hbranches
  have hcount := hunread.countFault?_eq_none
  simp only [beforeBranches, fromBranches, Pass.sequence, Pass.andThen] at hparams hcount
  simp only [partialRound, PartialPass.sequence, PartialPass.andThen, PartialPass.ofPass,
    valuesFault?_eq_none h.integers, hcopies, hparams, hcount]
  rfl

theorem pass_partialRound :
  partialRound.pass = round
  := by
  simp only [partialRound, round, PartialPass.sequence, PartialPass.andThen, PartialPass.ofPass, Pass.sequence]

end Fold

/-- Nothing stops a pass that is repeated, if nothing stops it at any time. -/
theorem PartialPass.faultWithin?_eq_none {p : PartialPass} {P : Function → Prop}
    (hkept : ∀ g, P g → P (p.pass g).2) (h : ∀ g, P g → p.fault? g = none) (hf : P f) (bound : Nat) :
  p.faultWithin? bound f = none
  := by
  induction bound generalizing f with
  | zero => rfl
  | succ bound ih =>
    rw [faultWithin?, h f hf, ih (hkept f hf), ite_self]
    rfl

/-- Nothing stops the folding of constants in an orderly function. -/
theorem Function.IsOrderly.fault?_foldConstants (h : f.IsOrderly) :
  PartialPass.foldConstants.fault? f = none
  := by
  refine PartialPass.faultWithin?_eq_none (P := Function.IsOrderly) (fun g hg => ?_)
    (fun g hg => Fold.partialRound_fault? hg) h _
  rw [Fold.pass_partialRound]
  exact Fold.keepsOrder_round g hg

/-! ## Constant folding comes to an end -/

/-- A pass that is repeated changes a function so many times in all, and changes nothing after that. -/
inductive Pass.Settles (pass : Pass) : Function → Nat → Function → Prop where
  | done {f : Function} : (pass f).1 = 0 → Settles pass f 0 (pass f).2
  | again {f g : Function} {n : Nat} : (pass f).1 ≠ 0 → Settles pass (pass f).2 n g →
    Settles pass f ((pass f).1 + n) g

namespace Pass

variable {pass : Pass} {weight : Function → Nat} {P : Function → Prop}

/-- A pass that makes functions lighter settles, within as many times as the weight of the function. -/
theorem settles_repeated (hkept : ∀ g, P g → P (pass g).2) (h : ∀ g, P g → pass.Lightens weight g)
    (hf : P f) {bound : Nat} (hbound : weight f ≤ bound) :
  pass.Settles f (pass.repeated bound f).1 (pass.repeated bound f).2
  := by
  induction bound generalizing f with
  | zero =>
    -- A function of no weight cannot become lighter.
    have hzero : (pass f).1 = 0 := by
      by_contra hne
      exact absurd ((h f hf).lighter hne) (by omega)
    have hdone := Settles.done hzero
    rwa [(h f hf).same hzero] at hdone
  | succ bound ih =>
    simp only [Pass.repeated]
    split
    · next hzero => exact .done hzero
    · next hne =>
      have hlighter := (h f hf).lighter hne
      exact .again hne (ih (hkept f hf) (by omega))

/-- A function at which a pass settles is not changed by it. -/
theorem Settles.fixed (hkept : ∀ g, P g → P (pass g).2) (h : ∀ g, P g → pass.Lightens weight g) {n : Nat}
    (hs : pass.Settles f n g) (hf : P f) :
  P g ∧ pass g = (0, g)
  := by
  induction hs with
  | @done f hzero =>
    rw [(h f hf).same hzero]
    exact ⟨hf, Prod.ext hzero ((h f hf).same hzero)⟩
  | again _ _ ih => exact ih (hkept _ hf)

theorem repeated_of_fixed (h : pass f = (0, f)) (bound : Nat) :
  pass.repeated bound f = (0, f)
  := by
  cases bound with
  | zero => rfl
  | succ bound => simp only [Pass.repeated, h, if_true]

end Pass

namespace Fold

/-! ### Rounds -/

theorem lightens_beforeBranches (h : f.IsOrderly) :
  beforeBranches.Lightens Function.weight f
  := by
  have hvalues := keepsOrder_values f h
  have hcopies := keepsOrder_copies _ hvalues
  unfold beforeBranches
  refine .cons (lightens_values f) (.cons (lightens_copies hvalues.verify hvalues.reached) ?_)
  exact .cons (lightens_storedValues hcopies.verify) (.cons (lightens_singleStoredValues _)
    (.cons (lightens_boundsChecks _) (.nil _ _)))

theorem lightens_fromBranches (hf : f.verify = .ok ()) :
  fromBranches.Lightens Function.weight f
  := by
  have hbranches := (isSound_branches f hf).1
  have hparams := (isSound_blockParams _ hbranches).1
  unfold fromBranches
  exact .cons (lightens_branches f) (.cons (lightens_blockParams _)
    (.cons (lightens_jumpChains hparams) (.nil _ _)))

/-- A round drops no blocks unless it changes something before: until then, all of them are reached. -/
theorem lightens_round (h : f.IsOrderly) :
  round.Lightens Function.weight f
  := by
  have hbefore := lightens_beforeBranches h
  have hfrom := lightens_fromBranches (keepsOrder_beforeBranches f h).verify
  have hunread := lightens_unread (fromBranches (beforeBranches f).2).2.removeUnreachable.2
  have hremoved := weight_removeUnreachable (fromBranches (beforeBranches f).2).2
  have hhead : (beforeBranches f).1 = 0 → (fromBranches (beforeBranches f).2).1 = 0 →
      (fromBranches (beforeBranches f).2).2.removeUnreachable = (0, f) := by
    intro hfirst hsecond
    rw [hfrom.same hsecond, hbefore.same hfirst]
    exact ((removeUnreachable_cases f).resolve_right fun hnot => hnot.1 h.reached).2
  constructor
  · intro hzero
    simp only [round_eq, Nat.add_eq_zero_iff] at hzero ⊢
    obtain ⟨hfirst, hsecond, -, hlast⟩ := hzero
    rw [hunread.same hlast, hhead hfirst hsecond]
  · intro hne
    simp only [round_eq] at hne ⊢
    by_cases hfirst : (beforeBranches f).1 = 0
    · by_cases hsecond : (fromBranches (beforeBranches f).2).1 = 0
      · have hkept := hhead hfirst hsecond
        rw [hkept] at hunread ⊢
        refine hunread.lighter fun hzero => hne ?_
        simp only [hfirst, hsecond, hkept, hzero]
      · have hlighter := hfrom.lighter hsecond
        rw [hbefore.same hfirst] at hlighter hunread hremoved ⊢
        exact (hunread.le.trans hremoved).trans_lt hlighter
    · exact ((hunread.le.trans hremoved).trans hfrom.le).trans_lt (hbefore.lighter hfirst)

theorem settles_round (h : f.IsOrderly) :
  round.Settles f (foldConstants f).1 (foldConstants f).2
  := Pass.settles_repeated keepsOrder_round (fun _ => lightens_round) h f.weight_lt_roundLimit.le

/-! ### Loops of a round -/

/-- The number of jumps at the end of a block. -/
def jumps (b : Block) : Nat :=
  match b.terminator with
  | .jump _ _ => 1
  | _ => 0

theorem jumps_le (b : Block) :
  jumps b ≤ 1
  := by
  unfold jumps
  split <;> omega

/-- Each joint uses up a jump. -/
theorem settles_joinFirst (hf : f.verify = .ok ()) :
  joinFirst.Settles f (jumpChains f).1 (jumpChains f).2
  := by
  have hlightens : ∀ g : Function, g.verify = .ok () →
      joinFirst.Lightens (fun g => (g.blocks.map jumps).sum) g := by
    intro g hg
    rcases exists_of_joinFirst hg with heq | ⟨into, source, hjoin, heq⟩
    · exact ⟨fun _ => by rw [heq], fun hne => absurd (by rw [heq]) hne⟩
    · refine ⟨fun hzero => absurd (by rw [heq] at hzero; exact hzero) one_ne_zero, fun _ => ?_⟩
      have hsum := sum_join hjoin jumps
      have hinto : jumps (g.block into) = 1 := by simp only [jumps, hjoin.jump]
      have hjoined : jumps ((join g into source).block into) = jumps (g.block source) := by
        rw [hjoin.block_into]
        rfl
      rw [hinto, hjoined, show jumps .empty = 0 from rfl] at hsum
      rw [heq]
      dsimp only
      omega
  refine Pass.settles_repeated (fun g hg => (isSound_joinFirst g hg).1) hlightens hf ?_
  have hsum := List.sum_le_card_nsmul (f.blocks.map jumps) 1 (by simp [jumps_le])
  simpa using hsum

/-- Each removal of unread results takes away instructions. -/
theorem settles_unreadOnce (f : Function) :
  unreadOnce.Settles f (unread f).1 (unread f).2
  := by
  have hlightens : ∀ g, unreadOnce.Lightens Function.instrCount g := by
    intro g
    refine .of_add_le (lightens_unreadOnce g).same ?_
    simp only [Function.instrCount, unreadOnce, Pass.keepInstrs, Pass.onBlocks, total_eq_sum, List.map_map]
    exact sum_map_add_le fun b _ => by
      have hle := List.length_filter_le (fun line : Line => !(line.instr.isPure
        && line.instr.def?.any fun dst => g.useCount dst = 0)) b.body
      simp only [Function.comp_apply]
      omega
  exact Pass.settles_repeated (P := fun _ => True) (fun _ _ => trivial) (fun g _ => hlightens g) trivial le_rfl

end Fold

/-! ### Constant folding -/

/--
Nothing stops the folding of constants in a well-formed function whose blocks are all reached and whose
integers have from one bit to as many as a word. Its rounds, and the loops in them, come to an end, and
what they end at is not changed by folding constants once more.
-/
theorem foldConstants_settles (hf : f.verify = .ok ()) (hreached : f.AllReached) (hintegers : f.HasWordIntegers) :
  PartialPass.foldConstants.fault? f = none
    ∧ Fold.round.Settles f (foldConstants f).1 (foldConstants f).2
    ∧ PartialPass.foldConstants.fault? (foldConstants f).2 = none
    ∧ foldConstants (foldConstants f).2 = (0, (foldConstants f).2)
    ∧ ∀ g : Function, g.verify = .ok () →
      Fold.joinFirst.Settles g (Fold.jumpChains g).1 (Fold.jumpChains g).2
        ∧ Fold.unreadOnce.Settles g (Fold.unread g).1 (Fold.unread g).2
  := by
  have h : f.IsOrderly := ⟨hf, hreached, hintegers⟩
  have hsettles := Fold.settles_round h
  obtain ⟨horderly, hfixed⟩ := hsettles.fixed Fold.keepsOrder_round (fun _ => Fold.lightens_round) h
  exact ⟨h.fault?_foldConstants, hsettles, horderly.fault?_foldConstants, Pass.repeated_of_fixed hfixed _,
    fun g hg => ⟨Fold.settles_joinFirst hg, Fold.settles_unreadOnce g⟩⟩

theorem foldConstants_settles_comparesSum :
  comparesSum.verify = .ok () ∧ (∀ id < comparesSum.blocks.length, id ∈ comparesSum.reversePostorder)
    ∧ comparesSum.HasWordIntegers ∧ (foldConstants comparesSum).1 ≠ 0
    ∧ foldConstants (foldConstants comparesSum).2 = (0, (foldConstants comparesSum).2)
  := by
  have hverify : comparesSum.verify = .ok () := by decide +kernel
  have hreached : comparesSum.AllReached := by unfold Function.AllReached; decide +kernel
  have hintegers : comparesSum.HasWordIntegers := by
    intro bits hbits
    obtain rfl : bits = 64 := by simpa [comparesSum] using hbits
    omega
  exact ⟨hverify, hreached, hintegers, by decide +kernel,
    (foldConstants_settles hverify hreached hintegers).2.2.2.1⟩

/-- Shifts an integer of 128 bits to the right by as many bits as a word has. -/
def shiftsWide : Function where
  name := "f"
  params := []
  result := .int 128
  blocks :=
    [ ⟨[],
        [ ⟨.set 0 (.const (.int 1)), none⟩, ⟨.set 1 (.const (.int 64)), none⟩,
          ⟨.set 2 (.binary .shr 0 1), none⟩ ],
        .ret (some 2)⟩ ]
  entry := 0
  varTypes := List.replicate 3 (.int 128)
  slots := []
  loops := []
  flags := .none

/-- The folding of constants is stopped where an integer is wider than a word. -/
theorem fault?_foldConstants_shiftsWide :
  shiftsWide.verify = .ok () ∧ shiftsWide.AllReached
    ∧ PartialPass.foldConstants.fault? shiftsWide = some .wideShift
  := ⟨by decide +kernel, by unfold Function.AllReached; decide +kernel, by decide +kernel⟩

end FormCompiler.Flow
