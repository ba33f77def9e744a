import FormCompiler.Proofs.Optimize.PlainLoop
import FormCompiler.Proofs.Optimize.Rounds

/-!
# Rounds in front of a loop

If there are at least so many rounds, some rounds of a loop may be copied to the end of its preheader.
The loop then has so many rounds less. As this changes one block only, the other plain loops of the
function stay as they are: plain loops with different headers have no block in common, and neither
contains the preheader of the other (`Rewrites`).
-/

namespace FormCompiler.Flow

open Verify (IsSite IsDefinedAt Site)

/-! ## Other loops -/

/-- What is needed of a loop so that it can be unrolled if it is plain. -/
structure LoopInfo.IsReady (f : Function) (l : LoopInfo) : Prop where
  wellFormed : l.IsWellFormed f
  entry : f.entry ∉ l.blocks
  exit : l.exit ∉ l.blocks
  header : ∀ {test body}, l.IsPlain f test body → l.header ∈ f.reversePostorder
  own : ∀ {test body}, l.IsPlain f test body → ∀ id ∉ l.blocks, ∀ v ∈ (f.block id).uses,
    v ∉ (f.block l.header).defs

/-- A loop has as many rounds as its counter says, if it is plain. -/
def LoopInfo.HasRounds (W : World) (f : Function) (l : LoopInfo) : Prop :=
  ∀ i trip test body, l.induction = some i → i.tripCount? = some trip → l.IsPlain f test body →
    ∃ left, CountsDown W f l test body left trip

/-- A function differs from another one in the preheader of a plain loop, its body and its latch only. -/
structure Rewrites (l : LoopInfo) (body : BlockId) (f g : Function) : Prop where
  verify : g.verify = .ok ()
  entry : g.entry = f.entry
  loops : g.loops = f.loops
  length : g.blocks.length = f.blocks.length
  extend : f.Extends g
  other : ∀ d, d ≠ l.preheader → d ≠ body → d ≠ l.latch → g.block d = f.block d
  uses : ∀ d, d ∈ l.blocks ∨ d = l.preheader → ∀ v ∈ (g.block d).uses,
    f.varTypes.length ≤ v ∨ ∃ d', (d' ∈ l.blocks ∨ d' = l.preheader) ∧ v ∈ (f.block d').uses
  reached : ∀ d ∉ l.blocks, d ∈ f.reversePostorder → d ∈ g.reversePostorder
  wellFormed : ∀ l' : LoopInfo, l'.header ≠ l.header → l'.IsWellFormed f → l'.IsWellFormed g
  plain : ∀ (l' : LoopInfo) test' body', l'.header ≠ l.header → l'.IsWellFormed f → l'.IsPlain g test' body' →
    l'.IsPlain f test' body'

namespace Rewrites

variable {f g : Function} {l l' : LoopInfo} {test test' : VarId} {body body' d : BlockId}
  {hidden : VarId → Prop}

/-- Where two plain loops are. -/
theorem apart (h : Unrollable f l test body) (hne : l'.header ≠ l.header) (hl' : l'.IsWellFormed f)
    (hp : l'.IsPlain f test' body') (hd : d ∈ l'.blocks ∨ d = l'.preheader) :
  d ∉ l.blocks ∧ d ≠ l.preheader
  := by
  obtain ⟨args, hjump⟩ := hl'.jump
  rcases hd with hd | rfl
  · use fun hmem => h.plain.disjoint hp hne hmem hd
    rintro rfl
    exact hp.not_mem_of_jump h.plain hne.symm h.jump hd
  · use h.plain.not_mem_of_jump hp hne hjump
    intro heq
    rw [heq, h.jump] at hjump
    exact hne (Terminator.jump.inj hjump).1.symm

variable (r : Rewrites l body f g) (h : Unrollable f l test body)

include r h

theorem block_eq (hd : d ∉ l.blocks ∧ d ≠ l.preheader) :
  g.block d = f.block d
  := by
  apply r.other d hd.2
  · rintro rfl
    exact hd.1 h.plain.body_mem
  · rintro rfl
    exact hd.1 h.plain.latch_mem

theorem varType {i : Instr} (hi : i ∈ (f.block d).instrs) {v : VarId} (hdef : i.def? = some v) :
  f.varType v = g.varType v
  := by
  have hv : v ∈ (f.block d).defs := List.mem_append_right _ (List.mem_filterMap.mpr ⟨i, hi, hdef⟩)
  exact (Function.varType_of_prefix r.extend.varTypes (Verify.lt_of_mem_defs h.verify hv)).symm

/-- Blocks that are not changed read nothing that the loop defines. -/
theorem sameBlock (hhidden : ∀ v, hidden v → ∃ d ∈ l.blocks, v ∈ (f.block d).defs)
    (hd : d ∉ l.blocks ∧ d ≠ l.preheader) :
  SameBlock f g hidden d
  where
  instrs := by rw [r.block_eq h hd]
  terminator := by rw [r.block_eq h hd]
  types _ hi _ hdef := r.varType h hi hdef
  visible v hv hhide := by
    obtain ⟨d', hd', hdef⟩ := hhidden v hhide
    exact h.own d hd.1 v hv d' hd' hdef

theorem isReady (hne : l'.header ≠ l.header) (hr : l'.IsReady f) :
  l'.IsReady g
  where
  wellFormed := r.wellFormed l' hne hr.wellFormed
  entry := r.entry ▸ hr.entry
  exit := hr.exit
  header hp := by
    have hp' := r.plain l' _ _ hne hr.wellFormed hp
    exact r.reached _ (apart h hne hr.wellFormed hp' (.inl hp'.header_mem)).1 (hr.header hp')
  own hp id hid v hv hdef := by
    have hp' := r.plain l' _ _ hne hr.wellFormed hp
    rw [r.block_eq h (apart h hne hr.wellFormed hp' (.inl hp'.header_mem))] at hdef
    by_cases hchanged : id ∈ l.blocks ∨ id = l.preheader
    · -- What is new reads new variables, or what was read around the loop before.
      rcases r.uses id hchanged v hv with hle | ⟨d', hd', hv'⟩
      · exact Nat.not_lt_of_le hle (Verify.lt_of_mem_defs h.verify hdef)
      · refine hr.own hp' d' (fun hmem => ?_) v hv' hdef
        have hapart := apart h hne hr.wellFormed hp' (.inl hmem)
        exact hd'.elim hapart.1 hapart.2
    · rw [r.block_eq h (not_or.mp hchanged)] at hv
      exact hr.own hp' id hid v hv hdef

theorem hasRounds {W : World} {meeting : Point → Prop} {inner : BlockId → Prop}
    (hs : Strides W f g hidden meeting inner) (hhidden : ∀ v, hidden v → ∃ d ∈ l.blocks, v ∈ (f.block d).defs)
    (hinner : ∀ d, inner d → d ∈ l.blocks) (hne : l'.header ≠ l.header) (hr : l'.IsReady f)
    (hrounds : l'.HasRounds W f) :
  l'.HasRounds W g
  := by
  intro i trip test' body' hi htrip hp
  have hp' := r.plain l' _ _ hne hr.wellFormed hp
  have hsame : ∀ d, d ∈ l'.blocks ∨ d = l'.preheader → SameBlock f g hidden d ∧ ¬inner d := by
    intro d hd
    have hapart := apart h hne hr.wellFormed hp' hd
    exact ⟨r.sameBlock h hhidden hapart, fun hin => hapart.1 (hinner d hin)⟩
  obtain ⟨left, hc⟩ := hrounds i trip test' body' hi htrip hp'
  use left
  apply hc.transfer hs h.ssa hp' fun d hd => hsame d (.inl hd)
  intro t ht
  obtain ⟨hblock, hin⟩ := hsame l'.preheader (.inr rfl)
  obtain ⟨s, hgets, hst⟩ := hs.gets_end h.ssa hblock hin ht
  rw [← hst.1]
  exact hc.start s hgets

end Rewrites

/-- Plain loops are plain as long as control goes the same ways and the test is the same. -/
theorem SameShape.isPlain {f g : Function} (hfg : SameShape f g) {l : LoopInfo} {test : VarId}
    {body : BlockId} (hheader : (g.block l.header).instrs = (f.block l.header).instrs) :
  l.IsPlain g test body ↔ l.IsPlain f test body
  := by
  constructor
  · rintro ⟨hblocks, hbranch, hto, hback, hne, hparams, hpure⟩
    rw [hfg.terminator] at hbranch hto hback
    rw [hheader] at hpure
    exact ⟨hblocks, hbranch, hto, hback, hne, fun id hid => hfg.blockParams id ▸ hparams id hid, hpure⟩
  · rintro ⟨hblocks, hbranch, hto, hback, hne, hparams, hpure⟩
    rw [← hfg.terminator] at hbranch hto hback
    rw [← hheader] at hpure
    exact ⟨hblocks, hbranch, hto, hback, hne, fun id hid => (hfg.blockParams id).trans (hparams id hid), hpure⟩

/-- Changing instructions of the preheader, the body and the latch changes no other loop. -/
theorem Unrollable.rewrites_of_sameShape {f g : Function} {l : LoopInfo} {test : VarId} {body : BlockId}
    (h : Unrollable f l test body) (hverify : g.verify = .ok ()) (hfg : SameShape f g)
    (hextends : f.Extends g)
    (hother : ∀ d, d ≠ l.preheader → d ≠ body → d ≠ l.latch → g.block d = f.block d)
    (huses : ∀ d, d ∈ l.blocks ∨ d = l.preheader → ∀ v ∈ (g.block d).uses,
      f.varTypes.length ≤ v ∨ ∃ d', (d' ∈ l.blocks ∨ d' = l.preheader) ∧ v ∈ (f.block d').uses) :
  Rewrites l body f g
  where
  verify := hverify
  entry := hfg.entry
  loops := hfg.loops
  length := hfg.length
  extend := hextends
  other := hother
  uses := huses
  reached _ _ hd := hfg.mem_reversePostorder.mpr hd
  wellFormed _ _ hl' := hfg.isWellFormed hl'
  plain l' test' body' _ _ hp := by
    refine (hfg.isPlain ?_).mp hp
    -- The header of a plain loop ends with a branch, and the blocks that are changed do not.
    have hbranch := hp.branch
    rw [hfg.terminator] at hbranch
    have hne : ∀ {d next}, (f.block d).terminator = .jump next [] → l'.header ≠ d := by
      rintro d next hjump rfl
      rw [hjump] at hbranch
      cases hbranch
    rw [hother _ (hne h.jump) (hne h.plain.toLatch) (hne h.plain.back)]

/-! ## Rounds at the end of the preheader -/

namespace Unroll

/-- The lines of a candidate are those of the blocks of a loop. -/
structure Candidate.IsOf (c : Candidate) (f : Function) (l : LoopInfo) : Prop where
  test : c.test = (f.block l.header).body
  round : c.round = (f.block c.body).body ++ (f.block l.latch).body

section

variable {f : Function} {l : LoopInfo} {test : VarId} {c : Candidate} {d : BlockId}

theorem Candidate.IsOf.instrs_round (hc : c.IsOf f l) :
  instrs c.round = l.round f c.body
  := by
  simp [instrs, hc.round, LoopInfo.round, Block.instrs]

theorem Candidate.IsOf.instrs_wholeRound (hc : c.IsOf f l) :
  instrs (c.test ++ c.round) = l.wholeRound f c.body
  := by
  simp [instrs, hc.test, hc.round, LoopInfo.wholeRound, LoopInfo.round, Block.instrs]

/-- What a round of a well-formed function defines has a type. -/
theorem lt_of_mem_wholeRound (h : Unrollable f l test c.body) :
  ∀ i ∈ l.wholeRound f c.body, ∀ v, i.def? = some v → v < f.varTypes.length
  := by
  intro i hi v hdef
  obtain ⟨d, -, hv⟩ := h.mem_defs_of_mem_wholeRound hi hdef
  exact Verify.lt_of_mem_defs h.verify hv

theorem instr_of_mem_wholeRound (h : Unrollable f l test c.body) :
  ∀ i ∈ l.wholeRound f c.body, Verify.instr f i = .ok ()
  := by
  intro i hi
  simp only [LoopInfo.wholeRound, LoopInfo.round, List.mem_append] at hi
  rcases hi with hi | hi | hi <;> exact Verify.instr_of_mem h.verify hi

/-- The copies of rounds that go in front of a loop. -/
def peeled (c : Candidate) (n : Nat) (f : Function) : List Line := (copyTimes (c.test ++ c.round) n f).1

section

variable (h : Unrollable f l test c.body) (hc : c.IsOf f l) (n : Nat)

include h hc n

theorem copies_peeled :
  Copies f f (copyTimes (c.test ++ c.round) n f).2 n (l.wholeRound f c.body) (instrs (peeled c n f))
  := by
  rw [← hc.instrs_wholeRound]
  apply copies_copyTimes ⟨rfl, List.prefix_rfl⟩
  rw [hc.instrs_wholeRound]
  exact lt_of_mem_wholeRound h

theorem block_appendRounds (d : BlockId) :
  (appendRounds c l.preheader n f).block d
    = if d = l.preheader then { f.block d with body := (f.block d).body ++ peeled c n f } else f.block d
  := by
  obtain ⟨more, hframe, -⟩ := (copies_peeled h hc n).frame
  have hblocks : (copyTimes (c.test ++ c.round) n f).2.blocks = f.blocks := by rw [hframe]
  have hblock : (copyTimes (c.test ++ c.round) n f).2.block = f.block := by
    funext d
    simp only [Function.block, hblocks]
  unfold appendRounds
  simp only
  rw [Function.block_modifyBlock (by rw [hblocks]; exact h.preheader_lt), hblock]
  rfl

theorem block_appendRounds_of_ne (hd : d ≠ l.preheader) :
  (appendRounds c l.preheader n f).block d = f.block d
  := by
  rw [block_appendRounds h hc, if_neg hd]

theorem instrs_appendRounds :
  ((appendRounds c l.preheader n f).block l.preheader).instrs
    = (f.block l.preheader).instrs ++ instrs (peeled c n f)
  := by
  rw [block_appendRounds h hc, if_pos rfl]
  simp [Block.instrs, instrs]

theorem sameShape_appendRounds :
  SameShape f (appendRounds c l.preheader n f)
  := by
  obtain ⟨more, hframe, -⟩ := (copies_peeled h hc n).frame
  refine ⟨?_, ?_, ?_, ?_, ?_, fun d => ?_, fun d => ?_⟩
  · simp [appendRounds, Function.modifyBlock, hframe]
  · simp [appendRounds, Function.modifyBlock, hframe]
  · simp [appendRounds, Function.modifyBlock, hframe]
  · simp [appendRounds, Function.modifyBlock, hframe]
  · simp [appendRounds, Function.modifyBlock, hframe]
  · rw [block_appendRounds h hc]
    split <;> rfl
  · rw [block_appendRounds h hc]
    split <;> rfl

theorem extends_appendRounds :
  (copyTimes (c.test ++ c.round) n f).2.Extends (appendRounds c l.preheader n f)
    ∧ f.Extends (appendRounds c l.preheader n f)
  := by
  have hextends := (copies_peeled h hc n).toExtends
  exact ⟨⟨rfl, List.prefix_rfl⟩, ⟨hextends.slots, hextends.varTypes⟩⟩

theorem defs_appendRounds :
  ((appendRounds c l.preheader n f).block l.preheader).defs
    = (f.block l.preheader).defs ++ (instrs (peeled c n f)).filterMap Instr.def?
  := by
  rw [Block.defs, instrs_appendRounds h hc, (sameShape_appendRounds h hc n).blockParams,
    List.filterMap_append, ← List.append_assoc]
  rfl

/-- What is known at the start of a block is still known. -/
theorem isKnown_appendRounds (hd : d ∈ f.reversePostorder) {v : VarId} (hv : IsKnown f d v) :
  IsKnown (appendRounds c l.preheader n f) d v
  := by
  have hshape := sameShape_appendRounds h hc n
  rcases hv with hparam | ⟨d', hne, hdominates, hdef⟩
  · exact .inl (by rwa [hshape.blockParams])
  · refine .inr ⟨d', hne, hshape.dominates hd hdominates, ?_⟩
    by_cases heq : d' = l.preheader
    · rw [heq, defs_appendRounds h hc]
      exact List.mem_append_left _ (heq ▸ hdef)
    · rwa [block_appendRounds_of_ne h hc n heq]

theorem isSsa_appendRounds :
  (appendRounds c l.preheader n f).IsSsa
  := by
  have hshape := sameShape_appendRounds h hc n
  obtain ⟨-, hnodup, -⟩ := Function.isSsa_iff.mp h.ssa
  have hcopies := copies_peeled h hc n
  apply hshape.isSsa_of_nodup h.ssa
  · apply nodup_defs_of_fresh hnodup (fun d v hv => Verify.lt_of_mem_defs h.verify hv)
      (defs_appendRounds h hc n) (List.Sublist.refl _)
    · exact ⟨hcopies.fresh.1, fun v hv => (hcopies.fresh.2 v hv).1⟩
    · intro d hd
      rw [block_appendRounds_of_ne h hc n hd]
  · intro d hd
    rw [hshape.terminator]
    by_cases heq : d = l.preheader
    · subst heq
      have hscoped := (h.ssa.scoped hd).mono fun v => isKnown_appendRounds h hc n hd
      rw [h.jump] at hscoped ⊢
      rw [instrs_appendRounds h hc, scoped_append]
      refine ⟨hscoped, (hcopies.reads _ h.scoped_wholeRound).mono fun v hv => ?_⟩
      have hend := h.isDefinedAt_before hd h.wellFormed.header_mem_successors h.plain.header_mem hv
      refine (h.isDefinedAt_end hd hend).imp_left fun hstart => ?_
      exact isKnown_appendRounds h hc n hd ((h.isKnown_iff hd).mpr hstart)
    · rw [block_appendRounds_of_ne h hc n heq]
      exact (h.ssa.scoped hd).mono fun v => isKnown_appendRounds h hc n hd

theorem verify_appendRounds :
  (appendRounds c l.preheader n f).verify = .ok ()
  := by
  have hcopies := copies_peeled h hc n
  obtain ⟨hall, hextends⟩ := extends_appendRounds h hc n
  apply Function.verify_of_sameShape h.verify (isSsa_appendRounds h hc n) (sameShape_appendRounds h hc n)
    hextends
  intro d i hi
  by_cases heq : d = l.preheader
  · rw [heq, instrs_appendRounds h hc] at hi
    refine (List.mem_append.mp hi).imp (fun hi => heq ▸ hi) fun hi => ⟨?_, fun v hdef => ?_⟩
    · exact Verify.keeps_instr hall i () (hcopies.instr (instr_of_mem_wholeRound h) i hi)
    · exact (hcopies.fresh.2 v (List.mem_filterMap.mpr ⟨i, hi, hdef⟩)).2
  · rw [block_appendRounds_of_ne h hc n heq] at hi
    exact .inl hi

theorem rewrites_appendRounds :
  Rewrites l c.body f (appendRounds c l.preheader n f)
  := by
  apply h.rewrites_of_sameShape (verify_appendRounds h hc n) (sameShape_appendRounds h hc n)
    (extends_appendRounds h hc n).2
  · exact fun d hd _ _ => block_appendRounds_of_ne h hc n hd
  · intro d hd v hv
    by_cases heq : d = l.preheader
    · rw [Block.uses, (sameShape_appendRounds h hc n).terminator, heq, instrs_appendRounds h hc,
        List.flatMap_append, List.append_assoc, List.mem_append, List.mem_append] at hv
      rcases hv with hv | hv | hv
      · exact .inr ⟨l.preheader, .inr rfl, List.mem_append_left _ hv⟩
      · obtain ⟨i, hi, hv⟩ := List.mem_flatMap.mp hv
        refine ((copies_peeled h hc n).uses i hi v hv).imp_right ?_
        rintro ⟨i', hi', hv'⟩
        obtain ⟨d', hd', huse⟩ := h.mem_uses_of_mem_wholeRound hi' hv'
        exact ⟨d', .inl hd', huse⟩
      · exact .inr ⟨l.preheader, .inr rfl, List.mem_append_right _ hv⟩
    · rw [block_appendRounds_of_ne h hc n heq] at hv
      exact .inr ⟨d, hd, hv⟩

/-- The loop can still be unrolled. -/
theorem unrollable_appendRounds :
  Unrollable (appendRounds c l.preheader n f) l test c.body
  where
  verify := verify_appendRounds h hc n
  plain := by
    refine ((sameShape_appendRounds h hc n).isPlain ?_).mpr h.plain
    rw [block_appendRounds_of_ne h hc n (h.preheader_ne h.plain.header_mem)]
  wellFormed := (sameShape_appendRounds h hc n).isWellFormed h.wellFormed
  entry := (sameShape_appendRounds h hc n).entry ▸ h.entry
  exit := h.exit
  header := (sameShape_appendRounds h hc n).mem_reversePostorder.mpr h.header
  own id hid v hv d hd hdef := by
    rw [block_appendRounds_of_ne h hc n (h.preheader_ne hd)] at hdef
    by_cases heq : id = l.preheader
    · subst heq
      have hlt := Verify.lt_of_mem_defs h.verify hdef
      rw [Block.uses, (sameShape_appendRounds h hc n).terminator, instrs_appendRounds h hc,
        List.flatMap_append, List.append_assoc, List.mem_append, List.mem_append] at hv
      rcases hv with hv | hv | hv
      · exact h.own _ hid v (List.mem_append_left _ hv) d hd hdef
      · -- Copies read other copies, or what is defined before the loop.
        obtain ⟨i, hi, hv⟩ := List.mem_flatMap.mp hv
        obtain ⟨j, hj⟩ := List.getElem?_of_mem hi
        have hscoped := scoped_iff.mp ((copies_peeled h hc n).reads _ h.scoped_wholeRound)
        rcases hscoped.1 j i hj v hv with hknown | ⟨k, -, i', hi', hfresh⟩
        · exact h.not_mem_defs_start hknown hd hdef
        · have hmem := List.mem_filterMap.mpr ⟨i', List.mem_of_getElem? hi', hfresh⟩
          exact Nat.not_le_of_lt hlt ((copies_peeled h hc n).fresh.2 v hmem).1
      · exact h.own _ hid v (List.mem_append_right _ hv) d hd hdef
    · rw [block_appendRounds_of_ne h hc n heq] at hv
      exact h.own id hid v hv d hd hdef

end

/-! ### Runs -/

variable {W : World} {left : Nat → Store → Prop} {m n : Nat} {s t : State}

variable (h : Unrollable f l test c.body)

include h

/-- From the preheader and through some rounds. -/
theorem steps_preheader (hcount : CountsDown W f l test c.body left (m + n)) (hs : Gets W f l.preheader 0 s) :
  steps (f.step W W.caller) (3 * n + 1) (l.preheader, s)
      = (runAll W W.caller f.varType (f.block l.preheader).instrs s
          >>= runAll W W.caller f.varType (List.replicate n (l.wholeRound f c.body)).flatten)
        >>= (fun s' => .ok (l.header, s'))
    ∧ ∀ s', (runAll W W.caller f.varType (f.block l.preheader).instrs s
        >>= runAll W W.caller f.varType (List.replicate n (l.wholeRound f c.body)).flatten) = .ok s' →
      left m s'.store
  := by
  rw [steps, Function.step]
  simp only
  cases hrun : runAll W W.caller f.varType (f.block l.preheader).instrs s with
  | error stop => exact ⟨rfl, fun s' hs' => by cases hs'⟩
  | ok s₁ =>
    have hstep : (f.block l.preheader).terminator.run f s₁ = .ok (l.header, s₁) := by
      rw [h.jump]
      exact Terminator.run_jump_nil (h.plain.params _ h.plain.header_mem) s₁
    have hend := hs.runBody hrun
    obtain ⟨hsteps, hleft⟩ := hcount.steps_rounds h (hend.last hstep) (hcount.start s₁ hend)
    refine ⟨?_, hleft⟩
    change (_ >>= _) = (runAll W W.caller f.varType _ s₁ >>= _)
    rw [← hsteps]
    change ((f.block l.preheader).terminator.run f s₁ >>= _) = _
    rw [hstep]
    rfl

/-- The instructions at the end of the preheader do what the rounds do. -/
theorem agree_preheader (hc : c.IsOf f l) (n : Nat)
    (hst : Joint W f (fun _ => False) (l.preheader, s) (l.preheader, t)) :
  Agree (Similar (Unseen f (fun _ => False) l.preheader (f.block l.preheader).instrs.length))
    (runAll W W.caller f.varType (f.block l.preheader).instrs s
      >>= runAll W W.caller f.varType (List.replicate n (l.wholeRound f c.body)).flatten)
    ((appendRounds c l.preheader n f).runBody W W.caller (l.preheader, t))
  := by
  have hcopies := copies_peeled h hc n
  have hdefined : ∀ {v}, IsDefinedAt f l.header 0 v →
      IsDefinedAt f l.preheader (f.block l.preheader).instrs.length v := fun hv =>
    h.isDefinedAt_before h.preheader h.wellFormed.header_mem_successors h.plain.header_mem hv
  unfold Function.runBody
  rw [instrs_appendRounds h hc, runAll_append]
  apply (agree_instrs h.ssa h.preheader (fun i hi v hdef => ?_) (fun _ _ => not_false) hst.similar).bind
  · intro s₁ t₁ hst₁
    apply hcopies.run _ _ _ _ hst₁
    · exact h.scoped_wholeRound.mono fun v hv => not_unseen (hdefined hv) not_false
    · intro i hi v hdef hv
      obtain ⟨d, hd, hmem⟩ := h.mem_defs_of_mem_wholeRound hi hdef
      exact h.not_isDefinedAt_preheader hd hmem hv
    · intro v hle hv
      exact Nat.not_lt_of_le hle (hv.lt h.verify)
    · exact fun v hv => rfl
  · exact (rewrites_appendRounds h hc n).varType h hi hdef

theorem sameBlock_appendRounds (hc : c.IsOf f l) (n : Nat) (hd : d ≠ l.preheader) :
  SameBlock f (appendRounds c l.preheader n f) (fun _ => False) d
  where
  instrs := by rw [block_appendRounds_of_ne h hc n hd]
  terminator := by rw [block_appendRounds_of_ne h hc n hd]
  types _ hi _ hdef := (rewrites_appendRounds h hc n).varType h hi hdef
  visible _ _ := not_false

theorem strides_appendRounds (hc : c.IsOf f l) (hcount : CountsDown W f l test c.body left (m + n)) :
  Strides W f (appendRounds c l.preheader n f) (fun _ => False) (fun _ => True) (fun _ => False)
  where
  entry := (sameShape_appendRounds h hc n).entry
  params := (sameShape_appendRounds h hc n).params
  start _ _ _ := trivial
  stride {p q} hpq _ := by
    have hshape := sameShape_appendRounds h hc n
    obtain ⟨id, s⟩ := p
    obtain ⟨_, t⟩ := q
    obtain rfl := hpq.same
    by_cases hid : id = l.preheader
    · subst hid
      refine ⟨3 * n, 0, hpq.agree_steps ?_, fun k q' hpos hle => absurd hpos (Nat.not_lt_of_le hle)⟩
      rw [(steps_preheader h hcount hpq.gets).1, Nat.zero_add, steps_one]
      apply (agree_preheader h hc n hpq).bind
      intro s' t' hst
      have hparams := h.plain.params _ h.plain.header_mem
      refine ⟨(l.header, t'), ?_, rfl, ?_, trivial⟩
      · rw [hshape.terminator, h.jump]
        exact Terminator.run_jump_nil ((hshape.blockParams _).trans hparams) t'
      · exact hst.enter h.ssa h.preheader h.wellFormed.header_mem_successors hparams
    · refine ⟨0, 0, ?_, fun k q' hpos hle => absurd hpos (Nat.not_lt_of_le hle)⟩
      rw [Nat.zero_add, steps_one, steps_one]
      exact ((sameBlock_appendRounds h hc n hid).agree_step h.ssa hshape.blockParams hpq).and
        fun _ _ => trivial

/-- The loop has so many rounds less. -/
theorem countsDown_appendRounds (hc : c.IsOf f l) (hcount : CountsDown W f l test c.body left (m + n)) :
  CountsDown W (appendRounds c l.preheader n f) l test c.body left m
  := by
  have hstrides := strides_appendRounds h hc hcount
  apply hcount.transfer hstrides h.ssa h.plain
  · exact fun d hd => ⟨sameBlock_appendRounds h hc n (h.preheader_ne hd), not_false⟩
  · rintro t ⟨args, vars, store, k, t₀, hsteps, ht⟩
    obtain ⟨s₀, hjoint, -⟩ := hstrides.joint_of_gets not_false ⟨args, vars, store, k, t₀, hsteps, rfl⟩
    rw [List.take_length] at ht
    obtain ⟨s, hs, hst⟩ := (agree_preheader h hc n hjoint).of_ok ht
    rw [← hst.1]
    exact (steps_preheader h hcount hjoint.gets).2 s hs

end

end Unroll

end FormCompiler.Flow
