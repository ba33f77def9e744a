import FormCompiler.Proofs.Optimize.Peeled

/-!
# Loops with several rounds in their body

If the number of rounds of a loop is a multiple of a factor, then its body may do as many rounds at once
as the factor says. The first of them uses the test of the header, and the latch has nothing left to do.
Only when the body and the latch have run, the new function is where the old one is after all these
rounds.
-/

namespace FormCompiler.Flow

open Verify (IsSite IsDefinedAt Site)

namespace Unroll

/-- The first round of a body. -/
def firstRound (c : Candidate) (f : Function) : List Line × Function := copyLines [] c.round f

/-- The other rounds of a body. -/
def moreRounds (c : Candidate) (factor : Nat) (f : Function) : List Line × Function :=
  copyTimes (c.test ++ c.round) (factor - 1) (firstRound c f).2

/-- The rounds of a body. -/
def allRounds (c : Candidate) (factor : Nat) (f : Function) : List Instr :=
  instrs (firstRound c f).1 ++ instrs (moreRounds c factor f).1

section

variable {f : Function} {l : LoopInfo} {test : VarId} {c : Candidate} {d : BlockId} {v : VarId}

section

variable (h : Unrollable f l test c.body)

include h

section

variable (hc : c.IsOf f l)

include hc

theorem copies_firstRound :
  Copies f f (firstRound c f).2 1 (l.round f c.body) (instrs (firstRound c f).1)
  := by
  rw [← hc.instrs_round]
  apply copies_copyLines ⟨rfl, List.prefix_rfl⟩
  rw [hc.instrs_round]
  exact fun i hi => lt_of_mem_wholeRound h i (List.mem_append_right _ hi)

variable (factor : Nat)

include factor

theorem copies_moreRounds :
  Copies f (firstRound c f).2 (moreRounds c factor f).2 (factor - 1) (l.wholeRound f c.body)
    (instrs (moreRounds c factor f).1)
  := by
  rw [← hc.instrs_wholeRound]
  apply copies_copyTimes (copies_firstRound h hc).toExtends
  rw [hc.instrs_wholeRound]
  exact lt_of_mem_wholeRound h

theorem extends_moreRounds :
  f.Extends (moreRounds c factor f).2
  := by
  have hfirst := (copies_firstRound h hc).toExtends
  have hmore := (copies_moreRounds h hc factor).toExtends
  exact ⟨hmore.slots.trans hfirst.slots, hfirst.varTypes.trans hmore.varTypes⟩

/-- What the rounds of a body define is new. -/
theorem fresh_allRounds :
  ((allRounds c factor f).filterMap Instr.def?).Nodup
    ∧ ∀ v ∈ (allRounds c factor f).filterMap Instr.def?,
      f.varTypes.length ≤ v ∧ v < (moreRounds c factor f).2.varTypes.length
  := by
  have hfirst := copies_firstRound h hc
  have hmore := copies_moreRounds h hc factor
  rw [allRounds, List.filterMap_append]
  constructor
  · refine List.nodup_append.mpr ⟨hfirst.fresh.1, hmore.fresh.1, ?_⟩
    rintro v hv _ hv' rfl
    exact Nat.not_lt_of_le (hmore.fresh.2 v hv').1 (hfirst.fresh.2 v hv).2
  · intro v hv
    rcases List.mem_append.mp hv with hv | hv
    · have hlt := hfirst.fresh.2 v hv
      exact ⟨hlt.1, hlt.2.trans_le hmore.toExtends.varTypes.length_le⟩
    · have hlt := hmore.fresh.2 v hv
      exact ⟨hfirst.toExtends.varTypes.length_le.trans hlt.1, hlt.2⟩

theorem block_fillBody (d : BlockId) :
  (fillBody l c factor f).block d
    = if d = l.latch then { f.block d with body := [] }
      else if d = c.body then
        { f.block d with body := (firstRound c f).1 ++ (moreRounds c factor f).1 }
      else f.block d
  := by
  obtain ⟨types, hfirst, -⟩ := (copies_firstRound h hc).frame
  obtain ⟨types', hmore, -⟩ := (copies_moreRounds h hc factor).frame
  have hblocks : (moreRounds c factor f).2.blocks = f.blocks := by rw [hmore, hfirst]
  have hblock : (moreRounds c factor f).2.block = f.block := by
    funext d
    simp only [Function.block, hblocks]
  have hlt : ∀ {d}, d ∈ l.blocks → d < f.blocks.length := fun hd =>
    Verify.lt_of_mem_reversePostorder h.verify (h.reached hd)
  have hfill : fillBody l c factor f = ((moreRounds c factor f).2.modifyBlock c.body fun b =>
      { b with body := (firstRound c f).1 ++ (moreRounds c factor f).1 }).modifyBlock l.latch fun b =>
        { b with body := [] } := rfl
  have hbody : c.body < (moreRounds c factor f).2.blocks.length := by
    rw [hblocks]
    exact hlt h.plain.body_mem
  rw [hfill, Function.block_modifyBlock, Function.block_modifyBlock hbody, hblock]
  · split
    · next heq =>
      have hne : d ≠ c.body := fun hbody => h.plain.ne (hbody.symm.trans heq)
      rw [if_neg hne]
    · rfl
  · simp only [Function.modifyBlock, List.length_modify, hblocks]
    exact hlt h.plain.latch_mem

theorem block_fillBody_of_ne (hbody : d ≠ c.body) (hlatch : d ≠ l.latch) :
  (fillBody l c factor f).block d = f.block d
  := by
  rw [block_fillBody h hc, if_neg hlatch, if_neg hbody]

theorem instrs_fillBody :
  ((fillBody l c factor f).block c.body).instrs = allRounds c factor f
  := by
  rw [block_fillBody h hc, if_neg h.plain.ne, if_pos rfl]
  simp [Block.instrs, allRounds, instrs]

theorem instrs_fillBody_latch :
  ((fillBody l c factor f).block l.latch).instrs = []
  := by
  rw [block_fillBody h hc, if_pos rfl]
  rfl

theorem sameShape_fillBody :
  SameShape f (fillBody l c factor f)
  := by
  obtain ⟨types, hfirst, -⟩ := (copies_firstRound h hc).frame
  obtain ⟨types', hmore, -⟩ := (copies_moreRounds h hc factor).frame
  have hframe : (moreRounds c factor f).2 = { f with varTypes := f.varTypes ++ types ++ types' } := by
    rw [hmore, hfirst]
  have hfill : fillBody l c factor f = ((moreRounds c factor f).2.modifyBlock c.body fun b =>
      { b with body := (firstRound c f).1 ++ (moreRounds c factor f).1 }).modifyBlock l.latch fun b =>
        { b with body := [] } := rfl
  refine ⟨?_, ?_, ?_, ?_, ?_, fun d => ?_, fun d => ?_⟩
  · rw [hfill, hframe]
    rfl
  · rw [hfill, hframe]
    rfl
  · rw [hfill, hframe]
    rfl
  · rw [hfill, hframe]
    rfl
  · rw [hfill, hframe]
    simp [Function.modifyBlock]
  · rw [block_fillBody h hc]
    split
    · rfl
    · split <;> rfl
  · rw [block_fillBody h hc]
    split
    · rfl
    · split <;> rfl

theorem extends_fillBody :
  (moreRounds c factor f).2.Extends (fillBody l c factor f) ∧ f.Extends (fillBody l c factor f)
  := by
  have hextends := extends_moreRounds h hc factor
  exact ⟨⟨rfl, List.prefix_rfl⟩, ⟨hextends.slots, hextends.varTypes⟩⟩

/-! ## Well-formedness -/

theorem defs_fillBody :
  ((fillBody l c factor f).block c.body).defs = [] ++ (allRounds c factor f).filterMap Instr.def?
  := by
  rw [Block.defs, instrs_fillBody h hc, (sameShape_fillBody h hc factor).blockParams,
    h.plain.params _ h.plain.body_mem]

/-- What is known at the start of a block is still known, the variables of the body and the latch apart. -/
theorem isKnown_fillBody (hd : d ∈ f.reversePostorder) (hbody : v ∉ (f.block c.body).defs)
    (hlatch : v ∉ (f.block l.latch).defs) (hv : IsKnown f d v) :
  IsKnown (fillBody l c factor f) d v
  := by
  have hshape := sameShape_fillBody h hc factor
  rcases hv with hparam | ⟨d', hne, hdominates, hdef⟩
  · exact .inl (by rwa [hshape.blockParams])
  · refine .inr ⟨d', hne, hshape.dominates hd hdominates, ?_⟩
    rw [block_fillBody_of_ne h hc]
    · exact hdef
    · rintro rfl
      exact hbody hdef
    · rintro rfl
      exact hlatch hdef

/-- The rounds of the body read what is known at its start. -/
theorem scoped_allRounds :
  Scoped (IsKnown (fillBody l c factor f) c.body) (allRounds c factor f) []
  := by
  have hbody := h.reached h.plain.body_mem
  have hknown : ∀ {position v}, IsDefinedAt f l.header position v →
      IsKnown (fillBody l c factor f) c.body v := by
    intro position v hv
    apply isKnown_fillBody h hc factor hbody
    · exact h.not_mem_defs hv h.plain.body_mem h.body_ne
    · exact h.not_mem_defs hv h.plain.latch_mem h.latch_ne
    · exact (h.isKnown_iff hbody).mpr (h.isDefinedAt_body hv)
  rw [allRounds, scoped_append]
  constructor
  · exact ((copies_firstRound h hc).reads _ h.scoped_round).mono fun v hv => hknown hv
  · exact ((copies_moreRounds h hc factor).reads _ h.scoped_wholeRound).mono fun v hv => .inl (hknown hv)

end

/-- Blocks other than the body and the latch read nothing that these define. -/
theorem not_mem_defs_of_uses (hbody : d ≠ c.body) (hlatch : d ≠ l.latch) (hv : v ∈ (f.block d).uses) :
  v ∉ (f.block c.body).defs ∧ v ∉ (f.block l.latch).defs
  := by
  by_cases hmem : d ∈ l.blocks
  · obtain rfl : d = l.header := by
      rcases (h.plain.blocks d).mp hmem with heq | heq | heq
      · exact heq
      · exact absurd heq hbody
      · exact absurd heq hlatch
    exact ⟨h.not_mem_defs_of_uses hv h.plain.body_mem h.body_ne,
      h.not_mem_defs_of_uses hv h.plain.latch_mem h.latch_ne⟩
  · exact ⟨h.own d hmem v hv _ h.plain.body_mem, h.own d hmem v hv _ h.plain.latch_mem⟩

theorem isSsa_fillBody (hc : c.IsOf f l) (factor : Nat) :
  (fillBody l c factor f).IsSsa
  := by
  have hshape := sameShape_fillBody h hc factor
  obtain ⟨-, hnodup, -⟩ := Function.isSsa_iff.mp h.ssa
  have hfresh := fresh_allRounds h hc factor
  apply hshape.isSsa_of_nodup h.ssa
  · apply nodup_defs_of_fresh hnodup (fun d v hv => Verify.lt_of_mem_defs h.verify hv)
      (defs_fillBody h hc factor) (List.nil_sublist _)
    · exact ⟨hfresh.1, fun v hv => (hfresh.2 v hv).1⟩
    · intro d hd
      by_cases hlatch : d = l.latch
      · rw [hlatch, Block.defs, instrs_fillBody_latch h hc, hshape.blockParams,
          h.plain.params _ h.plain.latch_mem]
        exact List.nil_sublist _
      · rw [block_fillBody_of_ne h hc factor hd hlatch]
  · intro d hd
    rw [hshape.terminator]
    by_cases hbody : d = c.body
    · rw [hbody, instrs_fillBody h hc, h.plain.toLatch]
      exact scoped_allRounds h hc factor
    by_cases hlatch : d = l.latch
    · rw [hlatch, instrs_fillBody_latch h hc, h.plain.back]
      simp [Scoped, Terminator.uses]
    · rw [block_fillBody_of_ne h hc factor hbody hlatch]
      refine (h.ssa.scoped hd).mono_of_uses fun v hv hknown => ?_
      have huse : v ∈ (f.block d).uses := by
        rw [Block.uses, List.mem_append]
        exact hv.imp_left List.mem_flatMap.mpr
      obtain ⟨hnot, hnot'⟩ := not_mem_defs_of_uses h hbody hlatch huse
      exact isKnown_fillBody h hc factor hd hnot hnot' hknown

theorem verify_fillBody (hc : c.IsOf f l) (factor : Nat) :
  (fillBody l c factor f).verify = .ok ()
  := by
  obtain ⟨hall, hextends⟩ := extends_fillBody h hc factor
  apply Function.verify_of_sameShape h.verify (isSsa_fillBody h hc factor) (sameShape_fillBody h hc factor)
    hextends
  intro d i hi
  by_cases hbody : d = c.body
  · rw [hbody, instrs_fillBody h hc] at hi
    refine .inr ⟨?_, fun v hdef => ?_⟩
    · apply Verify.keeps_instr hall
      have hcheck := instr_of_mem_wholeRound h
      rcases List.mem_append.mp hi with hi | hi
      · refine Verify.keeps_instr (copies_moreRounds h hc factor).toExtends i () ?_
        exact (copies_firstRound h hc).instr (fun i hi => hcheck i (List.mem_append_right _ hi)) i hi
      · exact (copies_moreRounds h hc factor).instr hcheck i hi
    · exact ((fresh_allRounds h hc factor).2 v (List.mem_filterMap.mpr ⟨i, hi, hdef⟩)).2
  by_cases hlatch : d = l.latch
  · rw [hlatch, instrs_fillBody_latch h hc] at hi
    cases hi
  · rw [block_fillBody_of_ne h hc factor hbody hlatch] at hi
    exact .inl hi

theorem rewrites_fillBody (hc : c.IsOf f l) (factor : Nat) :
  Rewrites l c.body f (fillBody l c factor f)
  := by
  have hshape := sameShape_fillBody h hc factor
  apply h.rewrites_of_sameShape (verify_fillBody h hc factor) hshape (extends_fillBody h hc factor).2
  · exact fun d _ hbody hlatch => block_fillBody_of_ne h hc factor hbody hlatch
  · intro d hd v hv
    by_cases hbody : d = c.body
    · rw [hbody, Block.uses, hshape.terminator, instrs_fillBody h hc, h.plain.toLatch, Terminator.uses,
        List.append_nil] at hv
      obtain ⟨i, hi, hv⟩ := List.mem_flatMap.mp hv
      have huses : f.varTypes.length ≤ v ∨ ∃ i ∈ l.wholeRound f c.body, v ∈ i.uses := by
        rcases List.mem_append.mp hi with hi | hi
        · refine ((copies_firstRound h hc).uses i hi v hv).imp_right ?_
          rintro ⟨i', hi', hv'⟩
          exact ⟨i', List.mem_append_right _ hi', hv'⟩
        · exact (copies_moreRounds h hc factor).uses i hi v hv
      refine huses.imp_right ?_
      rintro ⟨i', hi', hv'⟩
      obtain ⟨d', hd', huse⟩ := h.mem_uses_of_mem_wholeRound hi' hv'
      exact ⟨d', .inl hd', huse⟩
    by_cases hlatch : d = l.latch
    · rw [hlatch, Block.uses, hshape.terminator, instrs_fillBody_latch h hc, h.plain.back] at hv
      cases hv
    · rw [block_fillBody_of_ne h hc factor hbody hlatch] at hv
      exact .inr ⟨d, hd, hv⟩

end

/-! ## Runs -/

/-- The variables of the body and the latch. -/
def roundDefs (f : Function) (l : LoopInfo) (body : BlockId) (v : VarId) : Prop :=
  v ∈ (f.block body).defs ∨ v ∈ (f.block l.latch).defs

variable {W : World} {left : Nat → Store → Prop} {factor : Nat} {s t : State}

variable (h : Unrollable f l test c.body) (hc : c.IsOf f l)

include h hc

/-- Blocks other than the body and the latch are the same. -/
theorem sameBlock_fillBody (factor : Nat) (hbody : d ≠ c.body) (hlatch : d ≠ l.latch) :
  SameBlock f (fillBody l c factor f) (roundDefs f l c.body) d
  where
  instrs := by rw [block_fillBody_of_ne h hc factor hbody hlatch]
  terminator := by rw [block_fillBody_of_ne h hc factor hbody hlatch]
  types _ hi _ hdef := (rewrites_fillBody h hc factor).varType h hi hdef
  visible _ hv := not_or.mpr (not_mem_defs_of_uses h hbody hlatch hv)

/-- The rounds of the body do what as many rounds do, from the body on and back to the header. -/
theorem agree_allRounds (factor : Nat) (hst : Similar (Unseen f (roundDefs f l c.body) c.body 0) s t) :
  Agree (Similar (Unseen f (roundDefs f l c.body) l.header 0))
    (runAll W W.caller f.varType (l.round f c.body) s
      >>= runAll W W.caller f.varType (List.replicate (factor - 1) (l.wholeRound f c.body)).flatten)
    (runAll W W.caller (fillBody l c factor f).varType (allRounds c factor f) t)
  := by
  have hfirst := copies_firstRound h hc
  have hmore := copies_moreRounds h hc factor
  have hhidden : ∀ {position v}, IsDefinedAt f l.header position v → ¬roundDefs f l c.body v := fun hv =>
    not_or.mpr ⟨h.not_mem_defs hv h.plain.body_mem h.body_ne,
      h.not_mem_defs hv h.plain.latch_mem h.latch_ne⟩
  have hseen : ∀ {position v}, IsDefinedAt f l.header position v →
      ¬Unseen f (roundDefs f l c.body) c.body 0 v := fun hv =>
    not_unseen (h.isDefinedAt_body hv) (hhidden hv)
  have hold : ∀ {d v}, f.varTypes.length ≤ v → Unseen f (roundDefs f l c.body) d 0 v := fun hle hv =>
    absurd (hv.lt h.verify) (Nat.not_lt_of_le hle)
  rw [allRounds, runAll_append]
  have hround := @hfirst.run W W.caller (fillBody l c factor f).varType
    (Unseen f (roundDefs f l c.body) c.body 0) s t (h.scoped_round.mono fun v hv => hseen hv)
    (fun i hi v hdef _ => Unrollable.mem_defs_of_mem_round hi hdef) (fun v hle => hold hle)
    (fun v hv => Function.varType_of_prefix hmore.toExtends.varTypes hv) hst
  rw [List.replicate_one, List.flatten_singleton] at hround
  apply hround.bind
  intro s₁ t₁ hst₁
  apply hmore.run
  · exact h.scoped_wholeRound.mono fun v hv => not_unseen hv (hhidden hv)
  · intro i hi v hdef hv
    obtain ⟨d, hd, hmem⟩ := h.mem_defs_of_mem_wholeRound hi hdef
    exact absurd hmem (h.not_mem_defs_start hv hd)
  · exact fun v hle => hold hle
  · exact fun v hv => rfl
  · refine ⟨hst₁.1, fun v hv => hst₁.2 v ?_⟩
    exact hseen (isDefinedAt_of_not_unseen hv).1

/-- A round of the new loop is as many rounds of the old one as the factor says. -/
theorem agree_fillBody (hfactor : 0 < factor) {n k : Nat} (hcount : CountsDown W f l test c.body left n)
    (hleft : left (k * factor + factor) s.store) (hst : Joint W f (roundDefs f l c.body) (l.header, s) (l.header, t)) :
  Agree (fun p q => p.1 = q.1 ∧ Similar (Unseen f (roundDefs f l c.body) p.1 0) p.2 q.2
      ∧ p.1 = l.header ∧ left (k * factor) p.2.store)
    (steps (f.step W W.caller) (3 * factor) (l.header, s))
    (steps ((fillBody l c factor f).step W W.caller) 3 (l.header, t))
  := by
  have hshape := sameShape_fillBody h hc factor
  have hheader : (fillBody l c factor f).block l.header = f.block l.header :=
    block_fillBody_of_ne h hc factor h.body_ne.symm h.latch_ne.symm
  have hplain : l.IsPlain (fillBody l c factor f) test c.body := (hshape.isPlain (by rw [hheader])).mpr h.plain
  obtain ⟨hsteps, hleft'⟩ := hcount.steps_rounds h hst.gets hleft
  obtain ⟨s₁, hrun, -, hstep⟩ := hcount.step_header h hst.gets hleft
  rw [if_pos (Nat.lt_of_lt_of_le hfactor (Nat.le_add_left _ _))] at hstep
  -- Both functions run the header and go on with the body.
  have hfirst := (sameBlock_fillBody h hc factor h.body_ne.symm h.latch_ne.symm).agree_step h.ssa
    hshape.blockParams hst
  rw [hstep] at hfirst
  obtain ⟨⟨_, t₁⟩, hstep', hjoint⟩ := hfirst
  obtain rfl : c.body = _ := hjoint.same
  have hround : l.round (fillBody l c factor f) c.body = allRounds c factor f := by
    rw [LoopInfo.round, instrs_fillBody h hc, instrs_fillBody_latch h hc, List.append_nil]
  have hall : runAll W W.caller f.varType (List.replicate factor (l.wholeRound f c.body)).flatten s
      = runAll W W.caller f.varType (l.round f c.body) s₁
        >>= runAll W W.caller f.varType (List.replicate (factor - 1) (l.wholeRound f c.body)).flatten := by
    obtain ⟨r, rfl⟩ := Nat.exists_eq_succ_of_ne_zero hfactor.ne'
    rw [List.replicate_succ, List.flatten_cons, runAll_append, LoopInfo.wholeRound, runAll_append, hrun]
    rfl
  rw [hsteps, hall, steps, hstep']
  change Agree _ _ (steps ((fillBody l c factor f).step W W.caller) 2 (c.body, t₁))
  rw [CountsDown.steps_body hplain, hround]
  refine ((agree_allRounds h hc factor hjoint.similar).and fun s' hs' => hleft' s' (hall ▸ hs')).bind ?_
  rintro s' t' ⟨hst', hleft''⟩
  exact ⟨_, rfl, rfl, hst', rfl, hleft''⟩

/-- On its way through a round, the new loop is in the body and in the latch. -/
theorem inner_fillBody (hstep : (fillBody l c factor f).step W W.caller (l.header, t) = .ok (c.body, s)) {k : Nat}
    {q : Point} (hpos : 0 < k) (hle : k ≤ 2)
    (hq : steps ((fillBody l c factor f).step W W.caller) k (l.header, t) = .ok q) :
  q.1 = c.body ∨ q.1 = l.latch
  := by
  obtain ⟨k, rfl⟩ := Nat.exists_eq_succ_of_ne_zero hpos.ne'
  rw [steps, hstep] at hq
  change steps ((fillBody l c factor f).step W W.caller) k (c.body, s) = .ok q at hq
  rcases Nat.lt_or_ge k 1 with hk | hk
  · obtain rfl : k = 0 := by omega
    cases hq
    exact .inl rfl
  · obtain rfl : k = 1 := by omega
    rw [steps_one] at hq
    obtain ⟨s', -, hlast⟩ := bind_eq_ok.mp hq
    have hnext := Terminator.mem_successors_of_run hlast
    rw [(sameShape_fillBody h hc factor).terminator, h.plain.toLatch] at hnext
    exact .inr (List.mem_singleton.mp hnext)

theorem strides_fillBody (hfactor : 0 < factor) {k : Nat} (hcount : CountsDown W f l test c.body left (k * factor)) :
  Strides W f (fillBody l c factor f) (roundDefs f l c.body)
    (fun p => p.1 ≠ c.body ∧ p.1 ≠ l.latch ∧ (p.1 = l.header → ∃ k, left (k * factor) p.2.store))
    (fun d => d = c.body ∨ d = l.latch)
  where
  entry := (sameShape_fillBody h hc factor).entry
  params := (sameShape_fillBody h hc factor).params
  start args vars store := by
    have hne : ∀ d ∈ l.blocks, f.entry ≠ d := fun d hd heq => h.entry (heq ▸ hd)
    exact ⟨hne _ h.plain.body_mem, hne _ h.plain.latch_mem, fun heq => absurd heq (hne _ h.plain.header_mem)⟩
  stride {p q} hpq hp := by
    obtain ⟨id, s⟩ := p
    obtain ⟨_, t⟩ := q
    obtain rfl := hpq.same
    obtain ⟨hbody, hlatch, hrounds⟩ := hp
    have hsame := (sameBlock_fillBody h hc factor hbody hlatch).agree_step h.ssa
      (sameShape_fillBody h hc factor).blockParams hpq
    have houtside : ∀ {d}, d ∉ l.blocks → ∀ d' ∈ l.blocks, d ≠ d' := fun hd d' hd' heq => hd (heq ▸ hd')
    by_cases hid : id = l.header
    · subst hid
      obtain ⟨k, hleft⟩ := hrounds rfl
      cases k with
      | zero =>
        rw [Nat.zero_mul] at hleft
        refine ⟨0, 0, ?_, fun k q' hpos hle => absurd hpos (Nat.not_lt_of_le hle)⟩
        rw [Nat.zero_add, steps_one, steps_one]
        refine hsame.and fun p' hstep => ?_
        obtain ⟨s₁, -, -, hexit⟩ := hcount.step_header h hpq.gets hleft
        rw [hstep, if_neg (Nat.lt_irrefl 0)] at hexit
        cases hexit
        have hne := houtside h.exit
        exact ⟨hne _ h.plain.body_mem, hne _ h.plain.latch_mem, fun heq => absurd heq (hne _ h.plain.header_mem)⟩
      | succ k =>
        rw [Nat.succ_mul] at hleft
        obtain ⟨s₁, -, -, hstep⟩ := hcount.step_header h hpq.gets hleft
        rw [if_pos (Nat.lt_of_lt_of_le hfactor (Nat.le_add_left _ _))] at hstep
        rw [hstep] at hsame
        obtain ⟨⟨_, t₁⟩, hstep', hjoint⟩ := hsame
        obtain rfl : c.body = _ := hjoint.same
        refine ⟨3 * factor - 1, 2, hpq.agree_steps ?_, fun k q' hpos hle hq => ?_⟩
        · rw [show 3 * factor - 1 + 1 = 3 * factor by omega]
          refine (agree_fillBody h hc hfactor hcount hleft hpq).mono ?_
          rintro ⟨_, s'⟩ q' ⟨hsame', hst', rfl, hleft'⟩
          exact ⟨hsame', hst', h.body_ne.symm, h.latch_ne.symm, fun _ => ⟨k, hleft'⟩⟩
        · exact inner_fillBody h hc hstep' hpos hle hq
    · have hmem : id ∉ l.blocks := fun hmem => by
        rcases (h.plain.blocks id).mp hmem with heq | heq | heq
        · exact hid heq
        · exact hbody heq
        · exact hlatch heq
      refine ⟨0, 0, ?_, fun k q' hpos hle => absurd hpos (Nat.not_lt_of_le hle)⟩
      rw [Nat.zero_add, steps_one, steps_one]
      refine hsame.and fun p' hstep => ?_
      obtain ⟨s₁, hrun, hlast⟩ := bind_eq_ok.mp hstep
      by_cases hnext : p'.1 ∈ l.blocks
      · -- The loop is entered, and then all its rounds are left.
        obtain ⟨hpre, hheader⟩ := h.wellFormed.edge _ _ hmem hnext (Terminator.mem_successors_of_run hlast)
        rw [hheader]
        refine ⟨h.body_ne.symm, h.latch_ne.symm, fun _ => ⟨k, ?_⟩⟩
        rw [Terminator.store_of_run hlast]
        subst hpre
        exact hcount.start s₁ (hpq.gets.runBody hrun)
      · have hne := houtside hnext
        exact ⟨hne _ h.plain.body_mem, hne _ h.plain.latch_mem, fun heq => absurd heq (hne _ h.plain.header_mem)⟩

end

end Unroll

end FormCompiler.Flow
