import FormCompiler.Proofs.Optimize.Peeled
import FormCompiler.Proofs.Optimize.Sound

/-!
# Loops without rounds

If no round of a loop is left when control gets to its preheader, then the preheader may jump to the
exit at once. This is the only new edge, and the blocks of the loop are not reached any more. A path
along the new edge was a path through the header before, so what is defined on every path still is, the
variables of the loop apart.
-/

namespace FormCompiler.Flow

open Verify (IsSite IsDefinedAt Site)

namespace Unroll

/-- The function in which the preheader of a loop jumps to the exit. -/
def skipLoop (l : LoopInfo) (f : Function) : Function :=
  f.modifyBlock l.preheader fun b => { b with terminator := .jump l.exit [] }

section

variable {f : Function} {l l' : LoopInfo} {test test' : VarId} {body body' d : BlockId} {v : VarId}
variable {left : Nat → Store → Prop}

variable (h : Unrollable f l test body)

include h

theorem block_skipLoop (d : BlockId) :
  (skipLoop l f).block d
    = if d = l.preheader then { f.block d with terminator := .jump l.exit [] } else f.block d
  := Function.block_modifyBlock h.preheader_lt _ d

theorem block_skipLoop_of_ne (hd : d ≠ l.preheader) :
  (skipLoop l f).block d = f.block d
  := by
  rw [block_skipLoop h, if_neg hd]

theorem terminator_skipLoop :
  ((skipLoop l f).block l.preheader).terminator = .jump l.exit []
  := by
  rw [block_skipLoop h, if_pos rfl]

theorem instrs_skipLoop (d : BlockId) :
  ((skipLoop l f).block d).instrs = (f.block d).instrs
  := by
  rw [block_skipLoop h]
  split <;> rfl

theorem sameFrame_skipLoop :
  SameFrame f (skipLoop l f)
  := by
  refine ⟨rfl, rfl, rfl, rfl, rfl, rfl, by simp [skipLoop, Function.modifyBlock], fun d => ?_⟩
  rw [block_skipLoop h]
  split <;> rfl

theorem defs_skipLoop (d : BlockId) :
  ((skipLoop l f).block d).defs = (f.block d).defs
  := by
  rw [Block.defs, Block.defs, instrs_skipLoop h, (sameFrame_skipLoop h).blockParams]

/-- The exit exists and has no parameters. -/
theorem exit_lt :
  l.exit < f.blocks.length ∧ (f.block l.exit).params = []
  := h.ssa.branch (h.ssa.getElem?_block h.header) h.plain.branch l.exit (by simp)

/-! ## Paths -/

theorem successors_skipLoop (hd : d ≠ l.preheader) :
  (skipLoop l f).successors d = f.successors d
  := by
  rw [Function.successors, Function.successors, block_skipLoop_of_ne h hd]

theorem successors_skipLoop_preheader :
  (skipLoop l f).successors l.preheader = [l.exit]
  := by
  rw [Function.successors, terminator_skipLoop h, Terminator.successors]

/-- No path gets into the loop. -/
theorem not_mem_of_reaches_skipLoop {avoided : List BlockId} (hd : (skipLoop l f).Reaches avoided d) :
  d ∉ l.blocks
  := by
  induction hd with
  | entry => exact h.entry
  | @step a d _ hnext _ ih =>
    intro hmem
    by_cases ha : a = l.preheader
    · rw [ha, successors_skipLoop_preheader h, List.mem_singleton] at hnext
      exact h.exit (hnext ▸ hmem)
    · rw [successors_skipLoop h ha] at hnext
      exact ha (h.wellFormed.edge a d ih hmem hnext).1

/-- A path that takes the new edge went through the header before. -/
theorem reaches_of_skipLoop {avoided : List BlockId} (havoided : ∀ x ∈ avoided, x ∉ l.blocks)
    (hd : (skipLoop l f).Reaches avoided d) :
  f.Reaches avoided d
  := by
  induction hd with
  | entry hnot => exact .entry hnot
  | @step a d _ hnext hnot ih =>
    by_cases ha : a = l.preheader
    · subst ha
      rw [successors_skipLoop_preheader h, List.mem_singleton] at hnext
      have hheader : l.header ∉ avoided := fun hmem => havoided _ hmem h.plain.header_mem
      rw [hnext] at hnot ⊢
      exact (ih.step h.wellFormed.header_mem_successors hheader).step h.exit_mem_successors hnot
    · rw [successors_skipLoop h ha] at hnext
      exact ih.step hnext hnot

/-- A path out of the loop came from the preheader. -/
theorem reaches_skipLoop (hd : f.Reaches [] d) :
  (d ∉ l.blocks → (skipLoop l f).Reaches [] d)
    ∧ (d ∈ l.blocks → (skipLoop l f).Reaches [] l.preheader)
  := by
  induction hd with
  | entry hnot => exact ⟨fun _ => .entry hnot, fun hmem => absurd hmem h.entry⟩
  | @step a d _ hnext hnot ih =>
    by_cases ha : a ∈ l.blocks
    · refine ⟨fun hd => ?_, fun _ => ih.2 ha⟩
      -- The header is the only block of the loop that control leaves the loop from.
      have hexit : d = l.exit := by
        rcases (h.plain.blocks a).mp ha with rfl | rfl | rfl
        · rw [Function.successors, h.plain.branch] at hnext
          simp only [Terminator.successors, List.mem_cons, List.not_mem_nil, or_false] at hnext
          exact hnext.resolve_left fun heq => hd (heq ▸ h.plain.body_mem)
        · rw [Function.successors, h.plain.toLatch, Terminator.successors, List.mem_singleton] at hnext
          exact absurd (hnext ▸ h.plain.latch_mem) hd
        · rw [Function.successors, h.plain.back, Terminator.successors, List.mem_singleton] at hnext
          exact absurd (hnext ▸ h.plain.header_mem) hd
      refine (ih.2 ha).step ?_ hnot
      rw [successors_skipLoop_preheader h, hexit]
      exact List.mem_singleton.mpr rfl
    · refine ⟨fun hd => (ih.1 ha).step ?_ hnot, fun hd => ?_⟩
      · have hne : a ≠ l.preheader := by
          rintro rfl
          rw [Function.successors, h.jump, Terminator.successors, List.mem_singleton] at hnext
          exact hd (hnext ▸ h.plain.header_mem)
        rwa [successors_skipLoop h hne]
      · obtain ⟨rfl, -⟩ := h.wellFormed.edge a d ha hd hnext
        exact ih.1 ha

/-! ## Well-formedness -/

theorem isKnown_skipLoop (hd : d ∈ (skipLoop l f).reversePostorder) (hout : ∀ d' ∈ l.blocks, v ∉ (f.block d').defs)
    (hv : IsKnown f d v) :
  IsKnown (skipLoop l f) d v
  := by
  rcases hv with hparam | ⟨d', hne, hdominates, hdef⟩
  · exact .inl (by rwa [(sameFrame_skipLoop h).blockParams])
  · refine .inr ⟨d', hne, Function.dominates_iff.mpr (.inr ⟨hd, fun hreaches => ?_⟩), ?_⟩
    · obtain ⟨-, hnot⟩ := (Function.dominates_iff.mp hdominates).resolve_left hne
      refine hnot (reaches_of_skipLoop h (fun x hx hmem => ?_) hreaches)
      rw [List.mem_singleton] at hx
      exact hout d' (hx ▸ hmem) hdef
    · rwa [defs_skipLoop h]

theorem mem_reversePostorder_of_skipLoop (hd : d ∈ (skipLoop l f).reversePostorder) :
  d ∈ f.reversePostorder ∧ d ∉ l.blocks
  := by
  have hreaches := Function.mem_reachedAvoiding.mp hd
  exact ⟨Function.mem_reachedAvoiding.mpr (reaches_of_skipLoop h (by simp) hreaches),
    not_mem_of_reaches_skipLoop h hreaches⟩

theorem mem_uses_of_skipLoop (hv : v ∈ ((skipLoop l f).block d).uses) :
  v ∈ (f.block d).uses
  := by
  by_cases heq : d = l.preheader
  · subst heq
    rw [Block.uses, instrs_skipLoop h, terminator_skipLoop h, Terminator.uses, List.append_nil] at hv
    exact List.mem_append_left _ hv
  · rwa [block_skipLoop_of_ne h heq] at hv

theorem isSsa_skipLoop :
  (skipLoop l f).IsSsa
  := by
  have hframe := sameFrame_skipLoop h
  obtain ⟨⟨entry, hentry, hparams⟩, hnodup, -⟩ := Function.isSsa_iff.mp h.ssa
  rw [Function.isSsa_iff]
  refine ⟨?_, ?_, ?_, ?_, ?_⟩
  · have hlt : f.entry < (skipLoop l f).blocks.length :=
      hframe.length ▸ (List.getElem?_eq_some_iff.mp hentry).1
    refine ⟨_, Function.getElem?_of_lt hlt, ?_⟩
    rw [hframe.blockParams]
    change (f.block f.entry).params = f.params
    simpa [Function.block, hentry] using hparams
  · rw [nodup_defs_iff_blocks] at hnodup ⊢
    simpa only [defs_skipLoop h] using hnodup
  · intro d b target args hb hterminator
    obtain ⟨hold, rfl⟩ := hframe.getElem?_block hb
    rw [hframe.length, hframe.blockParams]
    by_cases heq : d = l.preheader
    · rw [heq, terminator_skipLoop h] at hterminator
      cases hterminator
      rw [(exit_lt h).2]
      exact ⟨(exit_lt h).1, rfl⟩
    · rw [block_skipLoop_of_ne h heq] at hterminator
      exact h.ssa.jump (Function.getElem?_of_lt hold) hterminator
  · intro d b v thenBlock elseBlock hb hterminator next hnext
    obtain ⟨hold, rfl⟩ := hframe.getElem?_block hb
    rw [hframe.length, hframe.blockParams]
    by_cases heq : d = l.preheader
    · rw [heq, terminator_skipLoop h] at hterminator
      cases hterminator
    · rw [block_skipLoop_of_ne h heq] at hterminator
      exact h.ssa.branch (Function.getElem?_of_lt hold) hterminator next hnext
  · intro d hd b hb
    obtain ⟨-, rfl⟩ := hframe.getElem?_block hb
    obtain ⟨hreached, hout⟩ := mem_reversePostorder_of_skipLoop h hd
    have hscoped := scoped_iff.mp (h.ssa.scoped hreached)
    have hold : Scoped (IsKnown f d) ((skipLoop l f).block d).instrs
        ((skipLoop l f).block d).terminator.uses := by
      by_cases heq : d = l.preheader
      · subst heq
        rw [instrs_skipLoop h, terminator_skipLoop h]
        exact scoped_iff.mpr ⟨hscoped.1, by simp [Terminator.uses]⟩
      · rw [block_skipLoop_of_ne h heq]
        exact h.ssa.scoped hreached
    refine hold.mono_of_uses fun v hv hknown => isKnown_skipLoop h hd (fun d' hd' => ?_) hknown
    refine h.own d hout v (mem_uses_of_skipLoop h ?_) d' hd'
    rw [Block.uses, List.mem_append]
    exact hv.imp_left List.mem_flatMap.mpr

theorem verify_skipLoop :
  (skipLoop l f).verify = .ok ()
  := by
  have hframe := sameFrame_skipLoop h
  obtain ⟨-, hshape, -⟩ := Function.verify_iff.mp h.verify
  apply Function.verify_of_blocks (isSsa_skipLoop h)
  · rw [← hshape]
    simp only [Verify.shape, hframe.entry, hframe.length, hframe.params, hframe.blockParams, hframe.loops]
  · intro d v hv
    rw [defs_skipLoop h] at hv
    exact Verify.lt_of_mem_defs h.verify hv
  · intro d i hi
    rw [instrs_skipLoop h] at hi
    exact Verify.keeps_instr hframe.toExtends i () (Verify.instr_of_mem h.verify hi)
  · intro d hd
    rw [hframe.length] at hd
    by_cases heq : d = l.preheader
    · rw [heq, terminator_skipLoop h]
      apply hframe.terminator
      rw [Verify.jump_eq_ok, (exit_lt h).2]
      exact ⟨(exit_lt h).1, rfl, by simp⟩
    · rw [block_skipLoop_of_ne h heq]
      exact hframe.terminator (Verify.terminator_of_lt h.verify hd)

/-! ## Other loops -/

/-- The header of a loop does not lead into another one that is entered from its preheader. -/
theorem exit_not_mem (hl' : l'.IsWellFormed f) (hheader : l.header ∉ l'.blocks) :
  l.exit ∉ l'.blocks
  := by
  intro hexit
  obtain ⟨heq, -⟩ := hl'.edge _ _ hheader hexit h.exit_mem_successors
  obtain ⟨args, hjump⟩ := hl'.jump
  rw [← heq, h.plain.branch] at hjump
  cases hjump

theorem isWellFormed_skipLoop (hne : l'.header ≠ l.header) (hl' : l'.IsWellFormed f) :
  l'.IsWellFormed (skipLoop l f)
  where
  outside := hl'.outside
  jump := by
    obtain ⟨args, hjump⟩ := hl'.jump
    use args
    rw [block_skipLoop_of_ne h, hjump]
    intro heq
    rw [heq, h.jump] at hjump
    exact hne (Terminator.jump.inj hjump).1.symm
  header := hl'.header
  edge a b ha hb hnext := by
    by_cases heq : a = l.preheader
    · subst heq
      rw [successors_skipLoop_preheader h, List.mem_singleton] at hnext
      subst hnext
      -- The old edge did not go into the other loop, as its header is another one.
      have hheader : l.header ∉ l'.blocks := fun hmem =>
        hne (hl'.edge _ _ ha hmem h.wellFormed.header_mem_successors).2.symm
      exact absurd hb (exit_not_mem h hl' hheader)
    · rw [successors_skipLoop h heq] at hnext
      exact hl'.edge a b ha hb hnext

theorem isPlain_of_skipLoop (hne : l'.header ≠ l.header) (hl' : l'.IsWellFormed f)
    (hp : l'.IsPlain (skipLoop l f) test' body') :
  l'.IsPlain f test' body'
  := by
  have hbranch : ((skipLoop l f).block l.header).terminator = .branch test body l.exit := by
    rw [block_skipLoop_of_ne h (h.preheader_ne h.plain.header_mem)]
    exact h.plain.branch
  have hexit : l.exit ∉ l'.blocks :=
    exit_not_mem h hl' fun hmem => hne (hp.eq_header hmem hbranch).symm
  -- No block of the other loop jumps to the exit, so none of them is the preheader.
  have hold : ∀ {d t}, ((skipLoop l f).block d).terminator = t → t ≠ .jump l.exit [] →
      (f.block d).terminator = t := by
    intro d t hterminator hother
    rw [← hterminator, block_skipLoop_of_ne h]
    rintro rfl
    rw [terminator_skipLoop h] at hterminator
    exact hother hterminator.symm
  have hto : ∀ {next}, next ∈ l'.blocks → Terminator.jump next [] ≠ .jump l.exit [] := by
    intro next hnext heq
    exact hexit ((Terminator.jump.inj heq).1 ▸ hnext)
  constructor
  · exact hp.blocks
  · exact hold hp.branch (by simp)
  · exact hold hp.toLatch (hto hp.latch_mem)
  · exact hold hp.back (hto hp.header_mem)
  · exact hp.ne
  · exact fun id hid => (sameFrame_skipLoop h).blockParams id ▸ hp.params id hid
  · exact instrs_skipLoop h l'.header ▸ hp.pure

theorem rewrites_skipLoop :
  Rewrites l body f (skipLoop l f)
  where
  verify := verify_skipLoop h
  entry := rfl
  loops := rfl
  length := (sameFrame_skipLoop h).length
  extend := (sameFrame_skipLoop h).toExtends
  other _ hd _ _ := block_skipLoop_of_ne h hd
  uses d hd _ hv := .inr ⟨d, hd, mem_uses_of_skipLoop h hv⟩
  reached _ hd hreached := Function.mem_reachedAvoiding.mpr
    ((reaches_skipLoop h (Function.mem_reachedAvoiding.mp hreached)).1 hd)
  wellFormed _ := isWellFormed_skipLoop h
  plain _ _ _ := isPlain_of_skipLoop h

/-! ## Runs -/

/-- From the preheader of a loop without rounds to its exit. -/
theorem agree_skipLoop {W : World} {s t : State} {hidden : VarId → Prop} (hcount : CountsDown W f l test body left 0)
    (hhidden : ∀ d ∈ l.blocks, ∀ v ∈ (f.block d).defs, hidden v) (hown : ∀ v ∈ (f.block l.preheader).uses, ¬hidden v)
    (hst : Joint W f hidden (l.preheader, s) (l.preheader, t)) :
  Agree (fun p q => p.1 = q.1 ∧ Similar (Unseen f hidden p.1 0) p.2 q.2 ∧ p.1 ∉ l.blocks)
    (steps (f.step W W.caller) 2 (l.preheader, s)) ((skipLoop l f).step W W.caller (l.preheader, t))
  := by
  have hframe := sameFrame_skipLoop h
  rw [steps, show steps (f.step W W.caller) 1 = f.step W W.caller from funext (steps_one _)]
  conv in f.step W W.caller (l.preheader, s) => rw [Function.step]
  conv in (skipLoop l f).step W W.caller (l.preheader, t) => rw [Function.step]
  simp only [bind_assoc, instrs_skipLoop h, hframe.varType, terminator_skipLoop h, h.jump]
  have htype : ∀ i ∈ (f.block l.preheader).instrs, ∀ v, i.def? = some v → f.varType v = f.varType v :=
    fun _ _ _ _ => rfl
  have hbody := agree_instrs (W := W) h.ssa h.preheader htype hown hst.similar
  apply (hbody.and fun s₁ hrun => hrun).bind
  rintro s₁ t₁ ⟨hst₁, hrun⟩
  have hstep : (Terminator.jump l.header []).run f s₁ = .ok (l.header, s₁) :=
    Terminator.run_jump_nil (h.plain.params _ h.plain.header_mem) s₁
  have hend := hst.gets.runBody hrun
  have hheader : Gets W f l.header 0 s₁ := hend.last (by rw [h.jump, hstep])
  obtain ⟨s₂, hrun₂, hstore, hexit⟩ := hcount.step_header h hheader (hcount.start s₁ hend)
  rw [if_neg (Nat.lt_irrefl 0)] at hexit
  rw [hstep]
  change Agree _ (f.step W W.caller (l.header, s₁)) _
  rw [hexit]
  refine ⟨(l.exit, t₁), ?_, rfl, ⟨hstore.trans hst₁.1, fun v hv => ?_⟩, h.exit⟩
  · exact Terminator.run_jump_nil ((hframe.blockParams _).trans (exit_lt h).2) t₁
  · -- What is seen at the exit was defined before the loop.
    obtain ⟨hdefined, hv⟩ := isDefinedAt_of_not_unseen hv
    have hlast := hdefined.of_successor h.header h.exit_mem_successors (h.ssa.getElem?_block h.header)
    rw [(exit_lt h).2, ← Block.length_instrs] at hlast
    have hnot : v ∉ (f.block l.header).instrs.filterMap Instr.def? := fun hmem =>
      hv (hhidden _ h.plain.header_mem v (List.mem_append_right _ hmem))
    have hstart := (h.isDefinedAt_end h.header (hlast.resolve_left List.not_mem_nil)).resolve_right
      fun hdef => hnot (List.mem_filterMap.mpr hdef)
    have hbefore := h.isDefinedAt_before h.preheader h.wellFormed.header_mem_successors
      h.plain.header_mem hstart
    exact (vars_of_runAll hrun₂ hnot).trans (hst₁.2 v (not_unseen hbefore hv))

theorem strides_skipLoop {W : World} (hcount : CountsDown W f l test body left 0) :
  Strides W f (skipLoop l f) (fun v => ∃ d ∈ l.blocks, v ∈ (f.block d).defs) (fun p => p.1 ∉ l.blocks)
    (fun _ => False)
  where
  entry := rfl
  params := rfl
  start _ _ _ := h.entry
  stride {p q} hpq hp := by
    obtain ⟨id, s⟩ := p
    obtain ⟨_, t⟩ := q
    obtain rfl := hpq.same
    have hvisible : ∀ v ∈ (f.block id).uses, ¬∃ d ∈ l.blocks, v ∈ (f.block d).defs := by
      rintro v hv ⟨d, hd, hdef⟩
      exact h.own id hp v hv d hd hdef
    by_cases hid : id = l.preheader
    · subst hid
      refine ⟨1, 0, hpq.agree_steps ?_, fun k q' hpos hle => absurd hpos (Nat.not_lt_of_le hle)⟩
      rw [Nat.zero_add, steps_one]
      exact agree_skipLoop h hcount (fun d hd v hv => ⟨d, hd, hv⟩) hvisible hpq
    · refine ⟨0, 0, ?_, fun k q' hpos hle => absurd hpos (Nat.not_lt_of_le hle)⟩
      rw [Nat.zero_add, steps_one, steps_one]
      have hsame := (rewrites_skipLoop h).sameBlock h (fun _ hv => hv) ⟨hp, hid⟩
      refine (hsame.agree_step h.ssa (sameFrame_skipLoop h).blockParams hpq).and fun p' hstep hmem => ?_
      obtain ⟨s', -, hlast⟩ := bind_eq_ok.mp hstep
      exact hid (h.wellFormed.edge _ _ hp hmem (Terminator.mem_successors_of_run hlast)).1

end

end Unroll

end FormCompiler.Flow
