import FormCompiler.Proofs.Flow.Rename
import FormCompiler.Proofs.Flow.Visited

/-!
# Functions without unreachable blocks

If blocks are dropped that control does not reach, then the others are numbered anew. The function
stays well-formed, and it behaves as before: its runs go through the same blocks, under their new numbers.
-/

namespace FormCompiler.Flow

open Verify (IsSite IsDefinedAt Site)

theorem Terminator.successors_mapTargets (t : Terminator) (rename : BlockId → BlockId) :
  (t.mapTargets rename).successors = t.successors.map rename
  := by
  cases t <;> rfl

namespace Function

/-! ## The blocks that are kept -/

/-- The blocks that are kept, in order. -/
def kept (f : Function) (keep : BlockId → Bool) : List BlockId :=
  (List.range f.blocks.length).filter keep

/-- The new number of a block. -/
def place (f : Function) (keep : BlockId → Bool) (b : BlockId) : BlockId :=
  ((f.kept keep).idxOf? b).getD b

/-- Control does not get from the blocks that are kept to any other. -/
structure KeepsPaths (f : Function) (keep : BlockId → Bool) : Prop where
  entry : f.entry ∈ f.kept keep
  next : ∀ b ∈ f.kept keep, ∀ next ∈ f.successors b, next ∈ f.kept keep

variable {f : Function} {keep : BlockId → Bool} {b d k : BlockId} {v : VarId}

theorem mem_kept :
  b ∈ f.kept keep ↔ b < f.blocks.length ∧ keep b = true
  := by
  simp [kept]

theorem nodup_kept (f : Function) (keep : BlockId → Bool) :
  (f.kept keep).Nodup
  := List.nodup_range.filter _

theorem idxOf?_eq_some_place (hb : b ∈ f.kept keep) :
  (f.kept keep).idxOf? b = some (f.place keep b)
  := by
  obtain ⟨k, hk⟩ := Option.isSome_iff_exists.mp (List.isSome_idxOf?.mpr hb)
  rw [place, hk]
  rfl

theorem getElem?_place (hb : b ∈ f.kept keep) :
  (f.kept keep)[f.place keep b]? = some b
  := by
  obtain ⟨hlt, hget, -⟩ := List.idxOf?_eq_some_iff.mp (idxOf?_eq_some_place hb)
  rw [List.getElem?_eq_getElem hlt, hget]

theorem place_lt (hb : b ∈ f.kept keep) :
  f.place keep b < (f.kept keep).length
  := (List.getElem?_eq_some_iff.mp (getElem?_place hb)).1

theorem place_inj (hb : b ∈ f.kept keep) (hd : d ∈ f.kept keep) (h : f.place keep b = f.place keep d) :
  b = d
  := by
  have hget := getElem?_place hb
  rw [h, getElem?_place hd] at hget
  exact (Option.some.inj hget).symm

/-- Each new number is that of a block. -/
theorem exists_place (hk : k < (f.kept keep).length) :
  ∃ b ∈ f.kept keep, k = f.place keep b
  := by
  have hmem := List.getElem_mem hk
  refine ⟨_, hmem, ?_⟩
  have hget := getElem?_place hmem
  obtain ⟨hlt, heq⟩ := List.getElem?_eq_some_iff.mp hget
  have hinj := List.nodup_iff_injective_getElem.mp (nodup_kept f keep)
  exact congrArg Fin.val (@hinj ⟨k, hk⟩ ⟨_, hlt⟩ heq.symm)

theorem length_keepBlocks (f : Function) (keep : BlockId → Bool) :
  (f.keepBlocks keep).blocks.length = (f.kept keep).length
  := by
  simp [keepBlocks, kept]

theorem getElem?_keepBlocks (hb : b ∈ f.kept keep) :
  (f.keepBlocks keep).blocks[f.place keep b]?
    = some { f.block b with terminator := (f.block b).terminator.mapTargets (f.place keep) }
  := by
  have hblocks : (f.keepBlocks keep).blocks[f.place keep b]?
      = ((f.kept keep)[f.place keep b]?).map fun b =>
        { f.block b with terminator := (f.block b).terminator.mapTargets (f.place keep) } :=
    List.getElem?_map
  rw [hblocks, getElem?_place hb]
  rfl

theorem block_keepBlocks (hb : b ∈ f.kept keep) :
  (f.keepBlocks keep).block (f.place keep b)
    = { f.block b with terminator := (f.block b).terminator.mapTargets (f.place keep) }
  := by
  rw [block, List.getD_eq_getElem?_getD, getElem?_keepBlocks hb]
  rfl

theorem exists_of_getElem?_keepBlocks {block : Block} (h : (f.keepBlocks keep).blocks[k]? = some block) :
  ∃ b ∈ f.kept keep, k = f.place keep b
    ∧ block = { f.block b with terminator := (f.block b).terminator.mapTargets (f.place keep) }
  := by
  have hk := (List.getElem?_eq_some_iff.mp h).1
  rw [length_keepBlocks] at hk
  obtain ⟨b, hb, rfl⟩ := exists_place hk
  exact ⟨b, hb, rfl, Option.some.inj (h.symm.trans (getElem?_keepBlocks hb))⟩

theorem defs_keepBlocks (hb : b ∈ f.kept keep) :
  ((f.keepBlocks keep).block (f.place keep b)).defs = (f.block b).defs
  := by
  rw [block_keepBlocks hb]
  rfl

theorem exists_of_mem_defs_keepBlocks (hv : v ∈ ((f.keepBlocks keep).block k).defs) :
  ∃ b ∈ f.kept keep, k = f.place keep b ∧ v ∈ (f.block b).defs
  := by
  obtain ⟨b, hb, rfl, -⟩ := exists_of_getElem?_keepBlocks (getElem?_of_mem_defs hv)
  exact ⟨b, hb, rfl, defs_keepBlocks hb ▸ hv⟩

namespace KeepsPaths

section

variable (h : f.KeepsPaths keep)

include h

theorem entry_keepBlocks :
  (f.keepBlocks keep).entry = f.place keep f.entry
  := by
  change ((f.kept keep).idxOf? f.entry).getD 0 = _
  rw [idxOf?_eq_some_place h.entry]
  rfl

/-! ## Paths -/

theorem mem_kept_of_reached (hb : b ∈ f.reversePostorder) :
  b ∈ f.kept keep
  := by
  induction mem_reachedAvoiding.mp hb with
  | entry => exact h.entry
  | step hbefore hnext _ ih => exact h.next _ (ih (mem_reachedAvoiding.mpr hbefore)) _ hnext

theorem reaches (avoided : List BlockId) (hk : (f.keepBlocks keep).Reaches (avoided.map (f.place keep)) k) :
  ∃ b ∈ f.kept keep, k = f.place keep b ∧ f.Reaches avoided b
  := by
  induction hk with
  | entry hnot =>
    rw [h.entry_keepBlocks] at hnot ⊢
    exact ⟨f.entry, h.entry, rfl, .entry fun hmem => hnot (List.mem_map_of_mem hmem)⟩
  | step _ hnext hnot ih =>
    obtain ⟨b, hb, rfl, hreaches⟩ := ih
    rw [successors, block_keepBlocks hb, Terminator.successors_mapTargets] at hnext
    obtain ⟨next, hnext', rfl⟩ := List.mem_map.mp hnext
    exact ⟨next, h.next b hb next hnext', rfl,
      .step hreaches hnext' fun hmem => hnot (List.mem_map_of_mem hmem)⟩

theorem exists_of_mem_reversePostorder (hk : k ∈ (f.keepBlocks keep).reversePostorder) :
  ∃ b ∈ f.kept keep, k = f.place keep b ∧ b ∈ f.reversePostorder
  := by
  obtain ⟨b, hb, rfl, hreaches⟩ := h.reaches [] (mem_reachedAvoiding.mp hk)
  exact ⟨b, hb, rfl, mem_reachedAvoiding.mpr hreaches⟩

theorem dominates (hb : b ∈ f.kept keep) (hplace : f.place keep b ∈ (f.keepBlocks keep).reversePostorder)
    (hdominates : f.dominates d b = true) :
  (f.keepBlocks keep).dominates (f.place keep d) (f.place keep b) = true
  := by
  rcases dominates_iff.mp hdominates with rfl | ⟨-, hnot⟩
  · exact dominates_iff.mpr (.inl rfl)
  · refine dominates_iff.mpr (.inr ⟨hplace, fun hreaches => hnot ?_⟩)
    obtain ⟨b', hb', heq, hreaches⟩ := h.reaches [d] hreaches
    exact place_inj hb hb' heq ▸ hreaches

theorem isKnown (hf : f.IsSsa) (hb : b ∈ f.reversePostorder)
    (hplace : f.place keep b ∈ (f.keepBlocks keep).reversePostorder) (hv : IsKnown f b v) :
  IsKnown (f.keepBlocks keep) (f.place keep b) v
  := by
  have hkept := h.mem_kept_of_reached hb
  rcases hv with hparam | ⟨d, hne, hdominates, hdef⟩
  · exact .inl (by rwa [block_keepBlocks hkept])
  · obtain ⟨site, rfl, hsite⟩ := mem_defs_iff.mp hdef
    have hdefined : IsDefinedAt f b 0 v := ⟨site, hsite, .inr ⟨hne, hdominates⟩⟩
    have hd := h.mem_kept_of_reached (mem_reversePostorder_of_isDefinedAt hf hb hdefined hsite)
    exact .inr ⟨f.place keep site.block, fun heq => hne (place_inj hd hkept heq),
      h.dominates hkept hplace hdominates, by rwa [defs_keepBlocks hd]⟩

/-! ## Well-formedness -/

theorem isSsa (hf : f.IsSsa) :
  (f.keepBlocks keep).IsSsa
  := by
  obtain ⟨⟨entry, hentry, hparams⟩, hnodup, -⟩ := isSsa_iff.mp hf
  have hold : ∀ {b}, b ∈ f.kept keep → f.blocks[b]? = some (f.block b) := fun hb => by
    simp [block, (mem_kept.mp hb).1]
  have hmem : ∀ b next, b ∈ f.kept keep → next ∈ f.successors b → f.place keep next
      < (f.keepBlocks keep).blocks.length ∧ ((f.keepBlocks keep).block (f.place keep next)).params
        = (f.block next).params := by
    intro b next hb hnext
    have hkept := h.next b hb next hnext
    rw [length_keepBlocks, block_keepBlocks hkept]
    exact ⟨place_lt hkept, rfl⟩
  rw [isSsa_iff]
  refine ⟨?_, ?_, ?_, ?_, ?_⟩
  · rw [h.entry_keepBlocks]
    refine ⟨_, getElem?_keepBlocks h.entry, ?_⟩
    exact (show (f.block f.entry).params = f.params by simpa [block, hentry] using hparams)
  · rw [nodup_defs_iff_blocks] at hnodup ⊢
    constructor
    · intro k
      by_cases hk : k < (f.kept keep).length
      · obtain ⟨b, hb, rfl⟩ := exists_place hk
        rw [defs_keepBlocks hb]
        exact hnodup.1 b
      · rw [← length_keepBlocks] at hk
        rw [show (f.keepBlocks keep).block k = .empty by simp [block, hk]]
        exact List.nodup_nil
    · intro k k' v hv hv'
      obtain ⟨b, hb, rfl, hdef⟩ := exists_of_mem_defs_keepBlocks hv
      obtain ⟨b', hb', rfl, hdef'⟩ := exists_of_mem_defs_keepBlocks hv'
      rw [hnodup.2 b b' v hdef hdef']
  · intro k block target args hk hterminator
    obtain ⟨b, hb, rfl, rfl⟩ := exists_of_getElem?_keepBlocks hk
    cases hlast : (f.block b).terminator with
    | jump target' args' =>
      rw [hlast] at hterminator
      cases hterminator
      obtain ⟨hlt, hparams⟩ := hmem b target' hb (by simp [successors, hlast, Terminator.successors])
      rw [hparams]
      exact ⟨hlt, (hf.jump (hold hb) hlast).2⟩
    | ret | branch | unreachable =>
      rw [hlast] at hterminator
      cases hterminator
  · intro k block test thenBlock elseBlock hk hterminator next hnext
    obtain ⟨b, hb, rfl, rfl⟩ := exists_of_getElem?_keepBlocks hk
    cases hlast : (f.block b).terminator with
    | branch test' thenBlock' elseBlock' =>
      rw [hlast] at hterminator
      cases hterminator
      obtain ⟨next, hold', rfl⟩ := List.mem_map.mp
        (show next ∈ [thenBlock', elseBlock'].map (f.place keep) from hnext)
      obtain ⟨hlt, hparams⟩ := hmem b next hb (by
        simpa [successors, hlast, Terminator.successors] using hold')
      rw [hparams]
      exact ⟨hlt, (hf.branch (hold hb) hlast next hold').2⟩
    | ret | jump | unreachable =>
      rw [hlast] at hterminator
      cases hterminator
  · intro k hk block hblock
    obtain ⟨b, hb, rfl, hreached⟩ := h.exists_of_mem_reversePostorder hk
    obtain rfl := Option.some.inj (hblock.symm.trans (getElem?_keepBlocks hb))
    have hscoped := (hf.scoped hreached).mono fun v hv => h.isKnown hf hreached hk hv
    have huses : ((f.block b).terminator.mapTargets (f.place keep)).uses = (f.block b).terminator.uses := by
      cases (f.block b).terminator <;> rfl
    rw [huses]
    exact hscoped

theorem verify_keepBlocks (hf : f.verify = .ok ()) :
  (f.keepBlocks keep).verify = .ok ()
  := by
  have hssa := isSsa_of_verify hf
  have hextends : f.Extends (f.keepBlocks keep) := ⟨rfl, List.prefix_rfl⟩
  have htype : ∀ v, Verify.KeepsType f (f.keepBlocks keep) v v := fun v => Verify.keeps_varType hextends v
  refine verify_of_blocks (h.isSsa hssa) ?_ ?_ ?_ ?_
  · refine check_bind_eq_ok.mpr ⟨?_, check_bind_eq_ok.mpr ⟨?_, forM_eq_ok.mpr fun l hl => ?_⟩⟩
    · rw [h.entry_keepBlocks, length_keepBlocks]
      simpa using place_lt h.entry
    · rw [h.entry_keepBlocks, block_keepBlocks h.entry]
      obtain ⟨entry, hentry, hparams⟩ := hssa.entry
      rw [Verify.ensure_eq_ok, decide_eq_true_eq]
      exact (show (f.block f.entry).params = f.params by simpa [block, hentry] using hparams)
    · -- A loop is kept only if its main blocks are.
      obtain ⟨old, -, hrename⟩ := List.mem_filterMap.mp hl
      have hlt : ∀ {b k}, (f.kept keep).idxOf? b = some k → k < (f.keepBlocks keep).blocks.length := by
        intro b k hk
        rw [length_keepBlocks]
        exact (List.idxOf?_eq_some_iff.mp hk).1
      unfold renameLoop? at hrename
      obtain ⟨preheader, hpreheader, hrename⟩ := Option.bind_eq_some_iff.mp hrename
      obtain ⟨header, hheader, hrename⟩ := Option.bind_eq_some_iff.mp hrename
      obtain ⟨latch, hlatch, hrename⟩ := Option.bind_eq_some_iff.mp hrename
      obtain ⟨exit, hexit, hrename⟩ := Option.bind_eq_some_iff.mp hrename
      obtain rfl := Option.some.inj hrename
      refine forM_eq_ok.mpr fun b hb => ?_
      simp only [List.mem_cons, List.mem_filterMap] at hb
      simp only [Verify.ensure_eq_ok, decide_eq_true_eq]
      rcases hb with rfl | rfl | rfl | rfl | ⟨b, -, hb⟩
      · exact hlt hpreheader
      · exact hlt hheader
      · exact hlt hlatch
      · exact hlt hexit
      · exact hlt hb
  · intro k v hv
    obtain ⟨b, -, -, hv⟩ := exists_of_mem_defs_keepBlocks hv
    exact Verify.lt_of_mem_defs hf hv
  · intro k i hi
    obtain ⟨b, hb, rfl, -⟩ := exists_of_getElem?_keepBlocks (getElem?_of_mem_instrs hi)
    rw [block_keepBlocks hb] at hi
    exact Verify.keeps_instr hextends _ () (Verify.instr_of_mem hf hi)
  · intro k hk
    rw [length_keepBlocks] at hk
    obtain ⟨b, hb, rfl⟩ := exists_place hk
    have hcheck := Verify.terminator_of_lt hf (mem_kept.mp hb).1
    have hnext : ∀ next ∈ f.successors b, f.place keep next < (f.keepBlocks keep).blocks.length
        ∧ ((f.keepBlocks keep).block (f.place keep next)).params = (f.block next).params := by
      intro next hnext
      have hkept := h.next b hb next hnext
      rw [length_keepBlocks, block_keepBlocks hkept]
      exact ⟨place_lt hkept, rfl⟩
    rw [block_keepBlocks hb]
    simp only
    cases hlast : (f.block b).terminator with
    | ret value =>
      rw [hlast] at hcheck
      cases value with
      | none => exact hcheck
      | some v => exact (htype v).expect _ () hcheck
    | unreachable => rfl
    | jump target args =>
      rw [hlast] at hcheck
      obtain ⟨-, hlength, htypes⟩ := Verify.jump_eq_ok.mp hcheck
      obtain ⟨hlt, hparams⟩ := hnext target (by simp [successors, hlast, Terminator.successors])
      exact Verify.jump_eq_ok.mpr ⟨hlt, by rw [hparams, hlength], by rw [hparams]; exact htypes⟩
    | branch test thenBlock elseBlock =>
      rw [hlast] at hcheck
      obtain ⟨htest, htargets⟩ := Verify.branch_eq_ok.mp hcheck
      refine Verify.branch_eq_ok.mpr ⟨htest, fun next hmem => ?_⟩
      obtain ⟨next, hold, rfl⟩ := List.mem_map.mp
        (show next ∈ [thenBlock, elseBlock].map (f.place keep) from hmem)
      obtain ⟨hlt, hparams⟩ := hnext next (by simpa [successors, hlast, Terminator.successors] using hold)
      exact ⟨hlt, by rw [hparams, (htargets next hold).2]⟩

end

/-! ## Runs -/

/-- The same state, at a block and at its new number. -/
def Placed (f : Function) (keep : BlockId → Bool) (p q : Point) : Prop :=
  p.1 ∈ f.kept keep ∧ q = (f.place keep p.1, p.2)

theorem step_keepBlocks (h : f.KeepsPaths keep) (W : World) (calls : Caller) {p q : Point}
    (hpq : Placed f keep p q) :
  Agree (Placed f keep) (f.step W calls p) ((f.keepBlocks keep).step W calls q)
  := by
  obtain ⟨b, s⟩ := p
  obtain ⟨hb, rfl⟩ := hpq
  have hinstrs : ((f.keepBlocks keep).block (f.place keep b)).instrs = (f.block b).instrs := by
    rw [block_keepBlocks hb]
    rfl
  unfold step
  simp only
  rw [hinstrs, show (f.keepBlocks keep).varType = f.varType from rfl]
  refine (agree_eq.mpr rfl).bind ?_
  rintro s _ rfl
  have hnext := h.next b hb
  unfold successors at hnext
  rw [block_keepBlocks hb]
  simp only
  cases hlast : (f.block b).terminator with
  | ret | unreachable => rfl
  | branch test thenBlock elseBlock =>
    refine ⟨_, rfl, ?_, ?_⟩
    · rw [hlast] at hnext
      simp only
      split <;> exact hnext _ (by simp [Terminator.successors])
    · simp only
      split <;> rfl
  | jump target args =>
    have hkept := hnext target (by simp [hlast, Terminator.successors])
    refine ⟨_, rfl, hkept, ?_⟩
    rw [block_keepBlocks hkept]

theorem sameBehaviour (h : f.KeepsPaths keep) (W : World) :
  SameBehaviour W f (f.keepBlocks keep)
  := by
  intro args vars store
  have hmeets : Meets (f.step W W.caller) ((f.keepBlocks keep).step W W.caller) (Placed f keep) :=
    .of_agree (fun hpq => by rw [hpq.2]; rfl) (h.step_keepBlocks W W.caller)
  apply SameRuns.of_meets hmeets (f.keepsTrace W W.remembers_caller)
    ((f.keepBlocks keep).keepsTrace W W.remembers_caller)
  use h.entry
  simp only [startPoint, h.entry_keepBlocks]
  rfl

end KeepsPaths

/-! ## Unreachable blocks -/

theorem keepsPaths_reached (hf : f.verify = .ok ()) :
  f.KeepsPaths f.reversePostorder.contains
  where
  entry := mem_kept.mpr ⟨Verify.lt_of_mem_reversePostorder hf (IsSsa.mem_reversePostorder_entry f), by
    simpa using IsSsa.mem_reversePostorder_entry f⟩
  next b hb next hnext := by
    have hreached : b ∈ f.reversePostorder := by simpa using (mem_kept.mp hb).2
    have hmem := mem_reversePostorder_of_successor hreached hnext
    exact mem_kept.mpr ⟨Verify.lt_of_mem_reversePostorder hf hmem, by simpa using hmem⟩

theorem removeUnreachable_eq (f : Function) :
  f.removeUnreachable.2 = f ∨ f.removeUnreachable.2 = f.keepBlocks f.reversePostorder.contains
  := by
  unfold removeUnreachable compact
  simp only
  split
  · exact .inl rfl
  · exact .inr rfl

/-- A function stays well-formed and behaves as before without its unreachable blocks. -/
theorem sameBehaviour_removeUnreachable (hf : f.verify = .ok ()) :
  f.removeUnreachable.2.verify = .ok () ∧ ∀ W, SameBehaviour W f f.removeUnreachable.2
  := by
  have hkeeps := keepsPaths_reached hf
  rcases f.removeUnreachable_eq with heq | heq
  · rw [heq]
    exact ⟨hf, fun W => .refl W f⟩
  · rw [heq]
    exact ⟨hkeeps.verify_keepBlocks hf, hkeeps.sameBehaviour⟩

end Function

end FormCompiler.Flow
