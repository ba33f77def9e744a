import FormCompiler.Optimize.Fold
import FormCompiler.Proofs.Flow.Visited
import FormCompiler.Proofs.Optimize.Sound

/-!
# Joined blocks

A block that jumps to a block which nobody else goes to can take over its instructions and its
terminator. One step of the function with the joined block is then two steps of the old one.
-/

namespace FormCompiler.Flow

open Verify (IsSite IsDefinedAt Site)

namespace Fold

/-- A block may be joined to another one. -/
structure CanJoin (f : Function) (into source : BlockId) : Prop where
  verify : f.verify = .ok ()
  jump : (f.block into).terminator = .jump source []
  ne : source ≠ into
  entry : source ≠ f.entry
  only : f.predecessors source = [into]
  params : (f.block source).params = []

variable {f : Function} {into source d b : BlockId} {v : VarId}

theorem canJoin_of_joinable? (hf : f.verify = .ok ()) (h : joinable? f into = some source) :
  CanJoin f into source
  := by
  unfold joinable? at h
  split at h
  · next target hjump =>
    split at h
    · next hall =>
      obtain rfl := Option.some.inj h
      obtain ⟨hne, hentry, -, hone, hparams⟩ := hall
      refine ⟨hf, hjump, hne, hentry, ?_, by simpa using hparams⟩
      obtain ⟨p, hp⟩ := List.length_eq_one_iff.mp hone
      have hinto : into ∈ f.predecessors target := Function.mem_predecessors.mpr (by
        simp [Function.successors, hjump, Terminator.successors])
      rw [hp] at hinto ⊢
      rw [List.mem_singleton.mp hinto]
    · cases h
  · cases h

namespace CanJoin

section

variable (h : CanJoin f into source)

include h

theorem ssa :
  f.IsSsa
  := Function.isSsa_of_verify h.verify

theorem mem_successors :
  source ∈ f.successors into
  := by
  simp [Function.successors, h.jump, Terminator.successors]

theorem into_lt :
  into < f.blocks.length
  := by
  by_contra hge
  have hmem := h.mem_successors
  rw [Function.successors_eq_nil (Nat.le_of_not_lt hge)] at hmem
  cases hmem

theorem source_lt :
  source < f.blocks.length
  := Verify.lt_of_mem_successors h.verify h.mem_successors

theorem eq_into (hnext : source ∈ f.successors d) :
  d = into
  := Function.eq_of_predecessors h.only hnext

/-! ## The function with a joined block -/

theorem block_join (d : BlockId) :
  (join f into source).block d
    = if d = into then
        ⟨(f.block into).params, (f.block into).body ++ (f.block source).body, (f.block source).terminator⟩
      else if d = source then .empty else f.block d
  := by
  unfold join
  simp only
  rw [Function.block_modifyBlock]
  · split
    · next heq =>
      rw [Function.block_modifyBlock h.source_lt, if_neg (heq ▸ h.ne.symm), heq]
    · rw [Function.block_modifyBlock h.source_lt]
  · simpa [Function.modifyBlock] using h.into_lt

theorem block_into :
  (join f into source).block into
    = ⟨(f.block into).params, (f.block into).body ++ (f.block source).body, (f.block source).terminator⟩
  := by
  rw [h.block_join, if_pos rfl]

theorem instrs_into :
  ((join f into source).block into).instrs = (f.block into).instrs ++ (f.block source).instrs
  := by
  rw [h.block_into]
  exact List.map_append

theorem block_source :
  (join f into source).block source = .empty
  := by
  rw [h.block_join, if_neg h.ne, if_pos rfl]

theorem block_other (hinto : d ≠ into) (hsource : d ≠ source) :
  (join f into source).block d = f.block d
  := by
  rw [h.block_join, if_neg hinto, if_neg hsource]

theorem sameFrame :
  SameFrame f (join f into source)
  := by
  refine ⟨rfl, rfl, rfl, rfl, rfl, rfl, by simp [join, Function.modifyBlock], fun d => ?_⟩
  by_cases hinto : d = into
  · rw [hinto, h.block_into]
  by_cases hsource : d = source
  · rw [hsource, h.block_source, h.params]
    rfl
  · rw [h.block_other hinto hsource]

/-! ## Paths -/

theorem reaches {avoided : List BlockId} (hsource : source ∉ avoided) (hb : (join f into source).Reaches avoided b) :
  f.Reaches avoided b ∧ b ≠ source
  := by
  induction hb with
  | entry hnot => exact ⟨.entry hnot, h.entry.symm⟩
  | @step b next _ hnext hnot ih =>
    obtain ⟨hreaches, hne⟩ := ih
    by_cases hinto : b = into
    · subst hinto
      rw [Function.successors, h.block_into] at hnext
      refine ⟨.step (.step hreaches h.mem_successors hsource) hnext hnot, ?_⟩
      rintro rfl
      exact h.ne (h.eq_into hnext)
    · rw [Function.successors, h.block_other hinto hne] at hnext
      refine ⟨.step hreaches hnext hnot, ?_⟩
      rintro rfl
      exact hinto (h.eq_into hnext)

theorem mem_reversePostorder (hb : b ∈ (join f into source).reversePostorder) :
  b ∈ f.reversePostorder ∧ b ≠ source
  := by
  obtain ⟨hreaches, hne⟩ := h.reaches (by simp) (Function.mem_reachedAvoiding.mp hb)
  exact ⟨Function.mem_reachedAvoiding.mpr hreaches, hne⟩

end

/-- The block that holds what a block held before. -/
def holder (into source d : BlockId) : BlockId := if d = source then into else d

variable (h : CanJoin f into source)

include h

theorem dominates (hb : b ∈ (join f into source).reversePostorder) (hdominates : f.dominates d b = true) :
  (join f into source).dominates (holder into source d) b = true
  := by
  obtain ⟨-, hbsource⟩ := h.mem_reversePostorder hb
  unfold holder
  rcases Function.dominates_iff.mp hdominates with rfl | ⟨-, hnot⟩
  · rw [if_neg hbsource]
    exact Function.dominates_iff.mpr (.inl rfl)
  refine Function.dominates_iff.mpr (.inr ⟨hb, fun hreaches => hnot ?_⟩)
  split at hreaches
  · next heq =>
    subst heq
    -- A path that avoids the only predecessor avoids the block as well.
    have hpath := (h.reaches (by simpa using h.ne) hreaches).1
    clear hnot hdominates hb hbsource hreaches
    induction hpath with
    | entry => exact .entry (by simpa using h.entry.symm)
    | step hbefore hnext _ ih =>
      refine .step ih hnext ?_
      simp only [List.mem_singleton]
      rintro rfl
      exact Function.not_mem_of_reaches hbefore (by simp [h.eq_into hnext])
  · next hne => exact (h.reaches (by simpa using Ne.symm hne) hreaches).1

/-! ## Definitions -/

/-- Definitions go with the instructions. -/
theorem mem_defs :
  v ∈ ((join f into source).block b).defs ↔ ∃ d, v ∈ (f.block d).defs ∧ b = holder into source d
  := by
  unfold holder
  have hsource : ∀ {w}, w ∈ (f.block source).defs ↔ w ∈ (f.block source).instrs.filterMap Instr.def? := by
    intro w
    simp [Block.defs, h.params]
  by_cases hinto : b = into
  · subst hinto
    rw [Block.defs, h.instrs_into, h.sameFrame.blockParams, List.filterMap_append, ← List.append_assoc,
      List.mem_append, ← hsource]
    constructor
    · rintro (hv | hv)
      · exact ⟨b, hv, by rw [if_neg h.ne.symm]⟩
      · exact ⟨source, hv, by rw [if_pos rfl]⟩
    · rintro ⟨d, hv, heq⟩
      split at heq
      · next hd => exact .inr (hd ▸ hv)
      · exact .inl (heq ▸ hv)
  by_cases hbsource : b = source
  · subst hbsource
    rw [h.block_source]
    simp only [Block.defs, Block.empty, Block.instrs, List.map_nil, List.filterMap_nil, List.append_nil,
      List.not_mem_nil, false_iff, not_exists, not_and]
    intro d _ heq
    split at heq
    · exact hinto heq
    · next hne => exact hne heq.symm
  · rw [h.block_other hinto hbsource]
    constructor
    · exact fun hv => ⟨b, hv, by rw [if_neg hbsource]⟩
    · rintro ⟨d, hv, heq⟩
      split at heq
      · exact absurd heq hinto
      · exact heq ▸ hv

theorem nodup_defs :
  ((join f into source).blocks.flatMap Block.defs).Nodup
  := by
  obtain ⟨-, hnodup, -⟩ := Function.isSsa_iff.mp h.ssa
  rw [nodup_defs_iff_blocks] at hnodup ⊢
  constructor
  · intro b
    by_cases hinto : b = into
    · subst hinto
      have hsource := hnodup.1 source
      rw [Block.defs, h.params, List.nil_append] at hsource
      rw [Block.defs, h.instrs_into, h.sameFrame.blockParams, List.filterMap_append, ← List.append_assoc]
      refine List.nodup_append.mpr ⟨hnodup.1 b, hsource, ?_⟩
      rintro v hv _ hv' rfl
      exact h.ne (hnodup.2 source b v (List.mem_append_right _ hv') hv)
    by_cases hbsource : b = source
    · rw [hbsource, h.block_source]
      exact List.nodup_nil
    · rw [h.block_other hinto hbsource]
      exact hnodup.1 b
  · intro b b' v hv hv'
    obtain ⟨d, hd, rfl⟩ := h.mem_defs.mp hv
    obtain ⟨d', hd', rfl⟩ := h.mem_defs.mp hv'
    rw [hnodup.2 d d' v hd hd']

theorem isKnown (hb : b ∈ (join f into source).reversePostorder) (hv : IsKnown f b v) :
  IsKnown (join f into source) b v
  := by
  obtain ⟨hreached, hbsource⟩ := h.mem_reversePostorder hb
  rcases hv with hparam | ⟨d, hne, hdominates, hdef⟩
  · exact .inl (h.sameFrame.blockParams b ▸ hparam)
  · refine .inr ⟨holder into source d, ?_, h.dominates hb hdominates, h.mem_defs.mpr ⟨d, hdef, rfl⟩⟩
    unfold holder
    split
    · next heq =>
      rintro rfl
      have hsource := Function.mem_reversePostorder_of_successor hreached h.mem_successors
      exact Function.not_dominates_of_predecessors h.only hsource h.entry (heq ▸ hdominates)
    · exact hne

theorem isSsa :
  (join f into source).IsSsa
  := by
  obtain ⟨⟨entry, hentry, hparams⟩, -, -⟩ := Function.isSsa_iff.mp h.ssa
  have hblock : ∀ {id : BlockId} {b}, (join f into source).blocks[id]? = some b → b.terminator ≠ .unreachable →
      ∃ d, f.blocks[d]? = some (f.block d) ∧ b.terminator = (f.block d).terminator := by
    intro id b hb hreturns
    obtain ⟨hlt, rfl⟩ := h.sameFrame.getElem?_block hb
    by_cases hinto : id = into
    · refine ⟨source, by simp [Function.block, h.source_lt], ?_⟩
      rw [hinto, h.block_into]
    by_cases hsource : id = source
    · rw [hsource, h.block_source] at hreturns
      exact absurd rfl hreturns
    · exact ⟨id, by simp [Function.block, hlt], by rw [h.block_other hinto hsource]⟩
  rw [Function.isSsa_iff]
  refine ⟨?_, h.nodup_defs, ?_, ?_, ?_⟩
  · have hlt : f.entry < (join f into source).blocks.length := by
      rw [h.sameFrame.length]
      exact (List.getElem?_eq_some_iff.mp hentry).1
    refine ⟨(join f into source).block f.entry, ?_, ?_⟩
    · change (join f into source).blocks[f.entry]? = _
      simp [Function.block, hlt]
    · rw [h.sameFrame.blockParams]
      exact (show (f.block f.entry).params = f.params by simpa [Function.block, hentry] using hparams)
  · intro id b target args hb hterminator
    obtain ⟨d, hd, hlast⟩ := hblock hb (by simp [hterminator])
    rw [h.sameFrame.length, h.sameFrame.blockParams]
    exact h.ssa.jump hd (hlast ▸ hterminator)
  · intro id b test thenBlock elseBlock hb hterminator next hnext
    obtain ⟨d, hd, hlast⟩ := hblock hb (by simp [hterminator])
    rw [h.sameFrame.length, h.sameFrame.blockParams]
    exact h.ssa.branch hd (hlast ▸ hterminator) next hnext
  · intro id hid b hb
    obtain ⟨-, rfl⟩ := h.sameFrame.getElem?_block hb
    obtain ⟨hreached, hsource⟩ := h.mem_reversePostorder hid
    have hscoped := (h.ssa.scoped hreached).mono fun v => h.isKnown hid
    by_cases hinto : id = into
    · subst hinto
      rw [h.instrs_into, h.block_into, scoped_append]
      rw [h.jump] at hscoped
      refine ⟨hscoped, ?_⟩
      have hnext := Function.mem_reversePostorder_of_successor hreached h.mem_successors
      refine (h.ssa.scoped hnext).mono fun v hv => ?_
      rcases hv with hparam | ⟨d, hne, hdominates, hdef⟩
      · rw [h.params] at hparam
        cases hparam
      · have hbefore := Function.dominates_of_successor hdominates hne hreached h.mem_successors
        by_cases hd : d = id
        · subst hd
          rcases List.mem_append.mp hdef with hparam | hinstr
          · exact .inl (h.isKnown hid (.inl hparam))
          · exact .inr (List.mem_filterMap.mp hinstr)
        · exact .inl (h.isKnown hid (.inr ⟨d, hd, hbefore, hdef⟩))
    · rw [h.block_other hinto hsource]
      exact hscoped

theorem verify_join :
  (join f into source).verify = .ok ()
  := by
  refine Function.verify_of_blocks h.isSsa ?_ ?_ ?_ ?_
  · rw [show Verify.shape (join f into source) = Verify.shape f by
      simp only [Verify.shape, h.sameFrame.entry, h.sameFrame.length, h.sameFrame.params,
        h.sameFrame.blockParams, h.sameFrame.loops]]
    exact (Function.verify_eq_ok.mp h.verify).1
  · intro b v hv
    obtain ⟨d, hd, -⟩ := h.mem_defs.mp hv
    exact Verify.lt_of_mem_defs h.verify hd
  · intro b i hi
    have hold : ∃ d, i ∈ (f.block d).instrs := by
      by_cases hinto : b = into
      · rw [hinto, h.instrs_into] at hi
        exact (List.mem_append.mp hi).elim (fun hi => ⟨into, hi⟩) fun hi => ⟨source, hi⟩
      by_cases hsource : b = source
      · rw [hsource, h.block_source] at hi
        cases hi
      · exact ⟨b, h.block_other hinto hsource ▸ hi⟩
    obtain ⟨d, hi⟩ := hold
    exact Verify.keeps_instr h.sameFrame.toExtends _ () (Verify.instr_of_mem h.verify hi)
  · intro b hb
    rw [h.sameFrame.length] at hb
    by_cases hinto : b = into
    · rw [hinto, h.block_into]
      exact h.sameFrame.terminator (Verify.terminator_of_lt h.verify h.source_lt)
    by_cases hsource : b = source
    · rw [hsource, h.block_source]
      rfl
    · rw [h.block_other hinto hsource]
      exact h.sameFrame.terminator (Verify.terminator_of_lt h.verify hb)

/-! ## Runs -/

theorem run_terminator (t : Terminator) (s : State) :
  t.run (join f into source) s = t.run f s
  := by
  cases t with
  | jump target args => simp only [Terminator.run, h.sameFrame.blockParams]
  | ret | branch | unreachable => rfl

/-- A step from the joined block is two steps. -/
theorem step_into (W : World) (s : State) :
  (join f into source).step W W.caller (into, s) = steps (f.step W W.caller) 2 (into, s)
  := by
  have hfirst : ∀ s', (Terminator.jump source []).run f s' = .ok (source, s') := by
    intro s'
    simp only [Terminator.run, h.params]
    rfl
  rw [steps, show steps (f.step W W.caller) 1 = f.step W W.caller from funext (steps_one _)]
  simp only [Function.step, h.instrs_into, runAll_append, h.sameFrame.varType, h.jump]
  rw [h.block_into]
  cases runAll W W.caller f.varType (f.block into).instrs s with
  | error stop => rfl
  | ok s' =>
    change (runAll W W.caller f.varType (f.block source).instrs s' >>= _)
      = ((Terminator.jump source []).run f s' >>= _)
    rw [hfirst]
    refine congrArg _ (funext fun s'' => ?_)
    exact h.run_terminator _ _

theorem step_other (W : World) {s : State} (hinto : d ≠ into) (hsource : d ≠ source) :
  (join f into source).step W W.caller (d, s) = f.step W W.caller (d, s)
  := by
  simp only [Function.step, h.block_other hinto hsource, h.sameFrame.varType]
  refine congrArg _ (funext fun s' => ?_)
  exact h.run_terminator _ _

theorem ne_source_of_step {W : World} {p q : Point} (hp : p.1 ≠ source)
    (hstep : (join f into source).step W W.caller p = .ok q) :
  q.1 ≠ source
  := by
  obtain ⟨s, -, hlast⟩ := bind_eq_ok.mp hstep
  have hnext := Terminator.mem_successors_of_run hlast
  intro hq
  rw [hq] at hnext
  by_cases hinto : p.1 = into
  · rw [hinto, h.block_into] at hnext
    exact h.ne (h.eq_into hnext)
  · rw [h.block_other hinto hp] at hnext
    exact hinto (h.eq_into hnext)

theorem meets (W : World) :
  Meets (f.step W W.caller) ((join f into source).step W W.caller) fun p q => p = q ∧ p.1 ≠ source
  where
  trace := by
    rintro p _ ⟨rfl, -⟩
    rfl
  meet := by
    rintro ⟨d, s⟩ _ ⟨rfl, hsource⟩
    suffices hsame : ∃ m, steps (f.step W W.caller) (m + 1) (d, s)
        = (join f into source).step W W.caller (d, s) by
      obtain ⟨m, hm⟩ := hsame
      use m, 0
      rw [hm, Nat.zero_add, steps_one]
      exact (agree_eq.mpr rfl).and fun p hp => h.ne_source_of_step hsource hp
    by_cases hinto : d = into
    · subst hinto
      exact ⟨1, (h.step_into W s).symm⟩
    · use 0
      rw [steps_one, h.step_other W hinto hsource]

theorem sameBehaviour (W : World) :
  SameBehaviour W f (join f into source)
  := fun _ _ _ => .of_meets (h.meets W) (f.keepsTrace W W.remembers_caller)
    ((join f into source).keepsTrace W W.remembers_caller) ⟨rfl, h.entry.symm⟩

end CanJoin

theorem isSound_joinFirst :
  joinFirst.IsSound
  := by
  intro f hf
  unfold joinFirst
  simp only
  split
  · next into source hfound =>
    obtain ⟨d, -, hd⟩ := List.exists_of_findSome?_eq_some hfound
    obtain ⟨target, htarget, hpair⟩ := Option.map_eq_some_iff.mp hd
    obtain ⟨rfl, rfl⟩ := Prod.mk.inj hpair
    have hjoin := canJoin_of_joinable? hf htarget
    exact ⟨hjoin.verify_join, fun W _ => hjoin.sameBehaviour W⟩
  · exact Pass.isSound_nothing f hf

theorem isSound_jumpChains :
  jumpChains.IsSound
  := fun f => (isSound_joinFirst.repeated f.blocks.length) f

end Fold

end FormCompiler.Flow
