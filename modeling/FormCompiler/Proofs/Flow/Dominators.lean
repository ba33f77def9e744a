import FormCompiler.Proofs.Flow.Dominance

/-!
# Dominator trees

Blocks are put below the place where the ways up from their predecessors meet, again and again until
nothing changes. Two things are true at every moment. A block that dominates another is never lost on
the way up from it. And after some sweeps, what is still on the way up is on every path that goes back
to an earlier block fewer times than there were sweeps. A path without repetitions goes back fewer
times than there are blocks, so the sweeps come to an end, and at the end exactly the blocks that
dominate a block are on the way up from it.
-/

namespace FormCompiler.Flow

variable {f : Function}

namespace Function

/-! ## Paths with their blocks -/

/-- A path from the entry to a block, as the list of its blocks, the latest first. -/
inductive PathTo (f : Function) : BlockId → List BlockId → Prop where
  | entry : PathTo f f.entry [f.entry]
  | step {b next : BlockId} {path : List BlockId} : PathTo f b path → next ∈ f.successors b →
    PathTo f next (next :: path)

section

variable {b x : BlockId} {path avoided : List BlockId}

theorem PathTo.mem (h : f.PathTo b path) :
  b ∈ path
  := by
  cases h <;> simp

theorem reaches_iff_path :
  f.Reaches avoided b ↔ ∃ path, f.PathTo b path ∧ ∀ x ∈ path, x ∉ avoided
  := by
  constructor
  · intro h
    induction h with
    | entry hnot => exact ⟨_, .entry, by simpa using hnot⟩
    | step _ hnext hnot ih =>
      obtain ⟨path, hpath, havoid⟩ := ih
      exact ⟨_, hpath.step hnext, by simpa using ⟨hnot, havoid⟩⟩
  · rintro ⟨path, hpath, havoid⟩
    induction hpath with
    | entry => exact .entry (by simpa using havoid)
    | step _ hnext ih =>
      rw [List.forall_mem_cons] at havoid
      exact .step (ih havoid.2) hnext havoid.1

theorem mem_reversePostorder_iff_path :
  b ∈ f.reversePostorder ↔ ∃ path, f.PathTo b path
  := by
  simp [reversePostorder, mem_reachedAvoiding, reaches_iff_path]

theorem PathTo.mem_reversePostorder (h : f.PathTo b path) :
  b ∈ f.reversePostorder
  := mem_reversePostorder_iff_path.mpr ⟨path, h⟩

/-- Dominance is about all paths. -/
theorem dominates_iff_path (hb : b ∈ f.reversePostorder) :
  f.dominates x b = true ↔ ∀ path, f.PathTo b path → x ∈ path
  := by
  rw [dominates_iff, reaches_iff_path]
  constructor
  · rintro (rfl | ⟨-, hnot⟩) path hpath
    · exact hpath.mem
    · by_contra hx
      exact hnot ⟨path, hpath, fun y hy heq => hx (List.mem_singleton.mp heq ▸ hy)⟩
  · intro h
    refine .inr ⟨hb, ?_⟩
    rintro ⟨path, hpath, havoid⟩
    exact havoid x (h path hpath) (by simp)

theorem eq_entry_of_dominates (h : f.dominates x f.entry = true) :
  x = f.entry
  := by
  have hentry := mem_reversePostorder_iff_path.mpr ⟨[f.entry], .entry⟩
  exact List.mem_singleton.mp ((dominates_iff_path hentry).mp h _ .entry)

/-! ## Blocks that there are -/

/-- The entry and the terminators name only blocks of the function. -/
structure IsClosed (f : Function) : Prop where
  entry : f.entry < f.blocks.length
  targets : ∀ block ∈ f.blocks, ∀ next ∈ block.terminator.successors, next < f.blocks.length

instance : DecidablePred IsClosed := fun f =>
  decidable_of_iff (f.entry < f.blocks.length ∧
      ∀ block ∈ f.blocks, ∀ next ∈ block.terminator.successors, next < f.blocks.length)
    ⟨fun h => ⟨h.1, h.2⟩, fun h => ⟨h.entry, h.targets⟩⟩

theorem IsClosed.lt_length (h : f.IsClosed) (hb : b ∈ f.reversePostorder) :
  b < f.blocks.length
  := by
  cases mem_reachedAvoiding.mp hb with
  | entry => exact h.entry
  | @step p _ _ hnext _ =>
    by_cases hp : p < f.blocks.length
    · exact h.targets _ (List.mem_of_getElem? (getElem?_of_lt hp)) b hnext
    · rw [successors_eq_nil (Nat.le_of_not_lt hp)] at hnext
      cases hnext

theorem IsClosed.length_reversePostorder_le (h : f.IsClosed) :
  f.reversePostorder.length ≤ f.blocks.length
  := by
  have hsubset : f.reversePostorder ⊆ List.range f.blocks.length := fun b hb =>
    List.mem_range.mpr (h.lt_length hb)
  simpa using (List.subperm_of_subset f.nodup_reversePostorder hsubset).length_le

/-! ## Going back -/

/-- The position of a block in the order of the search. -/
def rank (f : Function) (b : BlockId) : Nat := f.reversePostorder.idxOf b

theorem rank_inj (hb : b ∈ f.reversePostorder) (h : f.rank b = f.rank x) :
  b = x
  := (List.idxOf_inj hb).mp h

theorem rank_entry (f : Function) :
  f.rank f.entry = 0
  := by
  obtain ⟨rest, hrest⟩ := List.head?_eq_some_iff.mp f.head?_reversePostorder
  rw [rank, hrest, List.idxOf_cons_self]

/-- How often a path goes back to a block that is not later than the one before. -/
def retreats (f : Function) : List BlockId → Nat
  | next :: b :: path => (if f.rank b < f.rank next then 0 else 1) + f.retreats (b :: path)
  | _ => 0

theorem retreats_step {next : BlockId} (h : f.PathTo b path) :
  f.retreats (next :: path) = (if f.rank b < f.rank next then 0 else 1) + f.retreats path
  := by
  cases h <;> rw [retreats]

theorem retreats_lt_length (h : f.PathTo b path) :
  f.retreats path < path.length
  := by
  induction h with
  | entry => simp [retreats]
  | step h _ ih =>
    rw [retreats_step h, List.length_cons]
    split <;> omega

/-- Some path to a block goes on to later blocks only. -/
theorem exists_path_forward (hb : b ∈ f.reversePostorder) :
  ∃ path, f.PathTo b path ∧ f.retreats path = 0
  := by
  induction hrank : f.rank b using Nat.strong_induction_on generalizing b with
  | _ r ih =>
    by_cases hentry : b = f.entry
    · exact hentry ▸ ⟨_, .entry, rfl⟩
    obtain ⟨p, hp, hlt, hnext⟩ := exists_earlier hb hentry
    obtain ⟨path, hpath, hretreats⟩ := ih (f.rank p) (hrank ▸ hlt) hp rfl
    refine ⟨_, hpath.step hnext, ?_⟩
    have hforward : f.rank p < f.rank b := hlt
    rw [retreats_step hpath, if_pos hforward, hretreats]

/-- A path to a block on a path. -/
theorem PathTo.upTo (h : f.PathTo b path) (hx : x ∈ path) :
  ∃ start, f.PathTo x start ∧ start <:+ path ∧ f.retreats start ≤ f.retreats path
  := by
  induction h with
  | entry =>
    obtain rfl := List.mem_singleton.mp hx
    exact ⟨_, .entry, List.suffix_refl _, Nat.le_refl _⟩
  | @step b next path h hnext ih =>
    rcases List.mem_cons.mp hx with rfl | hx
    · exact ⟨_, h.step hnext, List.suffix_refl _, Nat.le_refl _⟩
    · obtain ⟨start, hstart, hsuffix, hretreats⟩ := ih hx
      refine ⟨start, hstart, hsuffix.trans (List.suffix_cons _ _), hretreats.trans ?_⟩
      rw [retreats_step h]
      exact Nat.le_add_left _ _

/-- A path can leave out what is between two visits to a block. -/
theorem PathTo.exists_nodup (h : f.PathTo b path) :
  ∃ direct, f.PathTo b direct ∧ direct ⊆ path ∧ direct.Nodup
  := by
  induction h with
  | entry => exact ⟨_, .entry, List.Subset.refl _, by simp⟩
  | @step b next path _ hnext ih =>
    obtain ⟨direct, hdirect, hsubset, hnodup⟩ := ih
    by_cases hmem : next ∈ direct
    · obtain ⟨start, hstart, hsuffix, -⟩ := hdirect.upTo hmem
      refine ⟨start, hstart, fun x hx => ?_, hnodup.sublist hsuffix.sublist⟩
      exact List.mem_cons_of_mem _ (hsubset (hsuffix.subset hx))
    · exact ⟨next :: direct, hdirect.step hnext, List.cons_subset_cons _ hsubset,
        List.nodup_cons.mpr ⟨hmem, hnodup⟩⟩

/-- A path without repetitions goes back fewer times than there are reachable blocks. -/
theorem PathTo.exists_retreats_lt (h : f.PathTo b path) :
  ∃ direct, f.PathTo b direct ∧ direct ⊆ path ∧ f.retreats direct < f.reversePostorder.length
  := by
  obtain ⟨direct, hdirect, hsubset, hnodup⟩ := h.exists_nodup
  have hreached : direct ⊆ f.reversePostorder := by
    intro x hx
    obtain ⟨start, hstart, -⟩ := hdirect.upTo hx
    exact hstart.mem_reversePostorder
  refine ⟨direct, hdirect, hsubset, (retreats_lt_length hdirect).trans_le ?_⟩
  exact (List.subperm_of_subset hnodup hreached).length_le

end

end Function

namespace DominatorTree

variable {t : DominatorTree} {a b d x : BlockId}
variable {p c : BlockId}

/-! ## The way up -/

/-- A block is on the way up from another one, or is that one. -/
def Above (t : DominatorTree) (a b : BlockId) : Prop :=
  Relation.ReflTransGen (fun x y => t.parent? x = some y) b a

/--
The entry is above itself. Every other placed block is below an earlier one, and the blocks that
dominate it dominate that one too.
-/
structure IsTree (f : Function) (t : DominatorTree) : Prop where
  length : t.parents.length = f.blocks.length
  entry : t.parent? f.entry = some f.entry
  reached : ∀ b p, t.parent? b = some p → b ∈ f.reversePostorder
  placed : ∀ b p, t.parent? b = some p → t.isReachable p = true
  earlier : ∀ b p, t.parent? b = some p → b ≠ f.entry → f.rank p < f.rank b
  kept : ∀ b p, t.parent? b = some p → b ≠ f.entry →
    ∀ x, x ≠ b → f.dominates x b = true → f.dominates x p = true

theorem exists_parent (h : t.isReachable b = true) :
  ∃ p, t.parent? b = some p
  := Option.isSome_iff_exists.mp h

theorem isReachable_of_parent? (h : t.parent? b = some p) :
  t.isReachable b = true
  := Option.isSome_iff_exists.mpr ⟨p, h⟩

theorem Above.of_parent? (h : t.parent? b = some p) :
  t.Above p b
  := .single h

theorem Above.trans (hab : t.Above a b) (hbd : t.Above b d) :
  t.Above a d
  := Relation.ReflTransGen.trans hbd hab

/-- What is above a block is the block, or is above its parent. -/
theorem Above.eq_or_above_parent (h : t.Above a b) (hp : t.parent? b = some p) :
  a = b ∨ t.Above a p
  := by
  rcases Relation.ReflTransGen.cases_head h with heq | ⟨q, hq, hup⟩
  · exact .inl heq.symm
  · obtain rfl := Option.some.inj (hp.symm.trans hq)
    exact .inr hup

namespace IsTree

variable (h : IsTree f t)

include h

theorem mem_reversePostorder (hb : t.isReachable b = true) :
  b ∈ f.reversePostorder
  := by
  obtain ⟨p, hp⟩ := exists_parent hb
  exact h.reached b p hp

theorem isReachable_of_above (hab : t.Above a b) (hb : t.isReachable b = true) :
  t.isReachable a = true
  := by
  induction hab with
  | refl => exact hb
  | tail _ hp _ => exact h.placed _ _ hp

theorem rank_le_of_above (hab : t.Above a b) :
  f.rank a ≤ f.rank b
  := by
  induction hab with
  | refl => exact Nat.le_refl _
  | @tail x y _ hp ih =>
    by_cases hx : x = f.entry
    · obtain rfl := Option.some.inj (h.entry.symm.trans (hx ▸ hp))
      exact hx ▸ ih
    · exact (h.earlier x y hp hx).le.trans ih

theorem eq_of_above (hb : t.isReachable b = true) (hab : t.Above a b) (hba : f.rank b ≤ f.rank a) :
  a = b
  := by
  refine (f.rank_inj (h.mem_reversePostorder hb) ?_).symm
  exact Nat.le_antisymm hba (h.rank_le_of_above hab)

/-- What dominates a placed block is above it. -/
theorem above_of_dominates (hb : t.isReachable b = true) (hx : f.dominates x b = true) :
  t.Above x b
  := by
  induction hrank : f.rank b using Nat.strong_induction_on generalizing b with
  | _ r ih =>
    obtain ⟨p, hp⟩ := exists_parent hb
    by_cases hxb : x = b
    · exact hxb ▸ .refl
    by_cases hentry : b = f.entry
    · exact absurd (Function.eq_entry_of_dominates (hentry ▸ hx)) (hentry ▸ hxb)
    have hup := ih (f.rank p) (hrank ▸ h.earlier b p hp hentry) (h.placed b p hp)
      (h.kept b p hp hentry x hxb hx) rfl
    exact hup.trans (.of_parent? hp)

/-- What dominates a block dominates what is between the two on the way up. -/
theorem dominates_of_above (hb : t.isReachable b = true) (hd : t.Above d b) (hx : t.Above x d)
    (hdom : f.dominates x b = true) :
  f.dominates x d = true
  := by
  induction hd using Relation.ReflTransGen.head_induction_on with
  | refl => exact hdom
  | @head c p hp hup ih =>
    by_cases hxc : x = c
    · have hdc : d = c := h.eq_of_above hb (.head hp hup) (hxc ▸ h.rank_le_of_above hx)
      exact hdc ▸ hdom
    refine ih (h.placed c p hp) ?_
    by_cases hc : c = f.entry
    · obtain rfl := Option.some.inj (h.entry.symm.trans (hc ▸ hp))
      exact hc ▸ hdom
    · exact h.kept c p hp hc x hxc hdom

/-! ## Where ways meet -/

theorem rank_lt_bound (hf : f.IsClosed) (hb : t.isReachable b = true) :
  f.rank b < t.bound
  := by
  have hrank : f.rank b < f.reversePostorder.length := List.idxOf_lt_length_iff.mpr (h.mem_reversePostorder hb)
  rw [bound, h.length]
  exact Nat.lt_succ_of_lt (hrank.trans_le hf.length_reversePostorder_le)

/-- Going up as far as needed loses nothing of what is early enough. -/
theorem exists_climb (limit : BlockId) (hb : t.isReachable b = true) {steps : Nat} (hsteps : f.rank b < steps) :
  ∃ c, t.climb f.rank limit steps b = some c ∧ t.Above c b ∧ f.rank c ≤ f.rank limit ∧
    ∀ x, t.Above x b → f.rank x ≤ f.rank limit → t.Above x c
  := by
  induction steps generalizing b with
  | zero => exact absurd hsteps (Nat.not_lt_zero _)
  | succ steps ih =>
    rw [climb]
    split
    next hlt =>
      obtain ⟨p, hp⟩ := exists_parent hb
      have hentry : b ≠ f.entry := by
        rintro rfl
        rw [f.rank_entry] at hlt
        exact Nat.not_lt_zero _ hlt
      obtain ⟨c, hc, hup, hle, hall⟩ :=
        ih (h.placed b p hp) ((h.earlier b p hp hentry).trans_le (Nat.le_of_lt_succ hsteps))
      refine ⟨c, by rw [hp]; exact hc, hup.trans (.of_parent? hp), hle, fun x hx hxle => ?_⟩
      refine hall x ((hx.eq_or_above_parent hp).resolve_left ?_) hxle
      rintro rfl
      omega
    next hge => exact ⟨b, rfl, .refl, Nat.le_of_not_lt hge, fun x hx _ => hx⟩

/-- The ways up from two blocks have in common what is above the block where they meet. -/
theorem exists_meet (hf : f.IsClosed) (ha : t.isReachable a = true) (hb : t.isReachable b = true) {turns : Nat}
    (hturns : f.rank a + f.rank b < turns) :
  ∃ c, t.meet f.rank turns a b = some c ∧ ∀ x, t.Above x c ↔ t.Above x a ∧ t.Above x b
  := by
  induction turns generalizing a b with
  | zero => exact absurd hturns (Nat.not_lt_zero _)
  | succ turns ih =>
    rw [meet]
    split
    next heq => exact ⟨a, rfl, fun x => by simp [heq]⟩
    next hne =>
      have hranks : f.rank a ≠ f.rank b := fun heq =>
        hne (f.rank_inj (h.mem_reversePostorder ha) heq)
      obtain ⟨a', ha', haa, hab, halla⟩ := h.exists_climb b ha (h.rank_lt_bound hf ha)
      obtain ⟨b', hb', hbb, hba, hallb⟩ := h.exists_climb a' hb (h.rank_lt_bound hf hb)
      have hlea := h.rank_le_of_above haa
      have hleb := h.rank_le_of_above hbb
      -- The later of the two blocks has been left behind.
      obtain ⟨c, hc, hall⟩ := ih (h.isReachable_of_above haa ha) (h.isReachable_of_above hbb hb) (by omega)
      refine ⟨c, by simp [ha', hb', hc], fun x => (hall x).trans ⟨?_, ?_⟩⟩
      · rintro ⟨hxa, hxb⟩
        exact ⟨hxa.trans haa, hxb.trans hbb⟩
      · rintro ⟨hxa, hxb⟩
        have hxa' := halla x hxa (h.rank_le_of_above hxb)
        exact ⟨hxa', hallb x hxb (h.rank_le_of_above hxa')⟩

/-- Any number of ways up meet. -/
theorem exists_foldlM_meet (hf : f.IsClosed) (first : BlockId) (rest : List BlockId)
    (hplaced : ∀ p ∈ first :: rest, t.isReachable p = true) :
  ∃ c, rest.foldlM (fun met p => t.meet f.rank (2 * t.bound) p met) first = some c ∧
    ∀ x, t.Above x c ↔ ∀ p ∈ first :: rest, t.Above x p
  := by
  induction rest generalizing first with
  | nil => exact ⟨first, rfl, fun x => by simp⟩
  | cons p rest ih =>
    simp only [List.forall_mem_cons] at hplaced
    obtain ⟨hfirst, hp, hrest⟩ := hplaced
    have hpBound := h.rank_lt_bound hf hp
    have hfirstBound := h.rank_lt_bound hf hfirst
    obtain ⟨met, hmet, hall⟩ := h.exists_meet hf hp hfirst (show _ < 2 * t.bound by omega)
    have hplaced : t.isReachable met = true := h.isReachable_of_above ((hall met).mp .refl).1 hp
    obtain ⟨c, hc, hallc⟩ := ih met (List.forall_mem_cons.mpr ⟨hplaced, hrest⟩)
    refine ⟨c, by simp [hmet, hc], fun x => ?_⟩
    simp only [hallc, List.forall_mem_cons, hall]
    tauto

end IsTree

/-! ## Placing a block -/

theorem parent?_place (hb : b < t.parents.length) :
  (t.place b d).parent? c = if c = b then some d else t.parent? c
  := by
  by_cases heq : c = b
  · simp [parent?, place, heq, hb]
  · simp [parent?, place, heq, Ne.symm heq]

theorem place_of_parent? (h : t.parent? b = some d) :
  t.place b d = t
  := by
  have hb : b < t.parents.length := by
    by_contra hge
    rw [parent?, List.getD_eq_default _ _ (Nat.le_of_not_lt hge)] at h
    cases h
  rw [parent?, List.getD_eq_getElem _ _ hb] at h
  rw [place, ← h, List.set_getElem_self]

/-- What is above a block once another one has been placed. -/
theorem above_of_place (hb : b < t.parents.length) (h : (t.place b d).Above x c) :
  t.Above x c ∨ (t.Above b c ∧ t.Above x d)
  := by
  induction h using Relation.ReflTransGen.head_induction_on with
  | refl => exact .inl .refl
  | @head c y hy _ ih =>
    rw [parent?_place hb] at hy
    split at hy
    next heq =>
      obtain rfl := Option.some.inj hy
      exact .inr ⟨heq ▸ .refl, ih.elim id And.right⟩
    next =>
      refine ih.imp (fun hup => hup.trans (.of_parent? hy)) fun ⟨hby, hxd⟩ => ?_
      exact ⟨hby.trans (.of_parent? hy), hxd⟩

theorem eq_or_above_of_place (hb : b < t.parents.length) (h : (t.place b d).Above x b) :
  x = b ∨ t.Above x d
  := by
  refine (h.eq_or_above_parent (by rw [parent?_place hb, if_pos rfl])).imp_right fun hup => ?_
  exact (above_of_place hb hup).elim id And.right

/--
A block is the place where the ways up from the predecessors of another one meet, as far as these have
been placed, and one of them is earlier.
-/
structure Joins (f : Function) (t : DominatorTree) (b d : BlockId) : Prop where
  comesFrom : ∃ p, b ∈ f.successors p ∧ t.isReachable p = true ∧ f.rank p < f.rank b
  above : ∀ x, t.Above x d ↔ ∀ p, b ∈ f.successors p → t.isReachable p = true → t.Above x p

namespace IsTree

/-- An update puts a block below the place where the ways up from its predecessors meet. -/
theorem exists_update (h : IsTree f t) (hf : f.IsClosed) (hb : b ∈ f.reversePostorder) (hentry : b ≠ f.entry)
    (hearlier : ∀ p ∈ f.reversePostorder, f.rank p < f.rank b → t.isReachable p = true) :
  ∃ d changed, t.update f f.rank b = some (changed, t.place b d) ∧ Joins f t b d ∧
    (changed = false ↔ t.parent? b = some d)
  := by
  obtain ⟨p, hp, hlt, hnext⟩ := Function.exists_earlier hb hentry
  have hpred : ∀ q, q ∈ (f.predecessors b).filter (fun p => (t.parent? p).isSome) ↔
      b ∈ f.successors q ∧ t.isReachable q = true := by
    intro q
    rw [List.mem_filter, Function.mem_predecessors]
    rfl
  have hcomes := hearlier p hp hlt
  rw [update]
  split
  next hnil => exact absurd ((hpred p).mpr ⟨hnext, hcomes⟩) (hnil ▸ List.not_mem_nil)
  next first rest hcons =>
    obtain ⟨d, hd, hall⟩ := h.exists_foldlM_meet hf first rest fun q hq =>
      ((hpred q).mp (hcons ▸ hq)).2
    have hjoins : Joins f t b d := by
      refine ⟨⟨p, hnext, hcomes, hlt⟩, fun x => (hall x).trans ?_⟩
      simp only [← hcons, hpred, and_imp]
    rw [hd, Option.bind_eq_bind, Option.bind_some]
    by_cases hsame : t.parent? b = some d
    · exact ⟨d, false, by rw [if_pos hsame, place_of_parent? hsame], hjoins, by simp [hsame]⟩
    · exact ⟨d, true, by rw [if_neg hsame], hjoins, by simp [hsame]⟩

end IsTree

namespace Joins

variable (h : IsTree f t) (hjoins : Joins f t b d)

include h hjoins

theorem rank_lt :
  f.rank d < f.rank b
  := by
  obtain ⟨p, hnext, hp, hlt⟩ := hjoins.comesFrom
  exact (h.rank_le_of_above ((hjoins.above d).mp .refl p hnext hp)).trans_lt hlt

theorem isReachable :
  t.isReachable d = true
  := by
  obtain ⟨p, hnext, hp, -⟩ := hjoins.comesFrom
  exact h.isReachable_of_above ((hjoins.above d).mp .refl p hnext hp) hp

/-- What dominates a block dominates its predecessors, and so what is above all of them. -/
theorem dominates (hx : x ≠ b) (hdom : f.dominates x b = true) :
  f.dominates x d = true
  := by
  have hpred : ∀ p, b ∈ f.successors p → t.isReachable p = true → f.dominates x p = true :=
    fun p hnext hp => Function.dominates_of_successor hdom hx (h.mem_reversePostorder hp) hnext
  obtain ⟨p, hnext, hp, -⟩ := hjoins.comesFrom
  refine h.dominates_of_above hp ((hjoins.above d).mp .refl p hnext hp) ?_ (hpred p hnext hp)
  exact (hjoins.above x).mpr fun q hnext hq => h.above_of_dominates hq (hpred q hnext hq)

theorem isTree (hb : b ∈ f.reversePostorder) (hlt : b < f.blocks.length) (hentry : b ≠ f.entry) :
  IsTree f (t.place b d)
  := by
  have hparent : ∀ c, (t.place b d).parent? c = if c = b then some d else t.parent? c :=
    fun c => parent?_place (h.length ▸ hlt)
  have hplaced : ∀ c, t.isReachable c = true → (t.place b d).isReachable c = true := by
    intro c hc
    rw [DominatorTree.isReachable, hparent]
    split
    · rfl
    · exact hc
  constructor
  · rw [place, List.length_set, h.length]
  · rw [hparent, if_neg (Ne.symm hentry), h.entry]
  all_goals
    intro c p hp
    rw [hparent] at hp
    split at hp
  · next heq => exact heq ▸ hb
  · exact h.reached c p hp
  · exact hplaced p (Option.some.inj hp ▸ hjoins.isReachable h)
  · exact hplaced p (h.placed c p hp)
  · next heq => exact fun _ => heq ▸ Option.some.inj hp ▸ hjoins.rank_lt h
  · exact h.earlier c p hp
  · next heq =>
    intro _ x hx hdom
    exact Option.some.inj hp ▸ hjoins.dominates h (heq ▸ hx) (heq ▸ hdom)
  · exact h.kept c p hp

end Joins

/-! ## What is above a block is on its paths -/

/--
What is above a block is on every path to it that goes back fewer times than the bound for the block.
-/
def Covers (f : Function) (t : DominatorTree) (bound : BlockId → Nat) : Prop :=
  ∀ b path, f.PathTo b path → f.retreats path < bound b →
    t.isReachable b = true ∧ ∀ x, t.Above x b → x ∈ path

/-- The bound during a sweep: the blocks up to some position have been updated. -/
def swept (f : Function) (count position : Nat) (b : BlockId) : Nat :=
  if f.rank b < position then count + 1 else count

/-- A path to a block comes from a predecessor, and passes through what is above all of these. -/
theorem Covers.mem_path {bound : BlockId → Nat} (hc : Covers f t bound) (hjoins : Joins f t b d) {path : List BlockId}
    (hpath : f.PathTo p path) (hnext : b ∈ f.successors p) (hretreats : f.retreats path < bound p) (hx : t.Above x d) :
  x ∈ path
  := by
  obtain ⟨hp, hall⟩ := hc p path hpath hretreats
  exact hall x ((hjoins.above x).mp hx p hnext hp)

section

variable {count : Nat} (h : IsTree f t)

include h

/-- An update raises the bound for its block. -/
theorem Covers.place (hc : Covers f t (swept f count (f.rank b))) (hjoins : Joins f t b d)
    (hb : b < f.blocks.length) (hentry : b ≠ f.entry) :
  Covers f (t.place b d) (swept f count (f.rank b + 1))
  := by
  have hlt : b < t.parents.length := h.length ▸ hb
  intro c path hpath hretreats
  by_cases hcb : c = b
  · subst hcb
    rw [swept, if_pos (Nat.lt_succ_self _)] at hretreats
    refine ⟨isReachable_of_parent? (by rw [parent?_place hlt, if_pos rfl]), fun x hx => ?_⟩
    rcases eq_or_above_of_place hlt hx with rfl | hx
    · exact hpath.mem
    cases hpath with
    | entry => exact absurd rfl hentry
    | @step p _ path hpath hnext =>
      refine List.mem_cons_of_mem _ (hc.mem_path hjoins hpath hnext ?_ hx)
      rw [Function.retreats_step hpath] at hretreats
      rw [swept]
      split at hretreats
      next hless => rw [if_pos hless]; omega
      next hge => rw [if_neg hge]; omega
  · have hrank : f.rank c ≠ f.rank b := fun heq =>
      hcb (Function.rank_inj hpath.mem_reversePostorder heq)
    have hsame : swept f count (f.rank b + 1) c = swept f count (f.rank b) c := by
      simp only [swept, Nat.lt_succ_iff_lt_or_eq, hrank, or_false]
    obtain ⟨hplaced, hall⟩ := hc c path hpath (hsame ▸ hretreats)
    refine ⟨?_, fun x hx => ?_⟩
    · rwa [isReachable, parent?_place hlt, if_neg hcb]
    rcases above_of_place hlt hx with hx | ⟨hbc, hx⟩
    · exact hall x hx
    -- Only later blocks have this one on the way up, and those have not been updated in this sweep.
    have hle : ¬f.rank c < f.rank b := Nat.not_lt.mpr (h.rank_le_of_above hbc)
    rw [hsame, swept, if_neg hle] at hretreats
    obtain ⟨start, hstart, hsuffix, hfewer⟩ := hpath.upTo (hall b hbc)
    cases hstart with
    | entry => exact absurd rfl hentry
    | @step p _ start hstart hnext =>
      refine hsuffix.subset (List.mem_cons_of_mem _ (hc.mem_path hjoins hstart hnext ?_ hx))
      rw [Function.retreats_step hstart] at hfewer
      rw [swept]
      split <;> omega

end

/-! ## The end -/

/-- Exactly the blocks that dominate a block are above it. -/
def IsExact (f : Function) (t : DominatorTree) : Prop :=
  ∀ b ∈ f.reversePostorder, t.isReachable b = true ∧ ∀ x, t.Above x b ↔ f.dominates x b = true

theorem Covers.isExact (hc : Covers f t fun _ => f.reversePostorder.length) (h : IsTree f t) :
  IsExact f t
  := by
  intro b hb
  obtain ⟨path, hpath⟩ := Function.mem_reversePostorder_iff_path.mp hb
  obtain ⟨direct, hdirect, -, hfew⟩ := hpath.exists_retreats_lt
  have hplaced := (hc b direct hdirect hfew).1
  refine ⟨hplaced, fun x => ⟨fun hx => ?_, h.above_of_dominates hplaced⟩⟩
  rw [Function.dominates_iff_path hb]
  intro path hpath
  obtain ⟨direct, hdirect, hsubset, hfew⟩ := hpath.exists_retreats_lt
  exact hsubset ((hc b direct hdirect hfew).2 x hx)

/-- If what is above each block is right, then an update changes nothing. -/
theorem IsExact.parent?_eq (he : IsExact f t) (h : IsTree f t) (hjoins : Joins f t b d)
    (hb : b ∈ f.reversePostorder) (hentry : b ≠ f.entry) :
  t.parent? b = some d
  := by
  obtain ⟨hplaced, hall⟩ := he b hb
  obtain ⟨p, hp⟩ := exists_parent hplaced
  have hrank := h.earlier b p hp hentry
  have hpd : t.Above p d := by
    refine (hjoins.above p).mpr fun q hnext hq => ?_
    have hq := h.mem_reversePostorder hq
    refine ((he q hq).2 p).mpr (Function.dominates_of_successor ?_ ?_ hq hnext)
    · exact (hall p).mp (.of_parent? hp)
    · rintro rfl
      exact Nat.lt_irrefl _ hrank
  have hdb : t.Above d b := by
    refine (hall d).mpr ((Function.dominates_iff_path hb).mpr fun path hpath => ?_)
    cases hpath with
    | entry => exact absurd rfl hentry
    | @step q _ path hpath hnext =>
      have hq := hpath.mem_reversePostorder
      have hdq := (hjoins.above d).mp .refl q hnext (he q hq).1
      exact List.mem_cons_of_mem _ ((Function.dominates_iff_path hq).mp (((he q hq).2 d).mp hdq) _ hpath)
  have hdp : t.Above d p := by
    refine (hdb.eq_or_above_parent hp).resolve_left ?_
    rintro rfl
    exact Nat.lt_irrefl _ (hjoins.rank_lt h)
  rw [hp, h.eq_of_above (hjoins.isReachable h) hpd (h.rank_le_of_above hdp)]

/-! ## Sweeps -/

/-- Some path to a block never goes back, so the blocks that have been updated have been placed. -/
theorem Covers.isReachable_of_rank_lt {count position : Nat} (hc : Covers f t (swept f count position))
    (hb : b ∈ f.reversePostorder) (hlt : f.rank b < position) :
  t.isReachable b = true
  := by
  obtain ⟨path, hpath, hretreats⟩ := f.exists_path_forward hb
  refine (hc b path hpath ?_).1
  rw [hretreats, swept, if_pos hlt]
  exact Nat.zero_lt_succ _

section

variable {count : Nat}

/--
A sweep over the blocks from some position on raises the bound for all of them. If it changes nothing
then the tree stays, and if what is above each block is right already then it changes nothing.
-/
theorem IsTree.exists_sweep (h : IsTree f t) (hf : f.IsClosed) (blocks : List BlockId) {position : Nat}
    (hblocks : f.reversePostorder.drop position = blocks) (hposition : 0 < position)
    (hc : Covers f t (swept f count position)) :
  ∃ changed t', sweep f f.rank blocks t = some (changed, t') ∧ IsTree f t' ∧
    Covers f t' (fun _ => count + 1) ∧ (changed = false → t' = t) ∧ (IsExact f t → changed = false)
  := by
  induction blocks generalizing position t with
  | nil =>
    refine ⟨false, t, rfl, h, fun b path hpath hlt => hc b path hpath ?_, fun _ => rfl, fun _ => rfl⟩
    have hrank : f.rank b < f.reversePostorder.length :=
      List.idxOf_lt_length_iff.mpr hpath.mem_reversePostorder
    rwa [swept, if_pos (hrank.trans_le (List.drop_eq_nil_iff.mp hblocks))]
  | cons b rest ih =>
    have hget : f.reversePostorder[position]? = some b := by
      rw [← List.head?_drop, hblocks, List.head?_cons]
    have hb : b ∈ f.reversePostorder := List.mem_of_getElem? hget
    obtain ⟨hlt, hat⟩ := List.getElem?_eq_some_iff.mp hget
    have hrank : f.rank b = position := by
      rw [Function.rank, ← hat, f.nodup_reversePostorder.idxOf_getElem]
    subst hrank
    have hentry : b ≠ f.entry := by
      rintro rfl
      exact Nat.ne_of_gt hposition f.rank_entry
    obtain ⟨d, changed, hupdate, hjoins, hchanged⟩ :=
      h.exists_update hf hb hentry fun p hp hlt => hc.isReachable_of_rank_lt hp hlt
    have hlength := hf.lt_length hb
    have hrest : f.reversePostorder.drop (f.rank b + 1) = rest := by
      rw [← List.tail_drop, hblocks, List.tail_cons]
    obtain ⟨changedLater, t', hsweep, h', hc', hsame, hexact⟩ :=
      ih (hjoins.isTree h hb hlength hentry) hrest (Nat.zero_lt_succ _)
        (hc.place h hjoins hlength hentry)
    refine ⟨changed || changedLater, t', by simp [sweep, hupdate, hsweep], h', hc', ?_, ?_⟩
    · intro hno
      obtain ⟨hno, hnoLater⟩ := Bool.or_eq_false_iff.mp hno
      rw [hsame hnoLater, place_of_parent? (hchanged.mp hno)]
    · intro he
      have hno := he.parent?_eq h hjoins hb hentry
      rw [place_of_parent? hno] at hexact
      exact Bool.or_eq_false_iff.mpr ⟨hchanged.mpr hno, hexact he⟩

/-- Before a sweep the entry is where it belongs, and need not be updated. -/
theorem Covers.entry (hc : Covers f t fun _ => count) (h : IsTree f t) :
  Covers f t (swept f count 1)
  := by
  intro b path hpath hretreats
  rw [swept] at hretreats
  split at hretreats
  next hlt =>
    have hb : b = f.entry := by
      refine Function.rank_inj hpath.mem_reversePostorder ?_
      rw [f.rank_entry, Nat.lt_one_iff.mp hlt]
    subst hb
    have hplaced := isReachable_of_parent? h.entry
    refine ⟨hplaced, fun x hx => ?_⟩
    rw [h.eq_of_above hplaced hx (f.rank_entry ▸ Nat.zero_le _)]
    exact hpath.mem
  next => exact hc b path hpath hretreats

theorem IsTree.exists_sweep_tail (h : IsTree f t) (hf : f.IsClosed)
    (hc : Covers f t fun _ => count) :
  ∃ changed t', sweep f f.rank f.reversePostorder.tail t = some (changed, t') ∧ IsTree f t' ∧
    Covers f t' (fun _ => count + 1) ∧ (changed = false → t' = t) ∧ (IsExact f t → changed = false)
  := h.exists_sweep hf _ List.drop_one Nat.zero_lt_one (hc.entry h)

/-- If a sweep changes nothing, then no bound is too high. -/
theorem covers_of_unchanged (h : IsTree f t) (hf : f.IsClosed)
    (hsweep : sweep f f.rank f.reversePostorder.tail t = some (false, t)) (count : Nat) :
  Covers f t fun _ => count
  := by
  induction count with
  | zero => exact fun _ _ _ hlt => absurd hlt (Nat.not_lt_zero _)
  | succ count ih =>
    obtain ⟨changed, t', hsweep', -, hc, -⟩ := h.exists_sweep_tail hf ih
    obtain ⟨-, rfl⟩ := Prod.mk.inj (Option.some.inj (hsweep.symm.trans hsweep'))
    exact hc

/-- The sweeps come to an end when the bound has reached the number of blocks, if not before. -/
theorem IsTree.exists_settle (h : IsTree f t) (hf : f.IsClosed) {sweeps : Nat}
    (hc : Covers f t fun _ => count) (henough : f.reversePostorder.length ≤ count + sweeps) :
  ∃ t', settle f f.rank f.reversePostorder.tail (sweeps + 1) t = some t' ∧ IsTree f t' ∧ IsExact f t'
  := by
  induction sweeps generalizing t count with
  | zero =>
    have he : IsExact f t :=
      Covers.isExact (fun b path hpath hlt => hc b path hpath (hlt.trans_le henough)) h
    obtain ⟨changed, t', hsweep, -, -, hsame, hno⟩ := h.exists_sweep_tail hf hc
    refine ⟨t, ?_, h, he⟩
    rw [settle, hsweep, hno he, hsame (hno he)]
    rfl
  | succ sweeps ih =>
    obtain ⟨changed, t', hsweep, h', hc', hsame, -⟩ := h.exists_sweep_tail hf hc
    rw [settle, hsweep]
    cases changed with
    | true => exact ih h' hc' (by omega)
    | false =>
      obtain rfl := hsame rfl
      exact ⟨t', rfl, h', (covers_of_unchanged h' hf hsweep _).isExact h'⟩

theorem parent?_start (hf : f.IsClosed) (b : BlockId) :
  (start f).parent? b = if b = f.entry then some f.entry else none
  := by
  rw [start, parent?_place (by simpa using hf.entry)]
  congr 1
  simp only [parent?, List.getD_eq_getElem?_getD, List.getElem?_replicate]
  split <;> rfl

theorem isTree_start (hf : f.IsClosed) :
  IsTree f (start f)
  := by
  have hparent : ∀ b p, (start f).parent? b = some p → b = f.entry ∧ p = f.entry := by
    intro b p hp
    rw [parent?_start hf] at hp
    split at hp
    next hb => exact ⟨hb, (Option.some.inj hp).symm⟩
    next => cases hp
  have hentry : (start f).parent? f.entry = some f.entry := by rw [parent?_start hf, if_pos rfl]
  constructor
  · simp [start, place]
  · exact hentry
  · intro b p hp
    exact (hparent b p hp).1 ▸ Function.mem_reversePostorder_iff_path.mpr ⟨_, .entry⟩
  · intro b p hp
    exact (hparent b p hp).2 ▸ isReachable_of_parent? hentry
  · exact fun b p hp hne => absurd (hparent b p hp).1 hne
  · exact fun b p hp hne => absurd (hparent b p hp).1 hne

/-! ## What the tree answers -/

theorem exists_ofFunction? (hf : f.IsClosed) :
  ∃ t, ofFunction? f = some t ∧ IsTree f t ∧ IsExact f t
  := by
  have hc : Covers f (start f) fun _ => 0 := fun _ _ _ hlt => absurd hlt (Nat.not_lt_zero _)
  exact (isTree_start hf).exists_settle hf hc ((Nat.zero_add _).symm ▸ hf.length_reversePostorder_le)

theorem IsTree.isReachable_iff (h : IsTree f t) (he : IsExact f t) :
  t.isReachable b = true ↔ b ∈ f.reversePostorder
  := ⟨h.mem_reversePostorder, fun hb => (he b hb).1⟩

theorem IsTree.dominates_parent (h : IsTree f t) (he : IsExact f t) {p : BlockId} (hp : t.parent? b = some p)
    (hne : a ≠ b) :
  f.dominates a p = f.dominates a b
  := by
  rw [Bool.eq_iff_iff, ← (he p (h.mem_reversePostorder (h.placed b p hp))).2,
    ← (he b (h.reached b p hp)).2]
  exact ⟨fun hup => hup.trans (.of_parent? hp), fun hup => (hup.eq_or_above_parent hp).resolve_left hne⟩

/-- Going up from a block finds whether another one dominates it. -/
theorem IsTree.isAbove?_eq (h : IsTree f t) (he : IsExact f t) (a : BlockId) {steps : Nat}
    (hsteps : t.isReachable b = true → f.rank b < steps) (hpos : 0 < steps) :
  t.isAbove? a steps b = some (f.dominates a b)
  := by
  induction steps generalizing b with
  | zero => exact absurd hpos (Nat.lt_irrefl _)
  | succ steps ih =>
    rw [isAbove?]
    by_cases hba : b = a
    · simp [hba, Function.dominates]
    rw [if_neg hba]
    split
    next p hp =>
      by_cases hentry : b = f.entry
      · subst hentry
        obtain rfl := Option.some.inj (h.entry.symm.trans hp)
        rw [if_pos rfl, Option.some.injEq, eq_comm, Bool.eq_false_iff]
        exact fun hdom => hba (Function.eq_entry_of_dominates hdom).symm
      · have hlt := h.earlier b p hp hentry
        have hbound := hsteps (isReachable_of_parent? hp)
        have hpb : p ≠ b := by
          rintro rfl
          exact Nat.lt_irrefl _ hlt
        rw [if_neg hpb, ih (fun _ => by omega) (by omega), h.dominates_parent he hp (Ne.symm hba)]
    next hnone =>
      rw [Option.some.injEq, eq_comm, Bool.eq_false_iff, ne_eq, Function.dominates_iff]
      rintro (heq | ⟨hb, -⟩)
      · exact hba heq.symm
      · obtain ⟨p, hp⟩ := exists_parent (he b hb).1
        cases hnone.symm.trans hp

theorem IsTree.dominates?_eq (h : IsTree f t) (hf : f.IsClosed) (he : IsExact f t) (a b : BlockId) :
  t.dominates? a b = some (f.dominates a b)
  := h.isAbove?_eq he a (fun hb => h.rank_lt_bound hf hb) (Nat.zero_lt_succ _)

end

end DominatorTree

/--
Dominators are correct, whatever the graph: irreducible, with loops of one block, with edges to the
entry or from blocks that are not reachable. The sweeps come to an end. The tree has exactly the
blocks to which there is a path from the entry, and tells for all blocks whether every path to the one
passes through the other. The search lists the same blocks, each of them once, and the entry last.
-/
theorem exists_dominatorTree (hf : f.IsClosed) :
  ∃ t, DominatorTree.ofFunction? f = some t ∧
    (∀ b, t.isReachable b = true ↔ ∃ path, f.PathTo b path) ∧
    (∀ a b, t.isReachable b = true →
      ∃ answer, t.dominates? a b = some answer ∧ (answer = true ↔ ∀ path, f.PathTo b path → a ∈ path)) ∧
    f.postorder.Nodup ∧ (∀ b, b ∈ f.postorder ↔ ∃ path, f.PathTo b path) ∧
    f.postorder.getLast? = some f.entry
  := by
  obtain ⟨t, ht, h, he⟩ := DominatorTree.exists_ofFunction? hf
  refine ⟨t, ht, fun b => ?_, fun a b hb => ⟨f.dominates a b, h.dominates?_eq hf he a b, ?_⟩,
    List.nodup_reverse.mpr f.nodup_reversePostorder, fun b => ?_, ?_⟩
  · rw [h.isReachable_iff he, Function.mem_reversePostorder_iff_path]
  · exact Function.dominates_iff_path (h.mem_reversePostorder hb)
  · rw [Function.postorder, List.mem_reverse, Function.mem_reversePostorder_iff_path]
  · rw [Function.postorder, List.getLast?_reverse, f.head?_reversePostorder]

/--
Control can come from the entry to either of two blocks, and from each of these to the other. One of
them can come after itself, the other before the entry, and a block that is not reachable before both.
-/
def tangled : Function :=
  { (default : Function) with
    blocks := [⟨[], [], .branch 0 1 2⟩, ⟨[], [], .branch 0 1 2⟩, ⟨[], [], .branch 0 1 0⟩,
      ⟨[], [], .branch 0 1 2⟩]
    entry := 0 }

theorem exists_dominatorTree_tangled :
  tangled.IsClosed ∧ ∃ t, DominatorTree.ofFunction? tangled = some t ∧ t.isReachable 2 = true ∧
    t.isReachable 3 = false ∧ t.dominates? 1 2 = some false
  := by
  have hclosed : tangled.IsClosed := by decide
  obtain ⟨t, ht, hreachable, hdominates, -, hlisted, -⟩ := exists_dominatorTree hclosed
  have hpath : tangled.PathTo 2 [2, 0] := Function.PathTo.entry.step (by decide)
  have hplaced := (hreachable 2).mpr ⟨_, hpath⟩
  obtain ⟨answer, hanswer, hiff⟩ := hdominates 1 2 hplaced
  refine ⟨hclosed, t, ht, hplaced, ?_, ?_⟩
  · rw [Bool.eq_false_iff, ne_eq, hreachable, ← hlisted]
    decide
  · rw [hanswer, Bool.eq_false_iff.mpr (hiff.not.mpr fun hall => ?_)]
    exact absurd (hall _ hpath) (by decide)

end FormCompiler.Flow
