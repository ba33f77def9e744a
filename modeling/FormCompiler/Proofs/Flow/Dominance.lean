import FormCompiler.Flow.Graph
import Mathlib

/-!
# Reachable blocks and dominance

A depth-first search finds exactly the blocks at the ends of paths from the entry. As the search may
be told to avoid blocks, this says what dominance is: one block dominates another that is reachable
if every path to the other passes through it. So what dominates a block, and is not the block, also
dominates the reachable blocks that control comes from.
-/

namespace FormCompiler.Flow.Function

/-! ## Searching -/

/--
What a search from some blocks has found: it has entered and left some `new` blocks. The blocks to
which control may go from these have been seen, and all of them can be reached from the blocks where
the search began, without entering what had been seen before: the one that the search comes from is
left after the block, and so is listed earlier.
-/
structure Found (f : Function) (s s' : Search) (roots new : List BlockId) : Prop where
  left : s'.left = new ++ s.left
  seen : ∀ x, x ∈ s'.seen ↔ x ∈ new ∨ x ∈ s.seen
  fresh : ∀ x ∈ new, x ∉ s.seen
  nodup : new.Nodup
  started : ∀ b ∈ roots, b ∈ s'.seen
  closed : ∀ x ∈ new, ∀ y ∈ f.successors x, y ∈ s'.seen
  reached : ∀ R : BlockId → Prop, (∀ b ∈ roots, b ∉ s.seen → R b) →
    (∀ x, R x → ∀ y ∈ f.successors x, y ∉ s.seen → R y) → ∀ x ∈ new, R x
  earlier : ∀ x ∈ new, x ∈ roots ∨ ∃ p ∈ new, new.idxOf p < new.idxOf x ∧ x ∈ f.successors p

section

variable {f : Function} {s s' s'' : Search}
variable {b : BlockId}

theorem found_nil :
  Found f s s [] []
  := by
  constructor <;> simp

/-- One search after another. -/
theorem Found.append
    {roots roots' new new' : List BlockId} (h : Found f s s' roots new)
    (h' : Found f s' s'' roots' new') :
  Found f s s'' (roots ++ roots') (new' ++ new)
  := by
  have hmono : ∀ x ∈ s'.seen, x ∈ s''.seen := fun x hx => (h'.seen x).mpr (.inr hx)
  have hold : ∀ x, x ∉ s'.seen → x ∉ s.seen := fun x hx hmem => hx ((h.seen x).mpr (.inr hmem))
  constructor
  · rw [h'.left, h.left, List.append_assoc]
  · intro x
    rw [h'.seen, h.seen, List.mem_append, or_assoc]
  · intro x hx
    rcases List.mem_append.mp hx with hx | hx
    · exact hold x (h'.fresh x hx)
    · exact h.fresh x hx
  · apply h'.nodup.append h.nodup
    intro x hx hx'
    exact h'.fresh x hx ((h.seen x).mpr (.inl hx'))
  · intro b hb
    rcases List.mem_append.mp hb with hb | hb
    · exact hmono b (h.started b hb)
    · exact h'.started b hb
  · intro x hx y hy
    rcases List.mem_append.mp hx with hx | hx
    · exact h'.closed x hx y hy
    · exact hmono y (h.closed x hx y hy)
  · intro R hroots hstep x hx
    rcases List.mem_append.mp hx with hx | hx
    · apply h'.reached R _ _ x hx
      · intro b hb hnew
        exact hroots b (List.mem_append_right _ hb) (hold b hnew)
      · intro y hy z hz hnew
        exact hstep y hy z hz (hold z hnew)
    · exact h.reached R (fun b hb => hroots b (List.mem_append_left _ hb)) hstep x hx
  · intro x hx
    have hlast : ∀ y ∈ new, (new' ++ new).idxOf y = new'.length + new.idxOf y := by
      intro y hy
      exact List.idxOf_append_of_notMem fun hmem => h'.fresh y hmem ((h.seen y).mpr (.inl hy))
    rcases List.mem_append.mp hx with hx | hx
    · refine (h'.earlier x hx).imp (List.mem_append_right _) fun ⟨p, hp, hlt, hnext⟩ => ?_
      refine ⟨p, List.mem_append_left _ hp, ?_, hnext⟩
      rwa [List.idxOf_append_of_mem hp, List.idxOf_append_of_mem hx]
    · refine (h.earlier x hx).imp (List.mem_append_left _) fun ⟨p, hp, hlt, hnext⟩ => ?_
      refine ⟨p, List.mem_append_right _ hp, ?_, hnext⟩
      rw [hlast p hp, hlast x hx]
      omega

/-- A block is left after those that control may go to from there. -/
theorem Found.enter {new : List BlockId} (hb : b ∉ s.seen)
    (h : Found f { s with seen := b :: s.seen } s' (f.successors b) new) :
  Found f s { s' with left := b :: s'.left } [b] (b :: new)
  := by
  have hentered : b ∈ s'.seen := (h.seen b).mpr (.inr (by simp))
  constructor
  · simp [h.left]
  · intro x
    rw [h.seen x]
    simp only [List.mem_cons]
    tauto
  · intro x hx
    rcases List.mem_cons.mp hx with rfl | hx
    · exact hb
    · exact fun hmem => h.fresh x hx (List.mem_cons_of_mem _ hmem)
  · refine List.nodup_cons.mpr ⟨fun hmem => h.fresh b hmem (by simp), h.nodup⟩
  · simpa using hentered
  · intro x hx y hy
    rcases List.mem_cons.mp hx with rfl | hx
    · exact h.started y hy
    · exact h.closed x hx y hy
  · intro R hroots hstep x hx
    have hRb : R b := hroots b (by simp) hb
    have hlater : ∀ y, y ∉ b :: s.seen → y ∉ s.seen := fun y hy hmem =>
      hy (List.mem_cons_of_mem _ hmem)
    rcases List.mem_cons.mp hx with rfl | hx
    · exact hRb
    · apply h.reached R _ _ x hx
      · intro y hy hnew
        exact hstep b hRb y hy (hlater y hnew)
      · intro y hy z hz hnew
        exact hstep y hy z hz (hlater z hnew)
  · intro x hx
    by_cases hxb : x = b
    · exact .inl (by simp [hxb])
    have hpos : ∀ y, b ≠ y → (b :: new).idxOf y = new.idxOf y + 1 := fun y => List.idxOf_cons_ne new
    right
    rcases h.earlier x ((List.mem_cons.mp hx).resolve_left hxb) with hnext | ⟨p, hp, hlt, hnext⟩
    · refine ⟨b, by simp, ?_, hnext⟩
      rw [hpos x (Ne.symm hxb), List.idxOf_cons_self]
      exact Nat.zero_lt_succ _
    · have hpb : b ≠ p := fun heq => h.fresh p hp (by simp [heq])
      refine ⟨p, List.mem_cons_of_mem _ hp, ?_, hnext⟩
      rw [hpos x (Ne.symm hxb), hpos p hpb]
      omega

/-- The blocks that have not been seen. -/
def unseen (f : Function) (s : Search) : Finset BlockId :=
  (Finset.range f.blocks.length).filter (· ∉ s.seen)

theorem unseen_subset (h : ∀ x ∈ s.seen, x ∈ s'.seen) :
  f.unseen s' ⊆ f.unseen s
  := by
  intro x hx
  rw [unseen, Finset.mem_filter] at hx ⊢
  exact ⟨hx.1, fun hmem => hx.2 (h x hmem)⟩

theorem getElem?_of_lt (h : b < f.blocks.length) :
  f.blocks[b]? = some (f.block b)
  := by
  simp [block, h]

theorem successors_eq_nil (h : f.blocks.length ≤ b) :
  f.successors b = []
  := by
  unfold successors block
  rw [List.getD_eq_default _ _ h]
  rfl

theorem mem_predecessors {p : BlockId} :
  p ∈ f.predecessors b ↔ b ∈ f.successors p
  := by
  simp only [predecessors, List.mem_filter, List.mem_range, List.contains_eq_mem, decide_eq_true_eq]
  refine ⟨And.right, fun hnext => ⟨?_, hnext⟩⟩
  by_contra hge
  rw [successors_eq_nil (Nat.le_of_not_lt hge)] at hnext
  cases hnext

/-- Searches that may go on for as many steps as blocks are left find all there is. -/
theorem exists_found (f : Function) (bound : Nat) :
  ∀ s b, (f.unseen s).card < bound → ∃ new, Found f s (f.visit bound s b) [b] new
  := by
  induction bound with
  | zero =>
    intro s b h
    exact absurd h (Nat.not_lt_zero _)
  | succ bound ih =>
    have hall : ∀ (roots : List BlockId) (s : Search), (f.unseen s).card < bound →
        ∃ new, Found f s (roots.foldl (f.visit bound) s) roots new := by
      intro roots
      induction roots with
      | nil => exact fun s _ => ⟨[], found_nil⟩
      | cons b roots ihRoots =>
        intro s hs
        obtain ⟨new, hnew⟩ := ih s b hs
        have hsubset := unseen_subset (f := f) fun x hx => (hnew.seen x).mpr (.inr hx)
        obtain ⟨new', hnew'⟩ := ihRoots _ (Nat.lt_of_le_of_lt (Finset.card_le_card hsubset) hs)
        exact ⟨new' ++ new, hnew.append hnew'⟩
    intro s b hs
    rw [visit]
    by_cases hseen : b ∈ s.seen
    · rw [if_pos (by simpa using hseen)]
      refine ⟨[], ?_⟩
      constructor <;> simp [hseen]
    rw [if_neg (by simpa using hseen)]
    by_cases hb : b < f.blocks.length
    · have hmem : b ∈ f.unseen s := by
        rw [unseen, Finset.mem_filter, Finset.mem_range]
        exact ⟨hb, hseen⟩
      have hsubset : f.unseen { s with seen := b :: s.seen } ⊂ f.unseen s := by
        refine Finset.ssubset_iff_subset_ne.mpr
          ⟨unseen_subset fun x hx => List.mem_cons_of_mem _ hx, ?_⟩
        intro heq
        rw [← heq, unseen, Finset.mem_filter] at hmem
        exact hmem.2 (by simp)
      obtain ⟨new, hnew⟩ := hall (f.successors b) { s with seen := b :: s.seen }
        (Nat.lt_of_lt_of_le (Finset.card_lt_card hsubset) (Nat.le_of_lt_succ hs))
      exact ⟨b :: new, hnew.enter hseen⟩
    · rw [successors_eq_nil (Nat.le_of_not_lt hb)]
      refine ⟨[b], Found.enter hseen ?_⟩
      rw [successors_eq_nil (Nat.le_of_not_lt hb)]
      exact found_nil

end

/-! ## Paths -/

/-- There is a path from the entry to a block that enters none of some blocks. -/
inductive Reaches (f : Function) (avoided : List BlockId) : BlockId → Prop where
  | entry : f.entry ∉ avoided → Reaches f avoided f.entry
  | step {b next : BlockId} : Reaches f avoided b → next ∈ f.successors b → next ∉ avoided →
    Reaches f avoided next

section

variable {f : Function} {avoided : List BlockId}
variable {b next d e a : BlockId}

theorem found_reachedAvoiding (f : Function) (avoided : List BlockId) :
  ∃ s', Found f ⟨avoided, []⟩ s' [f.entry] (f.reachedAvoiding avoided)
  := by
  have hcard : (f.unseen ⟨avoided, []⟩).card < f.blocks.length + 1 := by
    refine Nat.lt_succ_of_le ((Finset.card_filter_le _ _).trans ?_)
    rw [Finset.card_range]
  obtain ⟨new, hnew⟩ := exists_found f (f.blocks.length + 1) ⟨avoided, []⟩ f.entry hcard
  have hleft : f.reachedAvoiding avoided = new := by
    rw [reachedAvoiding, hnew.left, List.append_nil]
  rw [hleft]
  exact ⟨_, hnew⟩

/-- The search finds the ends of all paths. -/
theorem mem_reachedAvoiding :
  b ∈ f.reachedAvoiding avoided ↔ f.Reaches avoided b
  := by
  obtain ⟨s', h⟩ := found_reachedAvoiding f avoided
  constructor
  · intro hb
    apply h.reached (f.Reaches avoided) _ _ b hb
    · intro x hx hnew
      obtain rfl : x = f.entry := by simpa using hx
      exact .entry hnew
    · intro x hx y hy hnew
      exact .step hx hy hnew
  · intro hb
    induction hb with
    | entry hnot => exact ((h.seen _).mp (h.started _ (by simp))).resolve_right hnot
    | step _ hnext hnot ih => exact ((h.seen _).mp (h.closed _ ih _ hnext)).resolve_right hnot

theorem nodup_reversePostorder (f : Function) :
  f.reversePostorder.Nodup
  := by
  obtain ⟨s', h⟩ := found_reachedAvoiding f []
  exact h.nodup

/-- The search leaves the entry last. -/
theorem head?_reversePostorder (f : Function) :
  f.reversePostorder.head? = some f.entry
  := by
  simp [reversePostorder, reachedAvoiding, visit]

/-- Control comes to a block, if that is not the entry, from an earlier one. -/
theorem exists_earlier (hb : b ∈ f.reversePostorder) (hentry : b ≠ f.entry) :
  ∃ p ∈ f.reversePostorder,
    f.reversePostorder.idxOf p < f.reversePostorder.idxOf b ∧ b ∈ f.successors p
  := by
  obtain ⟨s', h⟩ := found_reachedAvoiding f []
  exact (h.earlier b hb).resolve_left (by simpa using hentry)

theorem mem_reversePostorder_of_successor (hb : b ∈ f.reversePostorder) (hnext : next ∈ f.successors b) :
  next ∈ f.reversePostorder
  := mem_reachedAvoiding.mpr (.step (mem_reachedAvoiding.mp hb) hnext (by simp))

/-! ## Dominance -/

theorem dominates_iff :
  f.dominates d b = true ↔ d = b ∨ (b ∈ f.reversePostorder ∧ ¬f.Reaches [d] b)
  := by
  simp [dominates, isReachable, mem_reachedAvoiding]

/-- What dominates a block, and is not the block, dominates the blocks before it. -/
theorem dominates_of_successor (h : f.dominates d next = true) (hne : d ≠ next) (hb : b ∈ f.reversePostorder)
    (hnext : next ∈ f.successors b) :
  f.dominates d b = true
  := by
  rw [dominates_iff] at h ⊢
  obtain ⟨-, hnot⟩ := h.resolve_left hne
  by_cases hdb : d = b
  · exact .inl hdb
  · refine .inr ⟨hb, fun hreaches => hnot ?_⟩
    exact .step hreaches hnext (by simpa using hne.symm)

theorem Reaches.mono {fewer : List BlockId} (h : f.Reaches avoided b) (hfewer : ∀ x ∈ fewer, x ∈ avoided) :
  f.Reaches fewer b
  := by
  induction h with
  | entry hnot => exact .entry fun hmem => hnot (hfewer _ hmem)
  | step _ hnext hnot ih => exact .step ih hnext fun hmem => hnot (hfewer _ hmem)

/-- A path that avoids some blocks enters another one, or it avoids that one. -/
theorem Reaches.avoid (h : f.Reaches avoided b) :
  f.Reaches avoided e ∨ f.Reaches [e] b
  := by
  induction h with
  | entry hnot =>
    by_cases heq : f.entry = e
    · exact .inl (heq ▸ .entry hnot)
    · exact .inr (.entry (by simpa using heq))
  | @step b next hb hnext hnot ih =>
    rcases ih with hreaches | hreaches
    · exact .inl hreaches
    · by_cases heq : next = e
      · exact .inl (heq ▸ .step hb hnext hnot)
      · exact .inr (.step hreaches hnext (by simpa using heq))

theorem dominates_trans {c : BlockId} (hab : f.dominates a b = true) (hbc : f.dominates b c = true) :
  f.dominates a c = true
  := by
  rw [dominates_iff] at hab hbc ⊢
  rcases hab with rfl | ⟨hb, hab⟩
  · exact hbc
  rcases hbc with rfl | ⟨hc, hbc⟩
  · exact .inr ⟨hb, hab⟩
  refine .inr ⟨hc, fun hreaches => ?_⟩
  rcases hreaches.avoid with hb | hc
  · exact hab hb
  · exact hbc hc

/-- Two blocks of which one is reached: a path gets to one of them without the other. -/
theorem Reaches.first (hne : d ≠ e) (h : f.Reaches [] b) :
  f.Reaches [d] e ∨ f.Reaches [e] d ∨ f.Reaches [d, e] b
  := by
  have hcases : ∀ {x}, (x = f.entry ∨ ∃ y, f.Reaches [d, e] y ∧ x ∈ f.successors y) →
      f.Reaches [d] e ∨ f.Reaches [e] d ∨ f.Reaches [d, e] x := by
    intro x hx
    by_cases hd : x = d
    · refine .inr (.inl ?_)
      rcases hx with rfl | ⟨y, hy, hnext⟩
      · exact hd ▸ .entry (by simpa [hd] using hne)
      · exact hd ▸ .step (hy.mono (by simp)) hnext (by simpa [hd] using hne)
    by_cases he : x = e
    · left
      rcases hx with rfl | ⟨y, hy, hnext⟩
      · exact he ▸ .entry (by simpa [he] using hne.symm)
      · exact he ▸ .step (hy.mono (by simp)) hnext (by simpa [he] using hne.symm)
    · refine .inr (.inr ?_)
      rcases hx with rfl | ⟨y, hy, hnext⟩
      · exact .entry (by simp [hd, he])
      · exact .step hy hnext (by simp [hd, he])
  induction h with
  | entry => exact hcases (.inl rfl)
  | @step b next _ hnext _ ih =>
    rcases ih with hreaches | hreaches | hreaches
    · exact .inl hreaches
    · exact .inr (.inl hreaches)
    · exact hcases (.inr ⟨b, hreaches, hnext⟩)

theorem not_mem_of_reaches (h : f.Reaches avoided b) :
  b ∉ avoided
  := by
  cases h with
  | entry hnot => exact hnot
  | step _ _ hnot => exact hnot

theorem dominates_antisymm (hab : f.dominates a b = true) (hba : f.dominates b a = true) :
  a = b
  := by
  by_contra hne
  rw [dominates_iff] at hab hba
  obtain ⟨hb, hab⟩ := hab.resolve_left hne
  obtain ⟨-, hba⟩ := hba.resolve_left (Ne.symm hne)
  rcases (mem_reachedAvoiding.mp hb).first hne with hreaches | hreaches | hreaches
  · exact hab hreaches
  · exact hba hreaches
  · exact not_mem_of_reaches hreaches (by simp)

/-! ## Graphs with fewer edges -/

variable {g : Function}

theorem Reaches.of_successors (h : g.Reaches avoided b) (hentry : g.entry = f.entry)
    (hedges : ∀ id, ∀ next ∈ g.successors id, next ∈ f.successors id) :
  f.Reaches avoided b
  := by
  induction h with
  | entry hnot => exact hentry ▸ .entry (hentry ▸ hnot)
  | step _ hnext hnot ih => exact .step ih (hedges _ _ hnext) hnot

theorem mem_reversePostorder_of_successors (hb : b ∈ g.reversePostorder) (hentry : g.entry = f.entry)
    (hedges : ∀ id, ∀ next ∈ g.successors id, next ∈ f.successors id) :
  b ∈ f.reversePostorder
  := mem_reachedAvoiding.mpr ((mem_reachedAvoiding.mp hb).of_successors hentry hedges)

/-- In a graph with fewer edges more blocks are on every path. -/
theorem dominates_of_successors (h : f.dominates d b = true) (hb : b ∈ g.reversePostorder)
    (hentry : g.entry = f.entry) (hedges : ∀ id, ∀ next ∈ g.successors id, next ∈ f.successors id) :
  g.dominates d b = true
  := by
  rw [dominates_iff] at h ⊢
  refine h.imp_right fun ⟨_, hnot⟩ => ⟨hb, fun hreaches => hnot ?_⟩
  exact hreaches.of_successors hentry hedges

end

end FormCompiler.Flow.Function
