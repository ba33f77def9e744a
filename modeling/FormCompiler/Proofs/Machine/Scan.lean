import FormCompiler.Proofs.Machine.Liveness
import FormCompiler.Machine.Scan
import FormCompiler.Machine.Target

/-!
# What the scan gives away

A virtual register is *held* at the positions of its interval. An interval contains every position
at which the register occurs, and it is the only one of the register. Two registers that are held at
one position are never given the same register of the target: when an interval gets a register, all
earlier intervals with that register have ended, for otherwise they would still be active.
-/

namespace FormCompiler.Machine

open FormCompiler.Flow

variable {table : Array (Option (Nat × Nat))} {v : VReg} {position : Nat} {f : SelectedFunction} {r : Reg}
    {free allocatable : List Reg} {active : List (Interval × Reg)}

/-! ## Intervals -/

/-- A table of bounds has bounds for a register that enclose a position. -/
def Encloses (table : Array (Option (Nat × Nat))) (v : VReg) (position : Nat) : Prop :=
  ∃ start stop, table[v]? = some (some (start, stop)) ∧ start ≤ position ∧ position ≤ stop

/-- The table after one more occurrence. -/
def occur (table : Array (Option (Nat × Nat))) (needed : VReg × Nat) : Array (Option (Nat × Nat)) :=
  table.modify needed.1 fun b => some (widen b needed.2)

theorem Encloses.occur (h : Encloses table v position) (needed : VReg × Nat) :
  Encloses (occur table needed) v position
  := by
  obtain ⟨start, stop, hget, hstart, hstop⟩ := h
  unfold Encloses Machine.occur
  rw [Array.getElem?_modify, hget]
  split
  · exact ⟨min start needed.2, max stop needed.2, rfl, by omega, by omega⟩
  · exact ⟨start, stop, rfl, hstart, hstop⟩

theorem encloses_occur {needed : VReg × Nat} (h : needed.1 < table.size) :
  Encloses (occur table needed) needed.1 needed.2
  := by
  unfold Encloses occur
  rw [Array.getElem?_modify, if_pos rfl, Array.getElem?_eq_getElem h, Option.map_some]
  cases table[needed.1] with
  | none => exact ⟨needed.2, needed.2, rfl, le_rfl, le_rfl⟩
  | some bounds =>
    obtain ⟨start, stop⟩ := bounds
    exact ⟨min start needed.2, max stop needed.2, rfl, by omega, by omega⟩

/-- The bounds of a register enclose all its occurrences. -/
theorem encloses_hulls {count : Nat} {needed : List (VReg × Nat)} (hmem : (v, position) ∈ needed) (hlt : v < count) :
  Encloses (hulls count needed) v position
  := by
  have hkeep : ∀ (rest : List (VReg × Nat)) (table : Array (Option (Nat × Nat))),
      Encloses table v position → Encloses (rest.foldl occur table) v position := by
    intro rest
    induction rest with
    | nil => exact fun table h => h
    | cons first rest ih => exact fun table h => ih _ (h.occur first)
  have hfind : ∀ (rest : List (VReg × Nat)) (table : Array (Option (Nat × Nat))),
      (v, position) ∈ rest → v < table.size → Encloses (rest.foldl occur table) v position := by
    intro rest
    induction rest with
    | nil => simp
    | cons first rest ih =>
      intro table hmem hlt
      rcases List.mem_cons.mp hmem with rfl | hmem
      · exact hkeep rest _ (encloses_occur hlt)
      · exact ih _ hmem (by simpa [occur] using hlt)
  exact hfind needed _ hmem (by simpa using hlt)

/-- A register is held at the positions of its interval. -/
def Held (f : SelectedFunction) (v : VReg) (position : Nat) : Prop :=
  ∃ i ∈ intervals f, i.reg = v ∧ i.start ≤ position ∧ position ≤ i.stop

theorem mem_intervals {i : Interval} :
  i ∈ intervals f
    ↔ (hulls f.regWords.length (occurrences f))[i.reg]? = some (some (i.start, i.stop))
  := by
  unfold intervals
  simp only [List.mem_mergeSort, List.mem_filterMap, Option.map_eq_some_iff, Prod.exists]
  constructor
  · rintro ⟨bounds, v, hmem, start, stop, rfl, rfl⟩
    have hget := (List.mem_zipIdx_iff_getElem?.mp hmem)
    simpa using hget
  · intro hget
    refine ⟨some (i.start, i.stop), i.reg, ?_, i.start, i.stop, rfl, rfl⟩
    rw [List.mem_zipIdx_iff_getElem?]
    simpa using hget

/-- A register is held where it occurs. -/
theorem held_of_mem_occurrences (hmem : (v, position) ∈ occurrences f) (hlt : v < f.regWords.length) :
  Held f v position
  := by
  obtain ⟨start, stop, hget, hstart, hstop⟩ := encloses_hulls hmem hlt
  exact ⟨⟨v, start, stop⟩, mem_intervals.mpr hget, rfl, hstart, hstop⟩

/-- The positions of an interval have no gaps. -/
theorem Held.between {first last : Nat} (hfirst : Held f v first) (hlast : Held f v last) (hge : first ≤ position)
    (hle : position ≤ last) :
  Held f v position
  := by
  obtain ⟨i, hi, rfl, hstart, -⟩ := hfirst
  obtain ⟨j, hj, hreg, -, hstop⟩ := hlast
  have hsame := (mem_intervals.mp hj).symm
  rw [hreg, mem_intervals.mp hi] at hsame
  simp only [Option.some.injEq, Prod.mk.injEq] at hsame
  exact ⟨i, hi, rfl, by omega, by omega⟩

/-- No two intervals have the same register. -/
theorem nodup_intervals (f : SelectedFunction) :
  ((intervals f).map (·.reg)).Nodup
  := by
  have hnodup : ((hulls f.regWords.length (occurrences f)).toList.zipIdx.map (·.2)).Nodup := by
    rw [List.zipIdx_map_snd]
    exact List.nodup_range'
  rw [List.Nodup, List.pairwise_map] at hnodup
  unfold intervals
  apply ((List.mergeSort_perm _ _).map _).nodup_iff.mpr
  rw [List.map_filterMap, List.Nodup, List.pairwise_filterMap]
  refine hnodup.imp ?_
  rintro ⟨bounds, k⟩ ⟨bounds', k'⟩ hne v hv w hw
  simp only [Option.map_map, Option.map_eq_some_iff] at hv hw
  obtain ⟨-, -, rfl⟩ := hv
  obtain ⟨-, -, rfl⟩ := hw
  exact hne

/-- The intervals come by their start. -/
theorem pairwise_intervals (f : SelectedFunction) :
  (intervals f).Pairwise fun i j => i.start ≤ j.start
  := by
  have htrans : ∀ i j k : Interval, i.before j = true → j.before k = true → i.before k = true := by
    intro i j k hij hjk
    simp only [Interval.before, Bool.or_eq_true, Bool.and_eq_true, decide_eq_true_eq, beq_iff_eq]
      at hij hjk ⊢
    grind
  have htotal : ∀ i j : Interval, (i.before j || j.before i) = true := by
    intro i j
    simp only [Interval.before, Bool.or_eq_true, Bool.and_eq_true, decide_eq_true_eq, beq_iff_eq]
    grind
  refine (List.pairwise_mergeSort htrans htotal _).imp fun {i j} h => ?_
  simp only [Interval.before, Bool.or_eq_true, Bool.and_eq_true, decide_eq_true_eq, beq_iff_eq] at h
  omega

/-- An interval does not end before it starts. -/
theorem start_le_stop (f : SelectedFunction) :
  ∀ i ∈ intervals f, i.start ≤ i.stop
  := by
  have hfold : ∀ (needed : List (VReg × Nat)) (table : Array (Option (Nat × Nat))),
      (∀ (v : VReg) start stop, table[v]? = some (some (start, stop)) → start ≤ stop) →
      ∀ (v : VReg) start stop, (needed.foldl occur table)[v]? = some (some (start, stop)) → start ≤ stop := by
    intro needed
    induction needed with
    | nil => exact fun table h => h
    | cons first needed ih =>
      intro table h
      apply ih
      intro v start stop hget
      rw [occur, Array.getElem?_modify] at hget
      split at hget
      · obtain ⟨bounds, hbounds, heq⟩ := Option.map_eq_some_iff.mp hget
        obtain ⟨rfl, rfl⟩ := Prod.mk.inj (Option.some.inj heq)
        cases bounds with
        | none => exact le_rfl
        | some bounds =>
          obtain ⟨start, stop⟩ := bounds
          have hle := h v start stop hbounds
          change min start first.2 ≤ max stop first.2
          omega
      · exact h v start stop hget
  intro i hi
  apply hfold (occurrences f) _ _ i.reg i.start i.stop (mem_intervals.mp hi)
  intro v start stop hget
  rw [Array.getElem?_replicate] at hget
  split at hget <;> simp at hget

/-! ## The scan -/

/-- A position belongs to an interval. -/
def Interval.Contains (i : Interval) (position : Nat) : Prop := i.start ≤ position ∧ position ≤ i.stop

instance (i : Interval) (position : Nat) : Decidable (i.Contains position) :=
  inferInstanceAs (Decidable (_ ∧ _))

/-- At some position of an interval, more than so many intervals need a register. -/
def Interval.IsCrowded (i : Interval) (count : Nat) (intervals : List Interval) : Prop :=
  ∃ position, i.Contains position ∧ count < intervals.countP fun j => j.Contains position

theorem perm_release (h : r ∉ free) :
  (release r free).Perm (r :: free)
  := by
  induction free with
  | nil => rfl
  | cons q rest ih =>
    rw [List.mem_cons, not_or] at h
    rw [release]
    split
    · rfl
    · rw [if_neg h.1]
      exact ((ih h.2).cons q).trans (.swap ..)

theorem perm_foldl_release {ended : List (Interval × Reg)} (h : (free ++ ended.map (·.2)).Nodup) :
  (ended.foldl (fun free (_, r) => release r free) free).Perm (free ++ ended.map (·.2))
  := by
  induction ended generalizing free with
  | nil => simp
  | cons holder rest ih =>
    have hmiddle : (free ++ (holder :: rest).map (·.2)).Perm
        ((holder.2 :: free) ++ rest.map (·.2)) := List.perm_middle
    have hnodup := hmiddle.nodup_iff.mp h
    have hrelease := perm_release (List.nodup_cons.mp (List.nodup_append.mp hnodup).1).1
    have happend := hrelease.append_right (rest.map (·.2))
    exact (ih (happend.nodup_iff.mpr hnodup)).trans (happend.trans hmiddle.symm)

theorem getElem?_of_lastToEnd {holder : Interval × Reg} (h : lastToEnd active = some (position, holder)) :
  active[position]? = some holder
  := by
  induction active generalizing position holder with
  | nil => simp [lastToEnd] at h
  | cons first rest ih =>
    rw [lastToEnd] at h
    split at h
    · obtain ⟨rfl, rfl⟩ := Prod.mk.inj (Option.some.inj h)
      rfl
    · next other hrest =>
      split at h
      · obtain ⟨rfl, rfl⟩ := Prod.mk.inj (Option.some.inj h)
        rfl
      · obtain ⟨rfl, rfl⟩ := Prod.mk.inj (Option.some.inj h)
        exact ih hrest

/--
What holds of the scan of intervals when the earlier ones have been dealt with, up to the position
where the next one starts: each register is free or held by one interval, an interval that keeps its
register is active or has ended, two that keep the same register have no position in common, and an
interval is only spilled where too many need a register.
-/
structure Scan.IsSound (allocatable : List Reg) (intervals : List Interval) (s : Scan)
    (earlier : List Interval) (now : Nat) : Prop where
  shared : (s.free ++ s.active.map (·.2)).Perm allocatable
  started : ∀ i ∈ earlier, i.start ≤ now
  decided : ∀ v, (s.decisions.lookup v).isSome = true ↔ v ∈ earlier.map (·.reg)
  active_mem : ∀ i r, (i, r) ∈ s.active → i ∈ earlier ∧ s.decisions.lookup i.reg = some (.keep r)
  kept : ∀ i ∈ earlier, ∀ r, s.decisions.lookup i.reg = some (.keep r) →
    r ∈ allocatable ∧ ((i, r) ∈ s.active ∨ i.stop < now)
  apart : ∀ i ∈ earlier, ∀ j ∈ earlier, ∀ r, s.decisions.lookup i.reg = some (.keep r) →
    s.decisions.lookup j.reg = some (.keep r) → i ≠ j → i.stop < j.start ∨ j.stop < i.start
  spilled : ∀ i ∈ earlier, s.decisions.lookup i.reg = some .spill →
    i.IsCrowded allocatable.length intervals

section

variable {allocatable : List Reg} {intervals earlier left : List Interval} {s s' : Scan} {now : Nat}
  {i : Interval} {r : Reg}

/-- The registers of intervals that have ended are free when the next one starts. -/
theorem Scan.IsSound.expire (h : s.IsSound allocatable intervals earlier now)
    (hnodup : allocatable.Nodup) (hnow : now ≤ i.start) :
  (s.expire i).IsSound allocatable intervals earlier i.start
    ∧ ∀ j r, (j, r) ∈ (s.expire i).active → i.start ≤ j.stop
  := by
  have hmem : ∀ j r, (j, r) ∈ (s.expire i).active ↔ (j, r) ∈ s.active ∧ i.start ≤ j.stop := by
    simp [Scan.expire, List.partition_eq_filter_filter]
  refine ⟨⟨?_, ?_, h.decided, ?_, ?_, h.apart, h.spilled⟩, fun j r hj => ((hmem j r).mp hj).2⟩
  · have hsplit := (List.filter_append_perm (fun x : Interval × Reg => decide (x.1.stop < i.start))
      s.active).map (·.2)
    rw [List.map_append] at hsplit
    have hall := (hsplit.append_left s.free).trans h.shared
    rw [← List.append_assoc] at hall
    simp only [Scan.expire, List.partition_eq_filter_filter]
    apply (List.Perm.append_right _ (perm_foldl_release _)).trans hall
    exact (List.nodup_append.mp (hall.nodup_iff.mpr hnodup)).1
  · exact fun j hj => (h.started j hj).trans hnow
  · exact fun j r hj => h.active_mem j r ((hmem j r).mp hj).1
  · intro j hj r hkeep
    obtain ⟨hr, hactive | hended⟩ := h.kept j hj r hkeep
    · refine ⟨hr, ?_⟩
      rw [hmem]
      by_cases hle : i.start ≤ j.stop
      · exact .inl ⟨hactive, hle⟩
      · exact .inr (Nat.lt_of_not_le hle)
    · exact ⟨hr, .inr (Nat.lt_of_lt_of_le hended hnow)⟩

/-- The decision about the next interval leaves the others as they are. -/
theorem lookup_decisions {decisions : List (VReg × Decision)} {decision : Decision} (v : VReg) :
  ((i.reg, decision) :: decisions).lookup v = if v = i.reg then some decision else decisions.lookup v
  := by
  rw [List.lookup_cons]
  by_cases hv : v = i.reg
  · simp [hv]
  · rw [if_neg hv, beq_eq_false_iff_ne.mpr hv]

/-- The next interval is decided about: it gets a register that no active interval holds, or none. -/
theorem Scan.IsSound.next (h : s.IsSound allocatable intervals earlier i.start)
    (hnew : i.reg ∉ earlier.map (·.reg)) (decision : Decision)
    (hdecisions : s'.decisions = (i.reg, decision) :: s.decisions)
    (hshared : (s'.free ++ s'.active.map (·.2)).Perm allocatable)
    (hactive : ∀ j r, (j, r) ∈ s'.active ↔ (j, r) ∈ s.active ∨ (j = i ∧ decision = .keep r))
    (hkeep : ∀ r, decision = .keep r → r ∈ allocatable ∧ ∀ j, (j, r) ∉ s.active)
    (hspill : decision = .spill → i.IsCrowded allocatable.length intervals) :
  s'.IsSound allocatable intervals (earlier ++ [i]) i.start
  := by
  have hold : ∀ j ∈ earlier, s'.decisions.lookup j.reg = s.decisions.lookup j.reg := by
    intro j hj
    rw [hdecisions, lookup_decisions, if_neg]
    exact fun heq => hnew (heq ▸ List.mem_map_of_mem hj)
  have hown : s'.decisions.lookup i.reg = some decision := by
    rw [hdecisions, lookup_decisions, if_pos rfl]
  -- an earlier interval with the register of the next one is not active, so that it has ended
  have hended : ∀ j ∈ earlier, ∀ r, s.decisions.lookup j.reg = some (.keep r) → decision = .keep r →
      j.stop < i.start := by
    intro j hj r hjr hr
    exact (h.kept j hj r hjr).2.resolve_left ((hkeep r hr).2 j)
  constructor
  · exact hshared
  · rw [List.forall_mem_append, List.forall_mem_singleton]
    exact ⟨h.started, le_rfl⟩
  · intro v
    rw [hdecisions, lookup_decisions, List.map_append, List.mem_append, ← h.decided v]
    split <;> simp [*]
  · intro j r hj
    rcases (hactive j r).mp hj with hj | ⟨rfl, rfl⟩
    · obtain ⟨hmem, hlookup⟩ := h.active_mem j r hj
      exact ⟨List.mem_append_left _ hmem, (hold j hmem).trans hlookup⟩
    · exact ⟨by simp, hown⟩
  · rw [List.forall_mem_append, List.forall_mem_singleton]
    constructor
    · intro j hj r hjr
      rw [hold j hj] at hjr
      obtain ⟨hr, hlater⟩ := h.kept j hj r hjr
      exact ⟨hr, hlater.imp_left fun hj => (hactive j r).mpr (.inl hj)⟩
    · intro r hr
      have hr := Option.some.inj (hown.symm.trans hr)
      exact ⟨(hkeep r hr).1, .inl ((hactive i r).mpr (.inr ⟨rfl, hr⟩))⟩
  · simp only [List.forall_mem_append, List.forall_mem_singleton]
    refine ⟨fun j hj => ⟨fun k hk r hjr hkr => ?_, fun r hjr hir _ => ?_⟩,
      fun k hk r hir hkr _ => ?_, fun r _ _ hne => absurd rfl hne⟩
    · rw [hold j hj] at hjr
      rw [hold k hk] at hkr
      exact h.apart j hj k hk r hjr hkr
    · rw [hold j hj] at hjr
      exact .inl (hended j hj r hjr (Option.some.inj (hown.symm.trans hir)))
    · rw [hold k hk] at hkr
      exact .inr (hended k hk r hkr (Option.some.inj (hown.symm.trans hir)))
  · rw [List.forall_mem_append, List.forall_mem_singleton]
    constructor
    · intro j hj hjr
      exact h.spilled j hj ((hold j hj).symm.trans hjr)
    · exact fun hi => hspill (Option.some.inj (hown.symm.trans hi))

/-- The next interval gets a free register. -/
theorem Scan.IsSound.keep (h : s.IsSound allocatable intervals earlier i.start)
    (hnodup : allocatable.Nodup) (hnew : i.reg ∉ earlier.map (·.reg)) (hfree : s.free = r :: s'.free)
    (hactive : s'.active.Perm ((i, r) :: s.active))
    (hdecisions : s'.decisions = (i.reg, .keep r) :: s.decisions) :
  s'.IsSound allocatable intervals (earlier ++ [i]) i.start
  := by
  have hshared := h.shared
  rw [hfree] at hshared
  have hheld := (List.nodup_cons.mp (hshared.nodup_iff.mpr hnodup)).1
  refine h.next hnew (.keep r) hdecisions ?_ ?_ ?_ (fun h => absurd h (by simp))
  · have hregs := (hactive.map (·.2)).append_left s'.free
    exact (hregs.trans List.perm_middle).trans hshared
  · intro j q
    rw [hactive.mem_iff, List.mem_cons, or_comm]
    simp [eq_comm]
  · rintro _ ⟨⟩
    refine ⟨hshared.mem_iff.mp (by simp), fun j hj => hheld ?_⟩
    exact List.mem_append_right _ (List.mem_map_of_mem (f := (·.2)) hj)

/-- The decision about an active interval is taken back. -/
theorem Scan.IsSound.evict (h : s.IsSound allocatable intervals earlier now)
    (hnodup : allocatable.Nodup) (hregs : (earlier.map (·.reg)).Nodup) {position : Nat}
    (hvictim : s.active[position]? = some (i, r)) (hcrowded : i.IsCrowded allocatable.length intervals) :
  Scan.IsSound allocatable intervals
    ⟨r :: s.free, s.active.eraseIdx position, (i.reg, .spill) :: s.decisions⟩ earlier now
  := by
  obtain ⟨hlt, hget⟩ := List.getElem?_eq_some_iff.mp hvictim
  have hperm := List.getElem_cons_eraseIdx_perm hlt
  rw [hget] at hperm
  have hi := (h.active_mem i r (List.mem_of_getElem? hvictim)).1
  have hshared : (r :: s.free ++ (s.active.eraseIdx position).map (·.2)).Perm allocatable := by
    have hregs := ((hperm.map (·.2)).append_left s.free).trans h.shared
    exact List.perm_middle.symm.trans hregs
  -- all that keep their registers are others than the victim
  have hkept : ∀ v q, ((i.reg, Decision.spill) :: s.decisions).lookup v = some (.keep q) →
      v ≠ i.reg ∧ s.decisions.lookup v = some (.keep q) := by
    intro v q hv
    rw [lookup_decisions] at hv
    split at hv
    · cases hv
    · exact ⟨‹_›, hv⟩
  constructor
  · exact hshared
  · exact h.started
  · intro v
    rw [lookup_decisions, ← h.decided v]
    split
    · next heq =>
      rw [heq, h.decided]
      simpa using ⟨i, hi, rfl⟩
    · rfl
  · intro j q hj
    obtain ⟨hmem, hlookup⟩ := h.active_mem j q (hperm.mem_iff.mp (List.mem_cons_of_mem _ hj))
    refine ⟨hmem, ?_⟩
    rw [lookup_decisions, if_neg]
    · exact hlookup
    · intro heq
      have hlookup' := (h.active_mem i r (List.mem_of_getElem? hvictim)).2
      rw [heq, hlookup', Option.some.injEq, Decision.keep.injEq] at hlookup
      obtain ⟨hr, -⟩ := List.nodup_cons.mp (hshared.nodup_iff.mpr hnodup)
      exact hr (List.mem_append_right _ (hlookup ▸ List.mem_map_of_mem (f := (·.2)) hj))
  · intro j hj q hjq
    obtain ⟨hne, hjq⟩ := hkept j.reg q hjq
    obtain ⟨hq, hactive | hended⟩ := h.kept j hj q hjq
    · refine ⟨hq, .inl ?_⟩
      rcases List.mem_cons.mp (hperm.mem_iff.mpr hactive) with heq | hmem
      · exact absurd (congrArg (·.1.reg) heq) hne
      · exact hmem
    · exact ⟨hq, .inr hended⟩
  · intro j hj k hk q hjq hkq
    exact h.apart j hj k hk q (hkept _ _ hjq).2 (hkept _ _ hkq).2
  · intro j hj hspill
    rw [lookup_decisions] at hspill
    split at hspill
    · next heq => exact List.inj_on_of_nodup_map hregs hj hi heq ▸ hcrowded
    · exact h.spilled j hj hspill

/-- If no register is free, then too many intervals need one where the next one starts. -/
theorem Scan.IsSound.crowded (h : s.IsSound allocatable intervals earlier i.start)
    (hnodup : allocatable.Nodup) (hfree : s.free = [])
    (hactive : ∀ j r, (j, r) ∈ s.active → i.start ≤ j.stop) (hnew : i.reg ∉ earlier.map (·.reg))
    (hsubset : earlier ++ [i] ⊆ intervals) (hle : i.start ≤ i.stop) :
  allocatable.length < intervals.countP fun j => j.Contains i.start
  := by
  have hshared := h.shared
  rw [hfree, List.nil_append] at hshared
  have hdistinct : (i :: s.active.map (·.1)).Nodup := by
    rw [List.nodup_cons]
    constructor
    · intro hi
      obtain ⟨⟨j, r⟩, hj, rfl⟩ := List.mem_map.mp hi
      exact hnew (List.mem_map_of_mem (h.active_mem j r hj).1)
    · apply List.Nodup.map_on _ (List.Nodup.of_map _ (hshared.nodup_iff.mpr hnodup))
      rintro ⟨j, q⟩ hj ⟨k, r⟩ hk rfl
      have hsame := (h.active_mem j q hj).2.symm.trans (h.active_mem j r hk).2
      rw [Option.some.injEq, Decision.keep.injEq] at hsame
      rw [hsame]
  have hneed : i :: s.active.map (·.1) ⊆ intervals.filter fun j => j.Contains i.start := by
    intro j hj
    rw [List.mem_filter, decide_eq_true_iff]
    rcases List.mem_cons.mp hj with rfl | hj
    · exact ⟨hsubset (by simp), le_rfl, hle⟩
    · obtain ⟨⟨k, r⟩, hk, rfl⟩ := List.mem_map.mp hj
      have hmem := (h.active_mem k r hk).1
      exact ⟨hsubset (List.mem_append_left _ hmem), h.started k hmem, hactive k r hk⟩
  have hlength := (hdistinct.subperm hneed).length_le
  rw [List.length_cons, List.length_map, ← List.length_map (·.2), hshared.length_eq] at hlength
  rw [List.countP_eq_length_filter]
  exact hlength

/-- What the decision about the next interval preserves. -/
theorem Scan.IsSound.place (h : s.IsSound allocatable intervals earlier i.start)
    (hnodup : allocatable.Nodup) (hactive : ∀ j r, (j, r) ∈ s.active → i.start ≤ j.stop)
    (hregs : ((earlier ++ [i]).map (·.reg)).Nodup) (hsubset : earlier ++ [i] ⊆ intervals)
    (hle : i.start ≤ i.stop) :
  (s.place i).IsSound allocatable intervals (earlier ++ [i]) i.start
  := by
  rw [List.map_append, List.nodup_append] at hregs
  obtain ⟨hregs, -, hdistinct⟩ := hregs
  have hnew : i.reg ∉ earlier.map (·.reg) := fun hmem => hdistinct _ hmem _ (by simp) rfl
  rw [Scan.place]
  split
  · next r free hfree => exact h.keep hnodup hnew hfree (List.perm_append_singleton ..) rfl
  · next hfree =>
    have hcrowded := h.crowded hnodup hfree hactive hnew hsubset hle
    have hspill : Scan.IsSound allocatable intervals { s with decisions := (i.reg, .spill) :: s.decisions }
        (earlier ++ [i]) i.start := by
      refine h.next hnew .spill rfl h.shared (by simp) (by simp) fun _ => ?_
      exact ⟨i.start, ⟨le_rfl, hle⟩, hcrowded⟩
    split
    · exact hspill
    · next position victim r hlast =>
      split
      · have hget := getElem?_of_lastToEnd hlast
        have hmem := List.mem_of_getElem? hget
        have hvictim : victim.IsCrowded allocatable.length intervals :=
          ⟨i.start, ⟨h.started _ (h.active_mem _ _ hmem).1, hactive _ _ hmem⟩, hcrowded⟩
        have hset := List.set_perm_cons_eraseIdx (List.getElem?_eq_some_iff.mp hget).1 (i, r)
        exact (h.evict hnodup hregs hget hvictim).keep hnodup hnew rfl hset rfl
      · exact hspill

theorem Scan.IsSound.step (h : s.IsSound allocatable intervals earlier now)
    (hnodup : allocatable.Nodup) (hnow : now ≤ i.start) (hregs : ((earlier ++ [i]).map (·.reg)).Nodup)
    (hsubset : earlier ++ [i] ⊆ intervals) (hle : i.start ≤ i.stop) :
  (s.step i).IsSound allocatable intervals (earlier ++ [i]) i.start
  := by
  obtain ⟨hexpire, hactive⟩ := h.expire hnodup hnow
  exact hexpire.place hnodup hactive hregs hsubset hle

/-- What the whole scan preserves. -/
theorem Scan.IsSound.foldl (h : s.IsSound allocatable intervals earlier now)
    (hnodup : allocatable.Nodup) (hintervals : earlier ++ left = intervals)
    (hnow : ∀ i ∈ left, now ≤ i.start) (hle : ∀ i ∈ intervals, i.start ≤ i.stop)
    (hregs : (intervals.map (·.reg)).Nodup) (hsorted : left.Pairwise fun i j => i.start ≤ j.start) :
  ∃ last, (left.foldl Scan.step s).IsSound allocatable intervals intervals last
  := by
  induction left generalizing s earlier now with
  | nil =>
    rw [List.append_nil] at hintervals
    exact ⟨now, hintervals ▸ h⟩
  | cons i left ih =>
    rw [List.forall_mem_cons] at hnow
    rw [List.append_cons] at hintervals
    obtain ⟨hfirst, hrest⟩ := List.pairwise_cons.mp hsorted
    have hsubset : earlier ++ [i] ⊆ intervals := hintervals ▸ List.subset_append_left ..
    have hdistinct : ((earlier ++ [i]).map (·.reg)).Nodup := by
      rw [← hintervals, List.map_append] at hregs
      exact (List.nodup_append.mp hregs).1
    have hstep := h.step hnodup hnow.1 hdistinct hsubset (hle i (hsubset (by simp)))
    exact ih hstep hintervals hfirst hrest

end

/-- All that is known of the scan in the end. -/
theorem linearScan_isSound (hnodup : allocatable.Nodup) {intervals : List Interval}
    (hle : ∀ i ∈ intervals, i.start ≤ i.stop) (hregs : (intervals.map (·.reg)).Nodup)
    (hsorted : intervals.Pairwise fun i j => i.start ≤ j.start) :
  ∃ last, (intervals.foldl Scan.step ⟨allocatable, [], []⟩).IsSound allocatable intervals intervals last
  := by
  have hstart : Scan.IsSound allocatable intervals ⟨allocatable, [], []⟩ [] 0 := by
    constructor <;> simp
  exact hstart.foldl hnodup (List.nil_append _) (fun _ _ => Nat.zero_le _) hle hregs hsorted

theorem mem_scan {intervals : List Interval} :
  (v, r) ∈ scan allocatable intervals ↔
    (∃ i ∈ intervals, i.reg = v) ∧ (linearScan allocatable intervals).lookup v = some (.keep r)
  := by
  have hreg : ((linearScan allocatable intervals).lookup v).bind Decision.reg? = some r
      ↔ (linearScan allocatable intervals).lookup v = some (.keep r) := by
    rcases (linearScan allocatable intervals).lookup v with - | - | - <;> simp [Decision.reg?]
  rw [← hreg]
  simp only [scan, List.mem_filterMap, Option.map_eq_some_iff, Prod.mk.injEq]
  constructor
  · rintro ⟨i, hi, q, hq, rfl, rfl⟩
    exact ⟨⟨i, hi, rfl⟩, hq⟩
  · rintro ⟨⟨i, hi, rfl⟩, hq⟩
    exact ⟨i, hi, r, hq, rfl, rfl⟩

theorem nodup_allocatable (target : Target) :
  target.allocatable.Nodup
  := List.nodup_range

/-- Registers that are held at the same position are given different registers. -/
theorem scan_apart {target : Target} {w : VReg} (hv : (v, r) ∈ scan target.allocatable (intervals f))
    (hw : (w, r) ∈ scan target.allocatable (intervals f)) (hheld : Held f v position) (hheld' : Held f w position) :
  v = w
  := by
  obtain ⟨i, hi, rfl, hstart, hstop⟩ := hheld
  obtain ⟨j, hj, rfl, hstart', hstop'⟩ := hheld'
  by_contra hne
  have hij : i ≠ j := fun h => hne (by rw [h])
  obtain ⟨last, h⟩ := linearScan_isSound (nodup_allocatable target) (start_le_stop f) (nodup_intervals f)
    (pairwise_intervals f)
  rcases h.apart i hi j hj r (mem_scan.mp hv).2 (mem_scan.mp hw).2 hij with h | h <;> omega

theorem scan_allocatable {target : Target} (h : (v, r) ∈ scan target.allocatable (intervals f)) :
  r ∈ target.allocatable
  := by
  obtain ⟨⟨i, hi, rfl⟩, hlookup⟩ := mem_scan.mp h
  obtain ⟨last, h⟩ := linearScan_isSound (nodup_allocatable target) (start_le_stop f) (nodup_intervals f)
    (pairwise_intervals f)
  exact (h.kept i hi r hlookup).1

/--
No register is shared. Each listed virtual register is given a register of the target, or it is kept in
memory since somewhere in its interval more virtual registers are needed than there are registers for
them, and nothing is decided about others. Two intervals with a position in common never keep the same
register.
-/
theorem linearScan_apart (target : Target) (intervals : List Interval)
    (hle : ∀ i ∈ intervals, i.start ≤ i.stop) (hregs : (intervals.map (·.reg)).Nodup)
    (hsorted : intervals.Pairwise fun i j => i.start ≤ j.start) :
  (∀ i ∈ intervals,
      (∃ r ∈ target.allocatable, (linearScan target.allocatable intervals).lookup i.reg = some (.keep r))
        ∨ ((linearScan target.allocatable intervals).lookup i.reg = some .spill
          ∧ i.IsCrowded target.allocatableCount intervals))
    ∧ (∀ v, v ∉ intervals.map (·.reg) → (linearScan target.allocatable intervals).lookup v = none)
    ∧ ∀ i ∈ intervals, ∀ j ∈ intervals, i ≠ j → ∀ position, i.Contains position → j.Contains position →
      ∀ r q, (linearScan target.allocatable intervals).lookup i.reg = some (.keep r) →
        (linearScan target.allocatable intervals).lookup j.reg = some (.keep q) → r ≠ q
  := by
  obtain ⟨last, h⟩ := linearScan_isSound (nodup_allocatable target) hle hregs hsorted
  refine ⟨fun i hi => ?_, fun v hv => ?_, ?_⟩
  · obtain ⟨decision, hdecision⟩ := Option.isSome_iff_exists.mp
      ((h.decided i.reg).mpr (List.mem_map_of_mem hi))
    cases decision with
    | keep r => exact .inl ⟨r, (h.kept i hi r hdecision).1, hdecision⟩
    | spill =>
      have hcrowded := h.spilled i hi hdecision
      rw [Target.allocatable, List.length_range] at hcrowded
      exact .inr ⟨hdecision, hcrowded⟩
  · rw [← h.decided, Bool.not_eq_true, Option.isSome_eq_false_iff, Option.isNone_iff_eq_none] at hv
    exact hv
  · rintro i hi j hj hne position ⟨hstart, hstop⟩ ⟨hstart', hstop'⟩ r q hr hq rfl
    rcases h.apart i hi j hj r hr hq hne with hend | hend
    · omega
    · omega

/-- One interval loses its only register to a shorter one, and another has to wait in vain for it. -/
theorem linearScan_apart_evicted :
  let target : Target := ⟨"narrow", 3, 2, none⟩
  let intervals : List Interval := [⟨0, 0, 9⟩, ⟨1, 1, 3⟩, ⟨2, 4, 6⟩, ⟨3, 5, 8⟩]
  (∀ i ∈ intervals, i.start ≤ i.stop) ∧ (intervals.map (·.reg)).Nodup
    ∧ intervals.Pairwise (fun i j => i.start ≤ j.start)
    ∧ linearScan target.allocatable intervals
      = [(3, .spill), (2, .keep 0), (1, .keep 0), (0, .spill), (0, .keep 0)]
    ∧ ∀ i ∈ intervals, (linearScan target.allocatable intervals).lookup i.reg = some .spill →
      i.IsCrowded target.allocatableCount intervals
  := by
  intro target intervals
  have hle : ∀ i ∈ intervals, i.start ≤ i.stop := by decide
  have hregs : (intervals.map (·.reg)).Nodup := by decide
  have hsorted : intervals.Pairwise fun i j => i.start ≤ j.start := by decide
  refine ⟨hle, hregs, hsorted, by decide, fun i hi hspill => ?_⟩
  rcases (linearScan_apart target intervals hle hregs hsorted).1 i hi with ⟨r, -, hkeep⟩ | ⟨-, hcrowded⟩
  · rw [hspill] at hkeep
    cases hkeep
  · exact hcrowded

end FormCompiler.Machine
