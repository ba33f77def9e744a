import FormCompiler.Flow.Graph
import Mathlib

/-!
# How often variables are read

A variable whose reads are counted as one is read at one place, and one that is counted as unread is
read nowhere.
-/

namespace FormCompiler.Flow

/-! ## Sums -/

theorem le_total_of_getElem? {counts : List Nat} {k x : Nat} (h : counts[k]? = some x) :
  x ≤ total counts
  := by
  induction counts generalizing k with
  | nil => simp at h
  | cons y counts ih =>
    rw [total]
    cases k with
    | zero =>
      obtain rfl : y = x := by simpa using h
      exact Nat.le_add_right _ _
    | succ k => exact (ih (by simpa using h)).trans (Nat.le_add_left _ _)

theorem total_eq_sum (counts : List Nat) :
  total counts = counts.sum
  := by
  induction counts with
  | nil => rfl
  | cons x counts ih => rw [total, List.sum_cons, ih]

/-- If a sum is one, then only one of its parts is positive. -/
theorem eq_of_total_eq_one
    {counts : List Nat} (h : total counts = 1) {i j m n : Nat} (hi : counts[i]? = some m)
    (hj : counts[j]? = some n) (hm : 0 < m) (hn : 0 < n) :
  i = j ∧ m = 1
  := by
  induction counts generalizing i j with
  | nil => simp at hi
  | cons x counts ih =>
    rw [total] at h
    cases i with
    | zero =>
      obtain rfl : x = m := by simpa using hi
      cases j with
      | zero => exact ⟨rfl, by omega⟩
      | succ j =>
        have hj' : counts[j]? = some n := by simpa using hj
        have hle := le_total_of_getElem? hj'
        omega
    | succ i =>
      have hi' : counts[i]? = some m := by simpa using hi
      have hle := le_total_of_getElem? hi'
      cases j with
      | zero =>
        obtain rfl : x = n := by simpa using hj
        omega
      | succ j =>
        obtain ⟨rfl, hone⟩ := ih (by omega) hi' (by simpa using hj)
        exact ⟨rfl, hone⟩

/-! ## Reads -/

section

variable {f : Function} {id id' : BlockId} {b b' : Block} {v : VarId}

theorem getElem?_counts (hb : f.blocks[id]? = some b) (v : VarId) :
  (f.blocks.map fun b => b.uses.count v)[id]? = some (b.uses.count v)
  := by
  simp [hb]

/-- A variable that is read once is read in one block. -/
theorem eq_of_useCount_eq_one (h : f.useCount v = 1) (hb : f.blocks[id]? = some b)
    (hb' : f.blocks[id']? = some b') (hv : v ∈ b.uses) (hv' : v ∈ b'.uses) :
  id = id' ∧ b.uses.count v = 1
  := eq_of_total_eq_one h (getElem?_counts hb v) (getElem?_counts hb' v) (List.count_pos_iff.mpr hv)
    (List.count_pos_iff.mpr hv')

/-- A variable that is read once, by an instruction, is read nowhere else. -/
theorem only_use_of_useCount_eq_one (h : f.useCount v = 1) (hb : f.blocks[id]? = some b) {p : Nat}
    {i : Instr} (hi : b.instrs[p]? = some i) (hv : v ∈ i.uses) (hb' : f.blocks[id']? = some b') :
  (∀ (p' : Nat) (i' : Instr), b'.instrs[p']? = some i' → v ∈ i'.uses → id' = id ∧ p' = p)
    ∧ v ∉ b'.terminator.uses
  := by
  have hmem : v ∈ b.instrs.flatMap Instr.uses :=
    List.mem_flatMap.mpr ⟨i, List.mem_of_getElem? hi, hv⟩
  have huse : v ∈ b.uses := List.mem_append_left _ hmem
  have hpos := List.count_pos_iff.mpr hmem
  constructor
  · intro p' i' hi' hv'
    have hmem' : v ∈ b'.instrs.flatMap Instr.uses :=
      List.mem_flatMap.mpr ⟨i', List.mem_of_getElem? hi', hv'⟩
    obtain ⟨rfl, hone⟩ := eq_of_useCount_eq_one h hb hb' huse (List.mem_append_left _ hmem')
    rw [hb] at hb'
    obtain rfl := Option.some.inj hb'
    refine ⟨rfl, ?_⟩
    rw [Block.uses, List.count_append] at hone
    have htotal : total (b.instrs.map fun i => i.uses.count v) = 1 := by
      have hsum : (b.instrs.flatMap Instr.uses).count v = (b.instrs.map fun i => i.uses.count v).sum :=
        List.count_flatMap
      rw [total_eq_sum, ← hsum]
      omega
    have hget : ∀ {k : Nat} {i : Instr}, b.instrs[k]? = some i →
        (b.instrs.map fun i => i.uses.count v)[k]? = some (i.uses.count v) := by
      intro k i hi
      simp [hi]
    exact (eq_of_total_eq_one htotal (hget hi') (hget hi) (List.count_pos_iff.mpr hv')
      (List.count_pos_iff.mpr hv)).1
  · intro hlast
    obtain ⟨rfl, hone⟩ := eq_of_useCount_eq_one h hb hb' huse (List.mem_append_right _ hlast)
    rw [hb] at hb'
    obtain rfl := Option.some.inj hb'
    have hpos' := List.count_pos_iff.mpr hlast
    rw [Block.uses, List.count_append] at hone
    omega

/-- A variable that is not read is in no block. -/
theorem useCount_eq_zero_iff :
  f.useCount v = 0 ↔ ∀ b ∈ f.blocks, v ∉ b.uses
  := by
  rw [Function.useCount, total_eq_sum, List.sum_eq_zero_iff]
  simp [List.count_eq_zero]

end

end FormCompiler.Flow
