import FormCompiler.Machine.Liveness
import Mathlib

/-!
# Liveness is a least solution

The registers that are live at the start of a block are those that its steps read before they write
them, and those that are live at its end and are not written. `settle` finds a solution of these
equations for all blocks at once. A table of what is known is `IsJustified` as long as it knows only
what blocks need because of the rest, and then a visit loses nothing. For one register, each sweep
either finds a further block at whose start it is live, or no later sweep finds any; so after as many
sweeps as there are blocks nothing new is found, and one sweep later nothing changes any more. The
solution is the least one, since what is closed under the needs of blocks is never left.
-/

namespace FormCompiler.Machine

open FormCompiler.Flow

variable {as acc : List VReg} {b next : SelectedBlock} {live : VReg → Prop} {table : Array Liveness}
    {P : Nat → VReg → Prop} {blocks : List SelectedBlock} {position : Nat}

/-! ## Lists of registers -/

theorem mem_eraseRepsBy_loop {v a : VReg} :
  v ∈ List.eraseRepsBy.loop (· == ·) a as acc ↔ v = a ∨ v ∈ as ∨ v ∈ acc
  := by
  induction as generalizing a acc with
  | nil => simp [List.eraseRepsBy.loop, or_comm]
  | cons b as ih =>
    rw [List.eraseRepsBy.loop]
    split
    · next heq =>
      obtain rfl : a = b := by simpa using heq
      rw [ih, List.mem_cons]
      tauto
    · rw [ih, List.mem_cons, List.mem_cons]
      tauto

theorem mem_eraseReps {v : VReg} :
  v ∈ as.eraseReps ↔ v ∈ as
  := by
  cases as with
  | nil => rfl
  | cons a as =>
    rw [List.eraseReps, List.eraseRepsBy, mem_eraseRepsBy_loop]
    simp

theorem mem_unite {v : VReg} {a b : List VReg} :
  v ∈ unite a b ↔ v ∈ a ∨ v ∈ b
  := by
  rw [unite, mem_eraseReps, List.mem_merge]

theorem pairwise_eraseRepsBy_loop {a : VReg} (has : (a :: as).Pairwise (· ≤ ·)) (hacc : (a :: acc).Pairwise (· > ·)) :
  (List.eraseRepsBy.loop (· == ·) a as acc).Pairwise (· < ·)
  := by
  induction as generalizing a acc with
  | nil => exact List.pairwise_reverse.mpr hacc
  | cons b as ih =>
    obtain ⟨hfirst, hrest⟩ := List.pairwise_cons.mp has
    rw [List.eraseRepsBy.loop]
    split
    · next heq =>
      obtain rfl : a = b := by simpa using heq
      exact ih hrest hacc
    · next hne =>
      have hab : a < b := Nat.lt_of_le_of_ne (hfirst b (by simp)) (by simpa using hne)
      apply ih hrest
      rw [List.pairwise_cons, List.forall_mem_cons]
      refine ⟨⟨hab, fun x hx => ?_⟩, hacc⟩
      exact Nat.lt_trans ((List.pairwise_cons.mp hacc).1 x hx) hab

/-- Without repetitions, what is in order increases at each step. -/
theorem pairwise_eraseReps (h : as.Pairwise (· ≤ ·)) :
  as.eraseReps.Pairwise (· < ·)
  := by
  cases as with
  | nil => exact .nil
  | cons a as => exact pairwise_eraseRepsBy_loop h (List.pairwise_singleton ..)

theorem pairwise_unite {a b : List VReg} (ha : a.Pairwise (· < ·)) (hb : b.Pairwise (· < ·)) :
  (unite a b).Pairwise (· < ·)
  := by
  apply pairwise_eraseReps
  exact (ha.imp Nat.le_of_lt).merge (hb.imp Nat.le_of_lt)

/-! ## The steps of a block -/

/-- The registers that a step reads, and then those that it writes. -/
structure Access where
  uses : List VReg
  defs : List VReg

/-- What the steps of a block read and write. -/
def SelectedBlock.accesses (b : SelectedBlock) : List Access :=
  b.body.map (fun i => ⟨i.uses, i.def?.toList⟩) ++
    [⟨moveUses b.moves, b.moves.map (·.1)⟩, ⟨b.control.uses, []⟩]

/-- A register is read by some step before it is written, or is not written and live at the end. -/
def LiveBefore (live : VReg → Prop) : List Access → VReg → Prop
  | [], v => live v
  | step :: rest, v => v ∈ step.uses ∨ (v ∉ step.defs ∧ LiveBefore live rest v)

theorem LiveBefore.mono {live' : VReg → Prop} {steps : List Access} {v : VReg} (h : LiveBefore live steps v)
    (hlive : live v → live' v) :
  LiveBefore live' steps v
  := by
  induction steps with
  | nil => exact hlive h
  | cons step rest ih =>
    rcases h with h | ⟨hdef, h⟩
    · exact .inl h
    · exact .inr ⟨hdef, ih h⟩

theorem liveBefore_foldl (steps : List Access) (e : Effects) (v : VReg) :
  v ∈ (steps.foldl (fun e step => e.step step.uses step.defs) e).reads
      ∨ (v ∉ (steps.foldl (fun e step => e.step step.uses step.defs) e).writes ∧ live v)
    ↔ v ∈ e.reads ∨ (v ∉ e.writes ∧ LiveBefore live steps v)
  := by
  induction steps generalizing e with
  | nil => rfl
  | cons step rest ih =>
    rw [List.foldl_cons, ih]
    simp only [Effects.step, List.mem_append, List.mem_filter, Bool.not_eq_true',
      List.contains_eq_mem, decide_eq_false_iff_not, LiveBefore]
    tauto

theorem SelectedBlock.effects_eq (b : SelectedBlock) :
  b.effects = b.accesses.foldl (fun e step => e.step step.uses step.defs) ⟨[], []⟩
  := by
  simp [effects, accesses, List.foldl_append, List.foldl_map]

theorem SelectedBlock.liveBefore_accesses (b : SelectedBlock) {v : VReg} :
  LiveBefore live b.accesses v ↔ v ∈ b.effects.reads ∨ (v ∉ b.effects.writes ∧ live v)
  := by
  rw [b.effects_eq, liveBefore_foldl]
  simp

/-! ## What is known of blocks -/

/-- A register is known to be live at the start of the block at a position. -/
def IsIn (table : Array Liveness) (position : Nat) (v : VReg) : Prop :=
  v ∈ (table.getD position default).liveIn

/-- A table knows all that another one knows. -/
def Grows (table table' : Array Liveness) : Prop :=
  ∀ position v, IsIn table position v → IsIn table' position v

theorem Grows.refl (table : Array Liveness) :
  Grows table table
  := fun _ _ h => h

theorem Grows.trans {table' table'' : Array Liveness} (h : Grows table table') (h' : Grows table' table'') :
  Grows table table''
  := fun position v hv => h' position v (h position v hv)

/-- A register is read before it is written, or it is not written and live at the start of a successor. -/
def LiveBlock.Needs (b : LiveBlock) (P : Nat → VReg → Prop) (v : VReg) : Prop :=
  v ∈ b.reads ∨ (v ∉ b.writes ∧ ∃ next ∈ b.successors, P next v)

theorem LiveBlock.Needs.mono {b : LiveBlock} {Q : Nat → VReg → Prop} {v : VReg} (h : b.Needs P v)
    (hle : ∀ next v, P next v → Q next v) :
  b.Needs Q v
  := by
  rcases h with h | ⟨hwrite, next, hnext, h⟩
  · exact .inl h
  · exact .inr ⟨hwrite, next, hnext, hle next v h⟩

theorem LiveBlock.mem_liveOut {b : LiveBlock} {v : VReg} :
  v ∈ b.liveOut table ↔ ∃ next ∈ b.successors, IsIn table next v
  := by
  have hfold : ∀ (positions : List Nat) (live : List VReg),
      v ∈ positions.foldl (fun live next => unite live (table.getD next default).liveIn) live
        ↔ v ∈ live ∨ ∃ next ∈ positions, IsIn table next v := by
    intro positions
    induction positions with
    | nil => simp
    | cons next positions ih =>
      intro live
      rw [List.foldl_cons, ih, mem_unite]
      simp [IsIn, or_assoc]
  rw [liveOut, hfold]
  simp

theorem LiveBlock.mem_liveIn {b : LiveBlock} {v : VReg} :
  v ∈ (b.liveness table).liveIn ↔ b.Needs (IsIn table) v
  := by
  rw [liveness, mem_unite, List.mem_filter, mem_liveOut]
  simp [Needs, and_comm]

/-! ## One visit -/

section

variable {blocks : List LiveBlock} {table : Array Liveness}

/-- There is an entry for each block, and only what the blocks need is known. -/
structure IsJustified (blocks : List LiveBlock) (table : Array Liveness) : Prop where
  size : table.size = blocks.length
  needed : ∀ position v, IsIn table position v →
    ∃ b, blocks[position]? = some b ∧ b.Needs (IsIn table) v

/-- The entry of a block after it has been looked at. -/
theorem getElem?_visit {b : LiveBlock} (hlt : position < table.size) :
  (visit (b, position) table)[position]? = some (b.liveness table)
  := by
  simp [visit, hlt]

theorem getElem?_visit_of_ne {b : LiveBlock} {other : Nat} (h : position ≠ other) :
  (visit (b, position) table)[other]? = table[other]?
  := by
  simp [visit, h]

theorem IsJustified.lt_size (h : IsJustified blocks table) {b : LiveBlock} (hb : blocks[position]? = some b) :
  position < table.size
  := by
  rw [h.size]
  exact (List.getElem?_eq_some_iff.mp hb).1

/-- A register is known at a block that has been looked at if the block needs it. -/
theorem IsJustified.isIn_visit (h : IsJustified blocks table) {b : LiveBlock} (hb : blocks[position]? = some b)
    {other : Nat} {v : VReg} :
  IsIn (visit (b, position) table) other v
    ↔ if other = position then b.Needs (IsIn table) v else IsIn table other v
  := by
  unfold IsIn
  rw [Array.getD_eq_getD_getElem?, Array.getD_eq_getD_getElem?]
  split
  · next heq =>
    rw [heq, getElem?_visit (h.lt_size hb)]
    exact LiveBlock.mem_liveIn
  · next hne => rw [getElem?_visit_of_ne (Ne.symm hne)]

/-- Looking at a block loses nothing. -/
theorem IsJustified.grows_visit (h : IsJustified blocks table) {b : LiveBlock} (hb : blocks[position]? = some b) :
  Grows table (visit (b, position) table)
  := by
  intro other v hv
  rw [h.isIn_visit hb]
  split
  · next heq =>
    obtain ⟨b', hb', hneeds⟩ := h.needed other v hv
    rw [heq, hb] at hb'
    exact Option.some.inj hb' ▸ hneeds
  · exact hv

theorem IsJustified.visit (h : IsJustified blocks table) {b : LiveBlock} (hb : blocks[position]? = some b) :
  IsJustified blocks (Machine.visit (b, position) table)
  := by
  have hgrows := h.grows_visit hb
  constructor
  · rw [← h.size]
    simp [Machine.visit]
  · intro other v hv
    rw [h.isIn_visit hb] at hv
    split at hv
    · next heq => exact ⟨b, heq ▸ hb, hv.mono hgrows⟩
    · obtain ⟨b', hb', hneeds⟩ := h.needed other v hv
      exact ⟨b', hb', hneeds.mono hgrows⟩

/-! ## Many visits -/

section

variable {visits : List (LiveBlock × Nat)}

theorem IsJustified.foldr (h : IsJustified blocks table)
    (hvisits : ∀ x ∈ visits, blocks[x.2]? = some x.1) :
  IsJustified blocks (visits.foldr Machine.visit table)
    ∧ Grows table (visits.foldr Machine.visit table)
  := by
  induction visits with
  | nil => exact ⟨h, .refl table⟩
  | cons x visits ih =>
    rw [List.forall_mem_cons] at hvisits
    obtain ⟨hlater, hgrows⟩ := ih hvisits.2
    exact ⟨hlater.visit hvisits.1, hgrows.trans (hlater.grows_visit hvisits.1)⟩

/-- A block is looked at when no less is known than in the beginning and no more than in the end. -/
theorem IsJustified.exists_visited (h : IsJustified blocks table) (hvisits : ∀ x ∈ visits, blocks[x.2]? = some x.1)
    (hnodup : (visits.map (·.2)).Nodup) {b : LiveBlock} (hmem : (b, position) ∈ visits) :
  ∃ table', Grows table table' ∧ Grows table' (visits.foldr Machine.visit table)
    ∧ (visits.foldr Machine.visit table)[position]? = some (b.liveness table')
  := by
  induction visits with
  | nil => cases hmem
  | cons x visits ih =>
    rw [List.forall_mem_cons] at hvisits
    rw [List.map_cons, List.nodup_cons] at hnodup
    obtain ⟨hlater, hgrows⟩ := h.foldr hvisits.2
    have hlast := hlater.grows_visit hvisits.1
    rcases List.mem_cons.mp hmem with rfl | hmem
    · exact ⟨_, hgrows, hlast, getElem?_visit (hlater.lt_size hvisits.1)⟩
    · obtain ⟨table', hbefore, hafter, hentry⟩ := ih hvisits.2 hnodup.2 hmem
      have hne : x.2 ≠ position := by
        rintro rfl
        exact hnodup.1 (List.mem_map.mpr ⟨_, hmem, rfl⟩)
      refine ⟨table', hbefore, hafter.trans hlast, ?_⟩
      rw [List.foldr_cons, ← hentry]
      exact getElem?_visit_of_ne hne

/-- What holds of all that is known, and of all that blocks need because of it, goes on to hold. -/
theorem IsJustified.isIn_foldr_of_closed (h : IsJustified blocks table)
    (hvisits : ∀ x ∈ visits, blocks[x.2]? = some x.1) {P : Nat → VReg → Prop}
    (hclosed : ∀ position b v, blocks[position]? = some b → b.Needs P v → P position v)
    (hknown : ∀ position v, IsIn table position v → P position v) {v : VReg}
    (hv : IsIn (visits.foldr Machine.visit table) position v) :
  P position v
  := by
  induction visits generalizing position v with
  | nil => exact hknown position v hv
  | cons x visits ih =>
    rw [List.forall_mem_cons] at hvisits
    rw [List.foldr_cons, (h.foldr hvisits.2).1.isIn_visit hvisits.1] at hv
    split at hv
    · next heq =>
      apply hclosed position x.1 v (heq ▸ hvisits.1)
      exact hv.mono fun next v hnext => ih hvisits.2 hnext
    · exact ih hvisits.2 hv

end

/-! ## One sweep -/

theorem getElem?_of_mem_zipIdx {x : LiveBlock × Nat} (h : x ∈ blocks.zipIdx) :
  blocks[x.2]? = some x.1
  := List.mem_zipIdx_iff_getElem?.mp h

theorem IsJustified.sweep (h : IsJustified blocks table) :
  IsJustified blocks (sweep blocks table) ∧ Grows table (sweep blocks table)
  := h.foldr fun _ => getElem?_of_mem_zipIdx

theorem IsJustified.exists_swept (h : IsJustified blocks table) {b : LiveBlock} (hb : blocks[position]? = some b) :
  ∃ table', Grows table table' ∧ Grows table' (Machine.sweep blocks table)
    ∧ (Machine.sweep blocks table)[position]? = some (b.liveness table')
  := by
  apply h.exists_visited fun _ => getElem?_of_mem_zipIdx
  · rw [List.zipIdx_map_snd]
    exact List.nodup_range'
  · exact List.mk_mem_zipIdx_iff_getElem?.mpr hb

/-- A sweep finds at least what blocks need because of what has been known before. -/
theorem IsJustified.isIn_sweep (h : IsJustified blocks table) {b : LiveBlock} (hb : blocks[position]? = some b)
    {v : VReg} (hv : b.Needs (IsIn table) v) :
  IsIn (Machine.sweep blocks table) position v
  := by
  obtain ⟨table', hbefore, -, hentry⟩ := h.exists_swept hb
  rw [IsIn, Array.getD_eq_getD_getElem?, hentry]
  exact LiveBlock.mem_liveIn.mpr (hv.mono hbefore)

/-- A sweep that finds nothing new leaves each block with what it needs. -/
theorem IsJustified.mem_swept (h : IsJustified blocks table) (hsame : Grows (Machine.sweep blocks table) table)
    {b : LiveBlock} (hb : blocks[position]? = some b) :
  ∃ live, (Machine.sweep blocks table)[position]? = some live
    ∧ (∀ v, v ∈ live.liveIn ↔ b.Needs (IsIn table) v)
    ∧ ∀ v, v ∈ live.liveOut ↔ ∃ next ∈ b.successors, IsIn table next v
  := by
  obtain ⟨table', hbefore, hafter, hentry⟩ := h.exists_swept hb
  have hknown : IsIn table' = IsIn table := by
    funext position v
    exact propext ⟨fun hv => hsame position v (hafter position v hv), hbefore position v⟩
  refine ⟨_, hentry, fun v => ?_, fun v => ?_⟩
  · rw [LiveBlock.mem_liveIn, hknown]
  · rw [← hknown]
    exact LiveBlock.mem_liveOut

/-! ## Tables in order -/

/-- The registers that are live at the bounds of a block are listed in order, each of them once. -/
structure Liveness.IsOrdered (live : Liveness) : Prop where
  liveIn : live.liveIn.Pairwise (· < ·)
  liveOut : live.liveOut.Pairwise (· < ·)

theorem Liveness.IsOrdered.ext {live live' : Liveness} (h : live.IsOrdered) (h' : live'.IsOrdered)
    (hin : ∀ v, v ∈ live.liveIn ↔ v ∈ live'.liveIn)
    (hout : ∀ v, v ∈ live.liveOut ↔ v ∈ live'.liveOut) :
  live = live'
  := by
  cases live
  cases live'
  congr 1
  · exact h.liveIn.eq_of_mem_iff h'.liveIn hin
  · exact h.liveOut.eq_of_mem_iff h'.liveOut hout

theorem LiveBlock.isOrdered_liveness {b : LiveBlock} (hreads : b.reads.Pairwise (· < ·))
    (htable : ∀ position, (table.getD position default).liveIn.Pairwise (· < ·)) :
  (b.liveness table).IsOrdered
  := by
  have hfold : ∀ (positions : List Nat) (live : List VReg), live.Pairwise (· < ·) →
      (positions.foldl (fun live next => unite live (table.getD next default).liveIn) live).Pairwise
        (· < ·) := by
    intro positions
    induction positions with
    | nil => exact fun live h => h
    | cons next positions ih => exact fun live h => ih _ (pairwise_unite h (htable next))
  have hout : (b.liveOut table).Pairwise (· < ·) := hfold b.successors [] .nil
  exact ⟨pairwise_unite hreads (hout.filter _), hout⟩

/-- The registers that blocks read are listed in order, each of them once. -/
def ReadInOrder (blocks : List LiveBlock) : Prop := ∀ b ∈ blocks, b.reads.Pairwise (· < ·)

/-- All entries of a table are in order. -/
def InOrder (table : Array Liveness) : Prop := ∀ position, (table.getD position default).IsOrdered

theorem InOrder.sweep (h : InOrder table) (hreads : ReadInOrder blocks) :
  InOrder (sweep blocks table)
  := by
  have hfold : ∀ visits : List (LiveBlock × Nat), (∀ x ∈ visits, x.1.reads.Pairwise (· < ·)) →
      InOrder (visits.foldr visit table) := by
    intro visits hvisits
    induction visits with
    | nil => exact h
    | cons x visits ih =>
      rw [List.forall_mem_cons] at hvisits
      have hlater := ih hvisits.2
      intro position
      have hentry := x.1.isOrdered_liveness hvisits.1 fun position => (hlater position).liveIn
      rw [List.foldr_cons, visit, Array.getD_eq_getD_getElem?, Array.getElem?_setIfInBounds]
      split
      · split
        · exact hentry
        · exact ⟨.nil, .nil⟩
      · rw [← Array.getD_eq_getD_getElem?]
        exact hlater position
  apply hfold
  intro x hx
  exact hreads x.1 (List.mem_of_getElem? (getElem?_of_mem_zipIdx hx))

/-- After a sweep that finds nothing new, the next one changes nothing. -/
theorem IsJustified.sweep_sweep (h : IsJustified blocks table) (horder : InOrder table)
    (hreads : ReadInOrder blocks) (hsame : Grows (Machine.sweep blocks table) table) :
  Machine.sweep blocks (Machine.sweep blocks table) = Machine.sweep blocks table
  := by
  obtain ⟨hnext, hgrows⟩ := h.sweep
  have hknown : IsIn (Machine.sweep blocks table) = IsIn table := by
    funext position v
    exact propext ⟨hsame position v, hgrows position v⟩
  -- all that blocks need is known, so that nothing new can be found
  have hstill : Grows (Machine.sweep blocks (Machine.sweep blocks table))
      (Machine.sweep blocks table) := by
    intro position v hv
    apply hnext.isIn_foldr_of_closed (fun _ => getElem?_of_mem_zipIdx) _ (fun _ _ h => h) hv
    intro position b v hb hneeds
    rw [hknown] at hneeds
    exact h.isIn_sweep hb hneeds
  have hnextOrder := horder.sweep hreads
  have hsize := hnext.sweep.1.size
  apply Array.ext (hsize.trans hnext.size.symm)
  intro position hlt hlt'
  obtain ⟨b, hb⟩ : ∃ b, blocks[position]? = some b := by
    rw [hnext.size] at hlt'
    exact ⟨_, List.getElem?_eq_getElem hlt'⟩
  obtain ⟨live, hentry, hin, hout⟩ := hnext.mem_swept hstill hb
  obtain ⟨live', hentry', hin', hout'⟩ := h.mem_swept hsame hb
  have hordered := hnextOrder.sweep hreads position
  have hordered' := hnextOrder position
  rw [Array.getD_eq_getD_getElem?, hentry] at hordered
  rw [Array.getD_eq_getD_getElem?, hentry'] at hordered'
  rw [Array.getElem?_eq_getElem hlt, Option.some.injEq] at hentry
  rw [Array.getElem?_eq_getElem hlt', Option.some.injEq] at hentry'
  rw [hentry, hentry']
  rw [hknown] at hin hout
  exact hordered.ext hordered' (fun v => (hin v).trans (hin' v).symm)
    fun v => (hout v).trans (hout' v).symm

end

/-! ## All sweeps -/

/-- The table in which nothing is known of any block. -/
def unknown (count : Nat) : Array Liveness := Array.replicate count default

/-- What is known after so many sweeps. -/
def swept (blocks : List LiveBlock) (count : Nat) : Array Liveness :=
  (sweep blocks)^[count] (unknown blocks.length)

theorem getD_unknown (count position : Nat) :
  (unknown count).getD position default = default
  := by
  unfold unknown
  rw [Array.getD_eq_getD_getElem?, Array.getElem?_replicate]
  split <;> rfl

theorem not_isIn_unknown (count position : Nat) (v : VReg) :
  ¬IsIn (unknown count) position v
  := by
  rw [IsIn, getD_unknown]
  exact List.not_mem_nil

section

variable {blocks : List LiveBlock}

theorem swept_succ (blocks : List LiveBlock) (count : Nat) :
  swept blocks (count + 1) = sweep blocks (swept blocks count)
  := Function.iterate_succ_apply' ..

theorem isJustified_swept (blocks : List LiveBlock) (count : Nat) :
  IsJustified blocks (swept blocks count)
  := by
  induction count with
  | zero =>
    refine ⟨Array.size_replicate, fun position v hv => ?_⟩
    exact absurd hv (not_isIn_unknown _ _ _)
  | succ count ih =>
    rw [swept_succ]
    exact ih.sweep.1

theorem inOrder_swept (hreads : ReadInOrder blocks) (count : Nat) :
  InOrder (swept blocks count)
  := by
  induction count with
  | zero =>
    intro position
    rw [swept, Function.iterate_zero, id, getD_unknown]
    exact ⟨.nil, .nil⟩
  | succ count ih =>
    rw [swept_succ]
    exact ih.sweep hreads

theorem grows_swept (blocks : List LiveBlock) (count : Nat) :
  Grows (swept blocks count) (swept blocks (count + 1))
  := by
  rw [swept_succ]
  exact (isJustified_swept blocks count).sweep.2

/-- The positions of the blocks at whose starts a register is found live in so many sweeps. -/
def found (blocks : List LiveBlock) (v : VReg) (count : Nat) : Finset Nat :=
  (Finset.range blocks.length).filter fun position =>
    v ∈ ((swept blocks count).getD position default).liveIn

theorem mem_found {v : VReg} {count position : Nat} :
  position ∈ found blocks v count ↔ IsIn (swept blocks count) position v
  := by
  rw [found, Finset.mem_filter, Finset.mem_range]
  refine ⟨fun h => h.2, fun h => ⟨?_, h⟩⟩
  obtain ⟨b, hb, -⟩ := (isJustified_swept blocks count).needed position v h
  exact (List.getElem?_eq_some_iff.mp hb).1

theorem found_subset (blocks : List LiveBlock) (v : VReg) (count : Nat) :
  found blocks v count ⊆ found blocks v (count + 1)
  := by
  intro position h
  rw [mem_found] at h ⊢
  exact grows_swept blocks count position v h

/-- If a sweep finds a register at no further block, then neither does the next one. -/
theorem found_succ_eq {v : VReg} {count : Nat}
    (h : found blocks v (count + 1) = found blocks v count) :
  found blocks v (count + 2) = found blocks v (count + 1)
  := by
  apply Finset.Subset.antisymm
  · intro position hmem
    rw [mem_found, swept_succ] at hmem
    -- every block that needs the register is known already, whatever else may be found
    have hclosed : ∀ position b w, blocks[position]? = some b →
        b.Needs (fun next w => w = v → next ∈ found blocks v (count + 1)) w →
        w = v → position ∈ found blocks v (count + 1) := by
      rintro position b w hb hneeds rfl
      rw [mem_found, swept_succ]
      apply (isJustified_swept blocks count).isIn_sweep hb
      rcases hneeds with hread | ⟨hwrite, next, hnext, hfound⟩
      · exact .inl hread
      · rw [h] at hfound
        exact .inr ⟨hwrite, next, hnext, mem_found.mp (hfound rfl)⟩
    refine (isJustified_swept blocks (count + 1)).isIn_foldr_of_closed
      (fun _ => getElem?_of_mem_zipIdx) hclosed ?_ hmem rfl
    rintro position w hw rfl
    exact mem_found.mpr hw
  · exact found_subset blocks v (count + 1)

/-- Each sweep finds a further block, or the sweeps have come to an end. -/
theorem found_eq_or_le (blocks : List LiveBlock) (v : VReg) (count : Nat) :
  found blocks v (count + 1) = found blocks v count
    ∨ count + 1 ≤ (found blocks v (count + 1)).card
  := by
  have hlt : ∀ count, found blocks v (count + 1) ≠ found blocks v count →
      (found blocks v count).card < (found blocks v (count + 1)).card := by
    intro count hne
    apply Finset.card_lt_card
    exact Finset.ssubset_iff_subset_ne.mpr ⟨found_subset blocks v count, Ne.symm hne⟩
  induction count with
  | zero =>
    rw [or_iff_not_imp_left]
    intro hne
    exact Nat.lt_of_le_of_lt (Nat.zero_le _) (hlt 0 hne)
  | succ count ih =>
    rw [or_iff_not_imp_left]
    intro hne
    rcases ih with ih | ih
    · exact absurd (found_succ_eq ih) hne
    · exact Nat.lt_of_le_of_lt ih (hlt (count + 1) hne)

theorem found_length (blocks : List LiveBlock) (v : VReg) :
  found blocks v (blocks.length + 1) = found blocks v blocks.length
  := by
  rcases found_eq_or_le blocks v blocks.length with h | h
  · exact h
  · have hcard := Finset.card_filter_le (Finset.range blocks.length) fun position =>
      v ∈ ((swept blocks (blocks.length + 1)).getD position default).liveIn
    rw [Finset.card_range] at hcard
    unfold found at h
    omega

/-- After as many sweeps as there are blocks nothing new is found, and one later nothing changes. -/
theorem sweep_swept_length (hreads : ReadInOrder blocks) :
  sweep blocks (swept blocks (blocks.length + 1)) = swept blocks (blocks.length + 1)
  := by
  rw [swept_succ]
  apply (isJustified_swept blocks _).sweep_sweep (inOrder_swept hreads _) hreads
  intro position v hv
  rw [← swept_succ, ← mem_found, found_length] at hv
  exact mem_found.mp hv

/-- Settling stops after some sweeps, at the last one or when nothing changes. -/
theorem settle_swept (blocks : List LiveBlock) (left count : Nat) :
  ∃ last ≤ count + left, settle blocks left (swept blocks count) = swept blocks last
    ∧ (last = count + left ∨ sweep blocks (swept blocks last) = swept blocks last)
  := by
  induction left generalizing count with
  | zero => exact ⟨count, le_rfl, rfl, .inl rfl⟩
  | succ left ih =>
    rw [settle]
    split
    · next h => exact ⟨count, Nat.le_add_right .., rfl, .inr h⟩
    · obtain ⟨last, hle, hlast, hend⟩ := ih (count + 1)
      rw [swept_succ] at hlast
      rw [Nat.add_assoc, Nat.add_comm 1 left] at hle hend
      exact ⟨last, hle, hlast, hend⟩

end

/-! ## The solution -/

/-- The table that settling ends with. -/
def settled (blocks : List SelectedBlock) : Array Liveness :=
  settle (liveBlocks blocks) (blocks.length + 1) (unknown blocks.length)

theorem length_liveBlocks (blocks : List SelectedBlock) :
  (liveBlocks blocks).length = blocks.length
  := by
  simp [liveBlocks]

theorem readInOrder_liveBlocks (blocks : List SelectedBlock) :
  ReadInOrder (liveBlocks blocks)
  := by
  intro b hb
  obtain ⟨block, -, rfl⟩ := List.mem_map.mp hb
  exact pairwise_eraseReps (List.pairwise_mergeSort' (· ≤ ·) block.effects.reads)

/-- The sweeps come to an end: the table is that of some sweep, and the next one changes nothing. -/
theorem exists_swept (blocks : List SelectedBlock) :
  ∃ count ≤ blocks.length + 1, settled blocks = swept (liveBlocks blocks) count
    ∧ sweep (liveBlocks blocks) (settled blocks) = settled blocks
  := by
  have hstart : unknown blocks.length = swept (liveBlocks blocks) 0 := by
    rw [swept, length_liveBlocks]
    rfl
  obtain ⟨last, hle, hlast, hend⟩ := settle_swept (liveBlocks blocks) (blocks.length + 1) 0
  rw [Nat.zero_add] at hle
  refine ⟨last, hle, by rw [settled, hstart, hlast], ?_⟩
  rw [settled, hstart, hlast]
  rcases hend with rfl | hend
  · rw [Nat.zero_add, ← length_liveBlocks]
    exact sweep_swept_length (readInOrder_liveBlocks blocks)
  · exact hend

theorem isJustified_settled (blocks : List SelectedBlock) :
  IsJustified (liveBlocks blocks) (settled blocks)
  := by
  obtain ⟨count, -, hcount, -⟩ := exists_swept blocks
  rw [hcount]
  exact isJustified_swept _ count

/-- The table is a solution: each block has what it needs. -/
theorem mem_settled {b : LiveBlock} (hb : (liveBlocks blocks)[position]? = some b) :
  ∃ live, (settled blocks)[position]? = some live
    ∧ (∀ v, v ∈ live.liveIn ↔ b.Needs (IsIn (settled blocks)) v)
    ∧ ∀ v, v ∈ live.liveOut ↔ ∃ next ∈ b.successors, IsIn (settled blocks) next v
  := by
  obtain ⟨-, -, -, hend⟩ := exists_swept blocks
  have hsame : Grows (sweep (liveBlocks blocks) (settled blocks)) (settled blocks) := by
    rw [hend]
    exact .refl _
  have hswept := (isJustified_settled blocks).mem_swept hsame hb
  rwa [hend] at hswept

/-- The positions of the successors of a block. -/
def SelectedBlock.nextPositions (b : SelectedBlock) (blocks : List SelectedBlock) : List Nat :=
  b.control.successors.map (blocks.map (·.id)).idxOf

theorem getElem?_liveBlocks (blocks : List SelectedBlock) (position : Nat) :
  (liveBlocks blocks)[position]? = (blocks[position]?).map fun b =>
    ⟨b.effects.reads.mergeSort.eraseReps, b.effects.writes, b.nextPositions blocks⟩
  := by
  simp [liveBlocks, SelectedBlock.nextPositions]

/-- What a block needs, by its steps. -/
theorem SelectedBlock.needs_iff {positions : List Nat} {v : VReg} :
  LiveBlock.Needs ⟨b.effects.reads.mergeSort.eraseReps, b.effects.writes, positions⟩ P v
    ↔ LiveBefore (fun w => ∃ next ∈ positions, P next w) b.accesses v
  := by
  rw [LiveBlock.Needs, mem_eraseReps, List.mem_mergeSort, b.liveBefore_accesses]

/-- The register is live at the start of the block at a position. -/
def LiveIn (blocks : List SelectedBlock) (position : Nat) (v : VReg) : Prop :=
  IsIn (settled blocks) position v

/-- The register is live at the end of a block. -/
def LiveOut (blocks : List SelectedBlock) (b : SelectedBlock) (v : VReg) : Prop :=
  ∃ next ∈ b.nextPositions blocks, LiveIn blocks next v

/-- The liveness of the block at a position. -/
theorem getElem?_settled (hb : blocks[position]? = some b) :
  ∃ live, (settled blocks)[position]? = some live
    ∧ (∀ v, v ∈ live.liveIn ↔ LiveBefore (LiveOut blocks b) b.accesses v)
    ∧ ∀ v, v ∈ live.liveOut ↔ LiveOut blocks b v
  := by
  have hlive : (liveBlocks blocks)[position]?
      = some ⟨b.effects.reads.mergeSort.eraseReps, b.effects.writes, b.nextPositions blocks⟩ := by
    rw [getElem?_liveBlocks, hb]
    rfl
  obtain ⟨live, hentry, hin, hout⟩ := mem_settled hlive
  exact ⟨live, hentry, fun v => (hin v).trans SelectedBlock.needs_iff, hout⟩

theorem liveIn_iff {v : VReg} :
  LiveIn blocks position v
    ↔ ∃ b, blocks[position]? = some b ∧ LiveBefore (LiveOut blocks b) b.accesses v
  := by
  rw [LiveIn, IsIn, Array.getD_eq_getD_getElem?]
  cases hb : blocks[position]? with
  | none =>
    have hnone : (settled blocks)[position]? = none := by
      rw [List.getElem?_eq_none_iff] at hb
      rw [Array.getElem?_eq_none_iff, (isJustified_settled blocks).size, length_liveBlocks]
      exact hb
    rw [hnone]
    simp only [Option.getD_none, reduceCtorEq, false_and, exists_false, iff_false]
    exact List.not_mem_nil
  | some b =>
    obtain ⟨live, hentry, hin, -⟩ := getElem?_settled hb
    rw [hentry]
    simpa using hin v

/-- The solution is the least one. -/
theorem liveIn_of_closed
    (h : ∀ position b v, blocks[position]? = some b →
      LiveBefore (fun w => ∃ next ∈ b.nextPositions blocks, P next w) b.accesses v → P position v)
    {v : VReg} (hlive : LiveIn blocks position v) :
  P position v
  := by
  obtain ⟨count, -, hcount, -⟩ := exists_swept blocks
  rw [LiveIn, hcount] at hlive
  clear hcount
  have hclosed : ∀ position b v, (liveBlocks blocks)[position]? = some b → b.Needs P v →
      P position v := by
    intro position b v hb hneeds
    rw [getElem?_liveBlocks, Option.map_eq_some_iff] at hb
    obtain ⟨block, hblock, rfl⟩ := hb
    exact h position block v hblock (SelectedBlock.needs_iff.mp hneeds)
  induction count generalizing position v with
  | zero => exact absurd hlive (not_isIn_unknown _ _ _)
  | succ count ih =>
    rw [swept_succ] at hlive
    exact (isJustified_swept _ count).isIn_foldr_of_closed (fun _ => getElem?_of_mem_zipIdx) hclosed
      (fun _ _ => ih) hlive

theorem toArray_liveness (blocks : List SelectedBlock) :
  (liveness blocks).toArray = settled blocks
  := Array.toArray_toList

theorem length_liveness (blocks : List SelectedBlock) :
  (liveness blocks).length = blocks.length
  := by
  rw [← List.size_toArray, toArray_liveness, (isJustified_settled blocks).size, length_liveBlocks]

/-- The liveness of the block at a position. -/
theorem getElem?_liveness (blocks : List SelectedBlock) (position : Nat) :
  ∃ liveIn liveOut, (liveness blocks)[position]? = (blocks[position]?).map (fun _ => ⟨liveIn, liveOut⟩)
    ∧ ∀ b, blocks[position]? = some b →
      (∀ v, v ∈ liveIn ↔ LiveIn blocks position v) ∧ ∀ v, v ∈ liveOut ↔ LiveOut blocks b v
  := by
  have hget : (liveness blocks)[position]? = (settled blocks)[position]? := by
    rw [← List.getElem?_toArray, toArray_liveness]
  cases hb : blocks[position]? with
  | none =>
    refine ⟨[], [], ?_, by simp⟩
    rw [List.getElem?_eq_none_iff] at hb
    rw [Option.map_none, List.getElem?_eq_none_iff, length_liveness]
    exact hb
  | some b =>
    obtain ⟨live, hentry, hin, hout⟩ := getElem?_settled hb
    refine ⟨live.liveIn, live.liveOut, hget.trans hentry, ?_⟩
    intro b' heq
    obtain rfl : b = b' := Option.some.inj heq
    refine ⟨fun v => ?_, hout⟩
    rw [hin, liveIn_iff, hb]
    simp


/-! ## Paths -/

/-- A step reads a register, and no step before it writes it. -/
def ReadFirst (v : VReg) (steps : List Access) : Prop :=
  ∃ before step after, steps = before ++ step :: after ∧ v ∈ step.uses
    ∧ ∀ earlier ∈ before, v ∉ earlier.defs

theorem readFirst_cons {v : VReg} {step : Access} {rest : List Access} :
  ReadFirst v (step :: rest) ↔ v ∈ step.uses ∨ (v ∉ step.defs ∧ ReadFirst v rest)
  := by
  constructor
  · rintro ⟨before, reader, after, heq, hread, hearlier⟩
    cases before with
    | nil =>
      obtain ⟨rfl, rfl⟩ := List.cons.inj heq
      exact .inl hread
    | cons first before =>
      obtain ⟨rfl, rfl⟩ := List.cons.inj heq
      rw [List.forall_mem_cons] at hearlier
      exact .inr ⟨hearlier.1, before, reader, after, rfl, hread, hearlier.2⟩
  · rintro (hread | ⟨hwrite, before, reader, after, rfl, hread, hearlier⟩)
    · exact ⟨[], step, rest, rfl, hread, by simp⟩
    · exact ⟨step :: before, reader, after, rfl, hread, List.forall_mem_cons.mpr ⟨hwrite, hearlier⟩⟩

theorem readFirst_append {v : VReg} {steps rest : List Access} :
  ReadFirst v (steps ++ rest) ↔ LiveBefore (fun w => ReadFirst w rest) steps v
  := by
  induction steps with
  | nil => rfl
  | cons step steps ih => rw [List.cons_append, readFirst_cons, ih, LiveBefore]

/-- Control may go from a block to another one. -/
def LeadsTo (blocks : List SelectedBlock) (b next : SelectedBlock) : Prop :=
  next ∈ blocks ∧ next.id ∈ b.control.successors

/-- Some path from the start of a block reads a register before the path writes it. -/
def ReadOnPath (blocks : List SelectedBlock) (b : SelectedBlock) (v : VReg) : Prop :=
  ∃ path, (b :: path).IsChain (LeadsTo blocks)
    ∧ ReadFirst v ((b :: path).flatMap SelectedBlock.accesses)

/-- A path ends in the first block or goes on to a next one. -/
theorem ReadOnPath.of_liveBefore {v : VReg}
    (h : LiveBefore (fun w => ∃ next, LeadsTo blocks b next ∧ ReadOnPath blocks next w) b.accesses v) :
  ReadOnPath blocks b v
  := by
  -- unless the register is live at the end, the block itself reads it
  by_cases hlive : ∃ next, LeadsTo blocks b next ∧ ReadOnPath blocks next v
  · obtain ⟨next, hnext, path, hpath, hread⟩ := hlive
    refine ⟨next :: path, List.isChain_cons_cons.mpr ⟨hnext, hpath⟩, ?_⟩
    rw [List.flatMap_cons, readFirst_append]
    exact h.mono fun _ => hread
  · refine ⟨[], List.isChain_singleton b, ?_⟩
    rw [List.flatMap_cons, readFirst_append]
    exact h.mono fun h => absurd h hlive

/-- The block at a next position is one to which control may go. -/
theorem leadsTo_of_nextPositions (hposition : position ∈ b.nextPositions blocks)
    (hnext : blocks[position]? = some next) :
  LeadsTo blocks b next
  := by
  obtain ⟨target, htarget, rfl⟩ := List.mem_map.mp hposition
  refine ⟨List.mem_of_getElem? hnext, ?_⟩
  have hid : (blocks.map (·.id))[(blocks.map (·.id)).idxOf target]? = some next.id := by
    rw [List.getElem?_map, hnext]
    rfl
  obtain ⟨hlt, hget⟩ := List.getElem?_eq_some_iff.mp hid
  rw [List.getElem_idxOf] at hget
  exact hget ▸ htarget

theorem mem_nextPositions (hids : (blocks.map (·.id)).Nodup) (hnext : blocks[position]? = some next)
    (hid : next.id ∈ b.control.successors) :
  position ∈ b.nextPositions blocks
  := by
  obtain ⟨hlt, rfl⟩ := List.getElem?_eq_some_iff.mp hnext
  apply List.mem_map.mpr
  refine ⟨_, hid, ?_⟩
  have hidx := hids.idxOf_getElem position (by rwa [List.length_map])
  rwa [List.getElem_map] at hidx

/-- A register is live where some path reads it before it writes it. -/
theorem liveIn_iff_readOnPath (hids : (blocks.map (·.id)).Nodup) (hb : blocks[position]? = some b) {v : VReg} :
  LiveIn blocks position v ↔ ReadOnPath blocks b v
  := by
  constructor
  · intro hlive
    obtain ⟨b', hb', hread⟩ : ∃ b', blocks[position]? = some b' ∧ ReadOnPath blocks b' v := by
      apply liveIn_of_closed _ hlive
      intro position b v hb hbefore
      refine ⟨b, hb, .of_liveBefore (hbefore.mono ?_)⟩
      rintro ⟨nextPosition, hmem, next, hnext, hread⟩
      exact ⟨next, leadsTo_of_nextPositions hmem hnext, hread⟩
    rw [hb] at hb'
    exact Option.some.inj hb' ▸ hread
  · rintro ⟨path, hpath, hread⟩
    induction path generalizing position b with
    | nil =>
      rw [List.flatMap_cons, readFirst_append] at hread
      apply liveIn_iff.mpr
      refine ⟨b, hb, hread.mono ?_⟩
      rintro ⟨before, step, after, heq, -⟩
      simp at heq
    | cons next path ih =>
      rw [List.isChain_cons_cons] at hpath
      rw [List.flatMap_cons, readFirst_append] at hread
      obtain ⟨nextPosition, hnext⟩ := List.mem_iff_getElem?.mp hpath.1.1
      apply liveIn_iff.mpr
      refine ⟨b, hb, hread.mono fun hread => ?_⟩
      exact ⟨nextPosition, mem_nextPositions hids hnext hpath.1.2, ih hnext hpath.2 hread⟩

/-- Liveness is exact. The sweeps end with a table that the next sweep would leave as it is. Live at the
start of a block are the registers that some path from there reads before it writes them, and live at
its end those that are live at the start of a successor. -/
theorem liveness_exact (blocks : List SelectedBlock) (hids : (blocks.map (·.id)).Nodup) :
  (∃ sweeps ≤ blocks.length + 1, (liveness blocks).toArray = swept (liveBlocks blocks) sweeps
      ∧ sweep (liveBlocks blocks) (liveness blocks).toArray = (liveness blocks).toArray)
    ∧ List.Forall₂ (fun b live =>
      (∀ v, v ∈ live.liveIn ↔ ReadOnPath blocks b v)
        ∧ ∀ v, v ∈ live.liveOut ↔ ∃ next live', (next, live') ∈ blocks.zip (liveness blocks)
          ∧ next.id ∈ b.control.successors ∧ v ∈ live'.liveIn)
      blocks (liveness blocks)
  := by
  have hentry : ∀ (position : Nat) b live, blocks[position]? = some b →
      (liveness blocks)[position]? = some live →
      (∀ v, v ∈ live.liveIn ↔ LiveIn blocks position v) ∧ ∀ v, v ∈ live.liveOut ↔ LiveOut blocks b v := by
    intro position b live hb hlive
    obtain ⟨liveIn, liveOut, hget, hmem⟩ := getElem?_liveness blocks position
    rw [hlive, hb, Option.map_some, Option.some.injEq] at hget
    exact hget ▸ hmem b hb
  constructor
  · rw [toArray_liveness]
    exact exists_swept blocks
  · rw [List.forall₂_iff_get]
    refine ⟨(length_liveness blocks).symm, fun position hlt hlt' => ?_⟩
    have hb := List.getElem?_eq_getElem hlt
    obtain ⟨hin, hout⟩ := hentry position _ _ hb (List.getElem?_eq_getElem hlt')
    refine ⟨fun v => (hin v).trans (liveIn_iff_readOnPath hids hb), fun v => (hout v).trans ?_⟩
    constructor
    · rintro ⟨nextPosition, hmem, hlive⟩
      obtain ⟨next, hnext, -⟩ := liveIn_iff.mp hlive
      have hlt : nextPosition < (liveness blocks).length := by
        rw [length_liveness]
        exact (List.getElem?_eq_some_iff.mp hnext).1
      have hnext' := List.getElem?_eq_getElem hlt
      refine ⟨next, (liveness blocks)[nextPosition], ?_,
        (leadsTo_of_nextPositions hmem hnext).2, ((hentry _ _ _ hnext hnext').1 v).mpr hlive⟩
      apply List.mem_of_getElem?
      exact List.getElem?_zip_eq_some.mpr ⟨hnext, hnext'⟩
    · rintro ⟨next, live', hzip, hid, hlive⟩
      obtain ⟨nextPosition, hget⟩ := List.mem_iff_getElem?.mp hzip
      obtain ⟨hnext, hnext'⟩ := List.getElem?_zip_eq_some.mp hget
      exact ⟨nextPosition, mem_nextPositions hids hnext hid, ((hentry _ _ _ hnext hnext').1 v).mp hlive⟩

/-- Takes steps down from ten, each as long as the first register says. -/
def countdown : List SelectedBlock :=
  [⟨0, [.move 1 (.imm 10)], [], .jump 1⟩,
   ⟨1, [.binary .sub 1 (.reg 1) (.reg 0)], [], .branch 1 1 2⟩,
   ⟨2, [], [], .ret (some (.reg 1))⟩]

/-- The length of the steps is live in front of the loop and all through it. -/
theorem readOnPath_countdown :
  (countdown.map (·.id)).Nodup
    ∧ List.Forall₂ (fun b live => ∀ v, v ∈ live ↔ ReadOnPath countdown b v) countdown [[0], [0, 1], [1]]
  := by
  have hids : (countdown.map (·.id)).Nodup := by decide
  obtain ⟨-, hexact⟩ := liveness_exact countdown hids
  have hlive : (liveness countdown).map (·.liveIn) = [[0], [0, 1], [1]] := by cbv
  refine ⟨hids, ?_⟩
  rw [← hlive, List.forall₂_map_right_iff]
  exact hexact.imp fun _ _ h => h.1

end FormCompiler.Machine
