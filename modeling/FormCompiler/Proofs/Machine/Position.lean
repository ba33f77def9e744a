import FormCompiler.Proofs.Machine.Scan
import FormCompiler.Proofs.Flow.Verify
import FormCompiler.Machine.Allocate

/-!
# Registers are held while they are live

A block has a position for each instruction, one for its moves, if there are any, and one for its
control. A register that is live before one of these steps has occurred at that position or earlier,
or was live at the start of the block, and it occurs at that position or later, or is live at the end
of the block. So it is held at the position.

Each virtual register that is held has a place: a register of the target, or words of the frame
behind those that the code uses itself. Registers that are held at one position have different
places, no place is a scratch register, and the places in the frame do not overlap.
-/

namespace FormCompiler.Machine

open FormCompiler.Flow

/-! ## Occurrences -/

/-- The number of positions of blocks. -/
def positionCount (blocks : List SelectedBlock) : Nat := total (blocks.map (·.steps.length))

/-- The position of the first step of the block with a number. -/
def firstPosition (f : SelectedFunction) (k : Nat) : Nat := positionCount (f.blocks.take k)

/-- The occurrences of the block with a number are found. -/
theorem mem_occurrencesFrom
    {blocks : List (SelectedBlock × Liveness)} {position k : Nat} {b : SelectedBlock}
    {live : Liveness} (hget : blocks[k]? = some (b, live)) {v : VReg} {q : Nat}
    (hmem : (∃ j regs, b.steps[j]? = some regs ∧ v ∈ regs ∧ q = j)
      ∨ (v ∈ live.liveIn ∧ q = 0) ∨ (v ∈ live.liveOut ∧ q = b.steps.length - 1)) :
  (v, position + positionCount ((blocks.take k).map (·.1)) + q) ∈ occurrencesFrom position blocks
  := by
  induction blocks generalizing position k with
  | nil => simp at hget
  | cons first blocks ih =>
    obtain ⟨b', live'⟩ := first
    rw [occurrencesFrom]
    cases k with
    | zero =>
      obtain ⟨rfl, rfl⟩ : b' = b ∧ live' = live := by simpa using hget
      simp only [List.take_zero, List.map_nil, positionCount, total, Nat.add_zero, List.mem_append,
        List.mem_flatMap, List.mem_map, Prod.mk.injEq]
      rcases hmem with ⟨j, regs, hj, hv, rfl⟩ | ⟨hv, rfl⟩ | ⟨hv, rfl⟩
      · refine .inl (.inl (.inl ⟨(regs, position + q), ?_, v, hv, rfl, rfl⟩))
        exact List.mk_add_mem_zipIdx_iff_getElem?.mpr hj
      · exact .inl (.inl (.inr ⟨v, hv, rfl, rfl⟩))
      · exact .inl (.inr ⟨v, hv, rfl, rfl⟩)
    | succ k =>
      have hrest := @ih (position + b'.steps.length) k (by simpa using hget)
      apply List.mem_append_right
      simp only [List.take_succ_cons, List.map_cons, positionCount, total] at hrest ⊢
      rwa [Nat.add_assoc position] at hrest

section

variable {f : SelectedFunction} {k : Nat} {b : SelectedBlock}

theorem mem_occurrences
    (hb : f.blocks[k]? = some b) {v : VReg} {q : Nat}
    (hmem : (∃ j regs, b.steps[j]? = some regs ∧ v ∈ regs ∧ q = j)
      ∨ (LiveIn f.blocks k v ∧ q = 0) ∨ (LiveOut f.blocks b v ∧ q = b.steps.length - 1)) :
  (v, firstPosition f k + q) ∈ occurrences f
  := by
  obtain ⟨liveIn, liveOut, hlive, hspec⟩ := getElem?_liveness f.blocks k
  obtain ⟨hin, hout⟩ := hspec b hb
  have hget : (f.blocks.zip (liveness f.blocks))[k]? = some (b, ⟨liveIn, liveOut⟩) := by
    rw [List.getElem?_zip_eq_some]
    exact ⟨hb, by rw [hlive, hb]; rfl⟩
  have hfirst : ((f.blocks.zip (liveness f.blocks)).take k).map (·.1) = f.blocks.take k := by
    rw [List.map_take, List.map_fst_zip (Nat.le_of_eq (length_liveness f.blocks).symm)]
  have hfound := @mem_occurrencesFrom _ 0 k b _ hget v q (by rwa [hin, hout])
  rw [hfirst, Nat.zero_add] at hfound
  exact List.mem_append_right _ hfound

/-- All registers of a function have a number of words. -/
structure SelectedFunction.IsBounded (f : SelectedFunction) : Prop where
  params : ∀ v ∈ f.params, v < f.regWords.length
  accesses : ∀ b ∈ f.blocks, ∀ step ∈ b.accesses, ∀ v ∈ step.uses ++ step.defs,
    v < f.regWords.length

/-- What is live was read somewhere. -/
theorem lt_of_liveBefore
    (h : f.IsBounded) {live : VReg → Prop} (hlive : ∀ v, live v → v < f.regWords.length)
    {steps : List Access} (hsteps : ∀ step ∈ steps, ∃ b ∈ f.blocks, step ∈ b.accesses) {v : VReg}
    (hv : LiveBefore live steps v) :
  v < f.regWords.length
  := by
  induction steps with
  | nil => exact hlive v hv
  | cons step rest ih =>
    rcases hv with hv | ⟨-, hv⟩
    · obtain ⟨b, hb, hstep⟩ := hsteps step (by simp)
      exact h.accesses b hb step hstep v (List.mem_append_left _ hv)
    · exact ih (fun s hs => hsteps s (List.mem_cons_of_mem _ hs)) hv

theorem lt_of_liveIn (h : f.IsBounded) {v : VReg} (hv : LiveIn f.blocks k v) :
  v < f.regWords.length
  := by
  refine liveIn_of_closed (P := fun _ v => v < f.regWords.length) ?_ hv
  intro position b v hb hlive
  apply lt_of_liveBefore h _ (fun step hstep => ⟨b, List.mem_of_getElem? hb, hstep⟩) hlive
  rintro w ⟨next, -, hw⟩
  exact hw

theorem lt_of_liveOut (h : f.IsBounded) {v : VReg} (hv : LiveOut f.blocks b v) :
  v < f.regWords.length
  := by
  obtain ⟨next, -, hv⟩ := hv
  exact lt_of_liveIn h hv

/-! ## Steps -/

theorem length_steps (b : SelectedBlock) :
  b.body.length + (if b.moves = [] then 0 else 1) + 1 = b.steps.length
  := by
  unfold SelectedBlock.steps
  by_cases h : b.moves = [] <;> simp [h]

theorem getElem?_steps_body {j : Nat} {i : Instr VReg} (hi : b.body[j]? = some i) :
  b.steps[j]? = some i.regs
  := by
  obtain ⟨hlt, -⟩ := List.getElem?_eq_some_iff.mp hi
  unfold SelectedBlock.steps
  rw [List.append_assoc, List.getElem?_append_left (by simpa using hlt), List.getElem?_map, hi]
  rfl

theorem getElem?_steps_moves (h : b.moves ≠ []) :
  b.steps[b.body.length]? = some (moveUses b.moves ++ b.moves.map (·.1))
  := by
  unfold SelectedBlock.steps
  rw [List.append_assoc, List.getElem?_append_right (by simp)]
  simp [h]

theorem getElem?_steps_control (b : SelectedBlock) :
  b.steps[b.steps.length - 1]? = some b.control.uses
  := by
  unfold SelectedBlock.steps
  rw [← List.getLast?_eq_getElem?]
  simp

/-- The steps from an instruction on, or from the moves on. -/
def SelectedBlock.accessesFrom (b : SelectedBlock) (j : Nat) : List Access := b.accesses.drop j

/-- The last step of a block. -/
def SelectedBlock.last (b : SelectedBlock) : Access := ⟨b.control.uses, []⟩

theorem accessesFrom_body {j : Nat} {i : Instr VReg} (hi : b.body[j]? = some i) :
  b.accessesFrom j = ⟨i.uses, i.def?.toList⟩ :: b.accessesFrom (j + 1)
  := by
  obtain ⟨hlt, hget⟩ := List.getElem?_eq_some_iff.mp hi
  unfold SelectedBlock.accessesFrom
  rw [List.drop_eq_getElem_cons (by simp [SelectedBlock.accesses]; omega)]
  congr 1
  simp only [SelectedBlock.accesses]
  rw [List.getElem_append_left (by simpa using hlt), List.getElem_map, hget]

theorem accessesFrom_moves (b : SelectedBlock) :
  b.accessesFrom b.body.length = [⟨moveUses b.moves, b.moves.map (·.1)⟩, b.last]
  := by
  simp [SelectedBlock.accessesFrom, SelectedBlock.accesses, SelectedBlock.last]

/-! ## Where live registers are held -/

theorem held_of_step
    (hb : f.blocks[k]? = some b) {j : Nat} {regs : List VReg}
    (hj : b.steps[j]? = some regs) {v : VReg} (hv : v ∈ regs) (hlt : v < f.regWords.length) :
  Held f v (firstPosition f k + j)
  := held_of_mem_occurrences (mem_occurrences hb (.inl ⟨j, regs, hj, hv, rfl⟩)) hlt

/-- A register that an instruction reads or writes is held there. -/
theorem held_of_mem_regs
    (h : f.IsBounded) (hb : f.blocks[k]? = some b) {j : Nat} {i : Instr VReg}
    (hi : b.body[j]? = some i) {v : VReg} (hv : v ∈ i.regs) :
  Held f v (firstPosition f k + j)
  := by
  apply held_of_step hb (getElem?_steps_body hi) hv
  refine h.accesses b (List.mem_of_getElem? hb) ⟨i.uses, i.def?.toList⟩ ?_ v hv
  have hmem := List.mem_map_of_mem (f := fun i : Instr VReg => (⟨i.uses, i.def?.toList⟩ : Access))
    (List.mem_of_getElem? hi)
  exact List.mem_append_left _ hmem

/-- A register that the moves of a block read or write is held there. -/
theorem held_of_mem_moves
    (h : f.IsBounded) (hb : f.blocks[k]? = some b) {v : VReg}
    (hv : v ∈ moveUses b.moves ++ b.moves.map (·.1)) :
  Held f v (firstPosition f k + b.body.length)
  := by
  have hne : b.moves ≠ [] := by
    rintro heq
    simp [heq, moveUses] at hv
  apply held_of_step hb (getElem?_steps_moves hne) hv
  refine h.accesses b (List.mem_of_getElem? hb) ⟨moveUses b.moves, b.moves.map (·.1)⟩ ?_ v hv
  simp [SelectedBlock.accesses]

/-- A register that the control of a block reads is held there. -/
theorem held_of_mem_control
    (h : f.IsBounded) (hb : f.blocks[k]? = some b) {v : VReg} (hv : v ∈ b.control.uses) :
  Held f v (firstPosition f k + (b.steps.length - 1))
  := by
  apply held_of_step hb (getElem?_steps_control b) hv
  refine h.accesses b (List.mem_of_getElem? hb) b.last ?_ v (List.mem_append_left _ hv)
  simp [SelectedBlock.accesses, SelectedBlock.last]

theorem held_of_liveIn (h : f.IsBounded) (hb : f.blocks[k]? = some b) {v : VReg}
    (hv : LiveIn f.blocks k v) :
  Held f v (firstPosition f k)
  := held_of_mem_occurrences (mem_occurrences hb (.inr (.inl ⟨hv, rfl⟩))) (lt_of_liveIn h hv)

theorem held_of_liveOut (h : f.IsBounded) (hb : f.blocks[k]? = some b) {v : VReg}
    (hv : LiveOut f.blocks b v) :
  Held f v (firstPosition f k + (b.steps.length - 1))
  := held_of_mem_occurrences (mem_occurrences hb (.inr (.inr ⟨hv, rfl⟩))) (lt_of_liveOut h hv)

/-- A register that is live before the last step of a block is held at the moves or later. -/
theorem held_after_moves
    (h : f.IsBounded) (hb : f.blocks[k]? = some b) {v : VReg}
    (hv : LiveBefore (LiveOut f.blocks b) [b.last] v) :
  ∃ q, firstPosition f k + b.body.length ≤ q ∧ Held f v q
  := by
  have hlength := length_steps b
  refine ⟨firstPosition f k + (b.steps.length - 1), by omega, ?_⟩
  rcases hv with hv | ⟨-, hv⟩
  · exact held_of_mem_control h hb hv
  · exact held_of_liveOut h hb hv

/-- A register that is live before a step is held there or later. -/
theorem held_later
    (h : f.IsBounded) (hb : f.blocks[k]? = some b) {j : Nat} (hj : j ≤ b.body.length) {v : VReg}
    (hv : LiveBefore (LiveOut f.blocks b) (b.accessesFrom j) v) :
  ∃ q, firstPosition f k + j ≤ q ∧ Held f v q
  := by
  induction hj using Nat.decreasingInduction with
  | self =>
    rw [accessesFrom_moves] at hv
    rcases hv with hv | ⟨-, hv⟩
    · exact ⟨_, le_rfl, held_of_mem_moves h hb (List.mem_append_left _ hv)⟩
    · exact held_after_moves h hb hv
  | of_succ j hj ih =>
    have hi := List.getElem?_eq_getElem hj
    rw [accessesFrom_body hi] at hv
    rcases hv with hv | ⟨-, hv⟩
    · exact ⟨_, le_rfl, held_of_mem_regs h hb hi (List.mem_append_left _ hv)⟩
    · obtain ⟨q, hq, hheld⟩ := ih hv
      exact ⟨q, by omega, hheld⟩

/-- A register that is live before a step has been held there or earlier. -/
theorem held_earlier
    (h : f.IsBounded) (hb : f.blocks[k]? = some b) {j : Nat} (hj : j ≤ b.body.length) {v : VReg}
    (hv : LiveBefore (LiveOut f.blocks b) (b.accessesFrom j) v) :
  ∃ q, q ≤ firstPosition f k + j ∧ Held f v q
  := by
  induction j with
  | zero =>
    have hin : LiveIn f.blocks k v := liveIn_iff.mpr ⟨b, hb, hv⟩
    exact ⟨_, le_rfl, held_of_liveIn h hb hin⟩
  | succ j ih =>
    have hi := List.getElem?_eq_getElem (Nat.lt_of_succ_le hj)
    by_cases hdef : v ∈ (b.body[j].def?).toList
    · exact ⟨_, by omega, held_of_mem_regs h hb hi (List.mem_append_right _ hdef)⟩
    · have hbefore : LiveBefore (LiveOut f.blocks b) (b.accessesFrom j) v := by
        rw [accessesFrom_body hi]
        exact .inr ⟨hdef, hv⟩
      obtain ⟨q, hq, hheld⟩ := ih (by omega) hbefore
      exact ⟨q, by omega, hheld⟩

/-- A register that is live before and after an instruction is held there. -/
theorem held_through
    (h : f.IsBounded) (hb : f.blocks[k]? = some b) {j : Nat} {i : Instr VReg}
    (hi : b.body[j]? = some i) {v : VReg} (hdef : v ∉ i.def?.toList)
    (hv : LiveBefore (LiveOut f.blocks b) (b.accessesFrom (j + 1)) v) :
  Held f v (firstPosition f k + j)
  := by
  obtain ⟨hlt, -⟩ := List.getElem?_eq_some_iff.mp hi
  have hbefore : LiveBefore (LiveOut f.blocks b) (b.accessesFrom j) v := by
    rw [accessesFrom_body hi]
    exact .inr ⟨hdef, hv⟩
  obtain ⟨p, hp, hheld⟩ := held_earlier h hb (Nat.le_of_lt hlt) hbefore
  obtain ⟨q, hq, hheld'⟩ := held_later h hb (Nat.succ_le_of_lt hlt) hv
  exact hheld.between hheld' hp (by omega)

/-- A register that is live before and after the moves of a block is held there. -/
theorem held_through_moves
    (h : f.IsBounded) (hb : f.blocks[k]? = some b) {v : VReg} (hdef : v ∉ b.moves.map (·.1))
    (hv : LiveBefore (LiveOut f.blocks b) [b.last] v) :
  Held f v (firstPosition f k + b.body.length)
  := by
  have hbefore : LiveBefore (LiveOut f.blocks b) (b.accessesFrom b.body.length) v := by
    rw [accessesFrom_moves]
    exact .inr ⟨hdef, hv⟩
  obtain ⟨p, hp, hheld⟩ := held_earlier h hb le_rfl hbefore
  obtain ⟨q, hq, hheld'⟩ := held_after_moves h hb hv
  exact hheld.between hheld' hp hq

/-- The parameters of a function are held from the start on. -/
theorem held_of_mem_params (h : f.IsBounded) {v : VReg} (hv : v ∈ f.params) :
  Held f v 0
  := by
  apply held_of_mem_occurrences _ (h.params v hv)
  exact List.mem_append_left _ (List.mem_map.mpr ⟨v, hv, rfl⟩)

end

/-! ## Places of virtual registers -/

/-! ### The frame -/

/-- The number of bytes of places for some virtual registers. -/
def placeBytes (words : VReg → Nat) (vs : List VReg) : Nat :=
  total (vs.map fun v => words v * wordBytes)

/-- Places are given one after the other if they fit. -/
theorem placeSpills_eq
    {words : VReg → Nat} {vs : List VReg} {offset : Nat}
    (hfits : offset + placeBytes words vs ≤ maxOffset) :
  ∃ places, placeSpills words offset vs = some (places, offset + placeBytes words vs)
    ∧ places.map (·.1) = vs
    ∧ (∀ p ∈ places, offset ≤ p.2 ∧ p.2 + wordBytes * words p.1 ≤ offset + placeBytes words vs)
    ∧ places.Pairwise fun p q => p.2 + wordBytes * words p.1 ≤ q.2
  := by
  induction vs generalizing offset with
  | nil => exact ⟨[], rfl, rfl, by simp, by simp⟩
  | cons v vs ih =>
    have htotal : placeBytes words (v :: vs) = words v * wordBytes + placeBytes words vs := rfl
    rw [htotal] at hfits ⊢
    obtain ⟨places, hplaces, hvs, hin, happart⟩ := @ih (offset + words v * wordBytes) (by omega)
    have hmin : min (words v * wordBytes) maxOffset = words v * wordBytes := by omega
    have hcomm : wordBytes * words v = words v * wordBytes := Nat.mul_comm _ _
    refine ⟨(v, offset) :: places, ?_, ?_, ?_, ?_⟩
    · rw [placeSpills, hmin]
      simp only [guard, show offset + words v * wordBytes ≤ maxOffset by omega, if_true, hplaces,
        bind, Option.bind, pure]
      rw [Nat.add_assoc]
    · rw [List.map_cons, hvs]
    · intro p hp
      rcases List.mem_cons.mp hp with rfl | hp
      · simp only
        omega
      · have hbounds := hin p hp
        omega
    · rw [List.pairwise_cons]
      refine ⟨fun p hp => ?_, happart⟩
      have hbounds := hin p hp
      simp only
      omega

/-! ### Allocation -/

section

variable (target : Target) (f : SelectedFunction)

/-- The virtual registers that are given registers of the target. -/
def keptRegs : List (VReg × Reg) := scan target.allocatable (intervals f)

/-- The virtual registers that are kept in the frame. -/
def spilledRegs : List VReg :=
  (((intervals f).map (·.reg)).filter fun v => ((keptRegs target f).lookup v).isNone).mergeSort

/-- The frame, with the places of virtual registers, fits. -/
def FrameFits : Prop := f.frameSize + placeBytes f.words (spilledRegs target f) ≤ maxOffset

/-- Where the virtual registers are kept, given places in the frame. -/
def allocationWith (places : List (VReg × Nat)) : Allocation :=
  ⟨keptRegs target f, places, f.regWords, target.firstScratch, target.secondScratch⟩

end

/--
What the places of virtual registers satisfy: `held` says where a register is needed, and the places
in the frame lie between two offsets.
-/
structure Allocation.IsLayout (a : Allocation) (held : VReg → Nat → Prop) (low high : Nat) : Prop where
  scratch : a.firstScratch ≠ a.secondScratch
  reg_ne : ∀ v r, a.location v = .reg r → r ≠ a.firstScratch ∧ r ≠ a.secondScratch
  bounds : ∀ v p o, held v p → a.location v = .frame o →
    0 < a.words v ∧ low ≤ o ∧ o + wordBytes * a.words v ≤ high
  regs_apart : ∀ v w p r, held v p → held w p → a.location v = .reg r → a.location w = .reg r → v = w
  frames_apart : ∀ v w p q o o', held v p → held w q → v ≠ w → a.location v = .frame o →
    a.location w = .frame o' → o + wordBytes * a.words v ≤ o' ∨ o' + wordBytes * a.words w ≤ o

/-- A virtual register has been given a place. -/
def Allocation.HasPlace (a : Allocation) (v : VReg) : Prop :=
  (a.kept.lookup v).isSome ∨ (a.spilled.lookup v).isSome

section

variable {target : Target} {f : SelectedFunction} {places : List (VReg × Nat)}

theorem mem_spilledRegs {v : VReg} {p : Nat} (hheld : Held f v p)
    (hkept : (keptRegs target f).lookup v = none) :
  v ∈ spilledRegs target f
  := by
  obtain ⟨i, hi, rfl, -⟩ := hheld
  rw [spilledRegs, List.mem_mergeSort, List.mem_filter]
  exact ⟨List.mem_map_of_mem hi, by simp [hkept]⟩

theorem lookup_places
    (hplaces : places.map (·.1) = spilledRegs target f) {v : VReg} {p : Nat}
    (hheld : Held f v p) (hkept : (keptRegs target f).lookup v = none) :
  ∃ o, places.lookup v = some o
  := by
  have hmem := mem_spilledRegs hheld hkept
  rw [← hplaces] at hmem
  cases hlookup : places.lookup v with
  | some o => exact ⟨o, rfl⟩
  | none =>
    rw [List.lookup_eq_none_iff] at hlookup
    obtain ⟨q, hq, rfl⟩ := List.mem_map.mp hmem
    simpa using hlookup q hq

/-- A register that is held has a place. -/
theorem hasPlace_of_held
    (hplaces : places.map (·.1) = spilledRegs target f) {v : VReg} {p : Nat} (hheld : Held f v p) :
  (allocationWith target f places).HasPlace v
  := by
  cases hkept : (keptRegs target f).lookup v with
  | some r => exact .inl (by simp [allocationWith, hkept])
  | none =>
    obtain ⟨o, ho⟩ := lookup_places hplaces hheld hkept
    exact .inr (by simp [allocationWith, ho])

/-- Where a register is that is held. -/
theorem location_of_held
    (hplaces : places.map (·.1) = spilledRegs target f) {v : VReg} {p : Nat} (hheld : Held f v p) :
  (∃ r, (v, r) ∈ keptRegs target f ∧ (allocationWith target f places).location v = .reg r)
    ∨ ∃ o, (v, o) ∈ places ∧ v ∈ spilledRegs target f
      ∧ (allocationWith target f places).location v = .frame o
  := by
  unfold Allocation.location allocationWith
  simp only
  cases hkept : (keptRegs target f).lookup v with
  | some r => exact .inl ⟨r, mem_of_lookup_eq_some hkept, rfl⟩
  | none =>
    obtain ⟨o, ho⟩ := lookup_places hplaces hheld hkept
    refine .inr ⟨o, mem_of_lookup_eq_some ho, mem_spilledRegs hheld hkept, ?_⟩
    simp [ho]

theorem mem_keptRegs_of_location {v : VReg} {r : Reg}
    (h : (allocationWith target f places).location v = .reg r) :
  (v, r) ∈ keptRegs target f
  := by
  unfold Allocation.location allocationWith at h
  simp only at h
  split at h
  · next q hkept =>
    obtain rfl := Location.reg.inj h
    exact mem_of_lookup_eq_some hkept
  · exact absurd h (by simp)

theorem secondScratch_eq (hvalid : target.isValid = true)
    (hregs : target.registers ≤ Target.maxRegister) :
  target.secondScratch = target.allocatableCount + 1
  := by
  simp only [Target.isValid, Bool.and_eq_true, decide_eq_true_eq] at hvalid
  obtain ⟨hscratch, hlt⟩ := hvalid
  have hneeded : 2 ≤ target.scratchRegisters := hscratch
  apply Nat.min_eq_left
  unfold Target.allocatableCount
  omega

/-- The places that allocation gives are a layout. -/
theorem isLayout_allocationWith
    (hvalid : target.isValid = true) (hregs : target.registers ≤ Target.maxRegister)
    (hwords : ∀ v ∈ spilledRegs target f, 0 < f.words v) {low high : Nat}
    (hplaces : places.map (·.1) = spilledRegs target f)
    (hin : ∀ p ∈ places, low ≤ p.2 ∧ p.2 + wordBytes * f.words p.1 ≤ high)
    (hapart : places.Pairwise fun p q => p.2 + wordBytes * f.words p.1 ≤ q.2) :
  (allocationWith target f places).IsLayout (Held f) low high
  := by
  have hsecond := secondScratch_eq hvalid hregs
  constructor
  · simp only [allocationWith, hsecond, Target.firstScratch]
    exact (Nat.lt_succ_self _).ne
  · intro v r hlocation
    have hmem := scan_allocatable (mem_keptRegs_of_location hlocation)
    simp only [Target.allocatable, List.mem_range] at hmem
    simp only [allocationWith, hsecond, Target.firstScratch]
    exact ⟨hmem.ne, (Nat.lt_succ_of_lt hmem).ne⟩
  · intro v p o hheld hlocation
    rcases location_of_held hplaces hheld with ⟨r, -, hreg⟩ | ⟨o', hmem, hspilled, hframe⟩
    · rw [hreg] at hlocation
      contradiction
    · rw [hframe] at hlocation
      obtain rfl := Location.frame.inj hlocation
      exact ⟨hwords v hspilled, hin (v, o') hmem⟩
  · intro v w p r hv hw hlocation hlocation'
    exact scan_apart (mem_keptRegs_of_location hlocation) (mem_keptRegs_of_location hlocation') hv hw
  · intro v w p q o o' hv hw hne hlocation hlocation'
    rcases location_of_held hplaces hv with ⟨r, -, hreg⟩ | ⟨x, hmem, -, hframe⟩
    · rw [hreg] at hlocation
      contradiction
    rcases location_of_held hplaces hw with ⟨r, -, hreg⟩ | ⟨y, hmem', -, hframe'⟩
    · rw [hreg] at hlocation'
      contradiction
    rw [hframe] at hlocation
    rw [hframe'] at hlocation'
    obtain rfl := Location.frame.inj hlocation
    obtain rfl := Location.frame.inj hlocation'
    have hsymm : Std.Symm fun p q : VReg × Nat =>
        p.2 + wordBytes * f.words p.1 ≤ q.2 ∨ q.2 + wordBytes * f.words q.1 ≤ p.2 :=
      ⟨fun _ _ h => h.symm⟩
    have hall : places.Pairwise fun p q =>
        p.2 + wordBytes * f.words p.1 ≤ q.2 ∨ q.2 + wordBytes * f.words q.1 ≤ p.2 :=
      hapart.imp fun h => .inl h
    exact hall.forall hmem hmem' fun heq => hne (congrArg Prod.fst heq)

/-- What allocation makes of a function whose frame fits. -/
theorem allocate_eq (hfits : FrameFits target f) :
  ∃ places, places.map (·.1) = spilledRegs target f
    ∧ (∀ p ∈ places, f.frameSize ≤ p.2
        ∧ p.2 + wordBytes * f.words p.1 ≤ f.frameSize + placeBytes f.words (spilledRegs target f))
    ∧ (places.Pairwise fun p q => p.2 + wordBytes * f.words p.1 ≤ q.2)
    ∧ allocate target f = .ok
      ⟨f.name, f.params.map fun v => ((allocationWith target f places).location v).operand,
        (allocationWith target f places).blocks f.blocks,
        f.frameSize + placeBytes f.words (spilledRegs target f), (spilledRegs target f).length,
        ((keptRegs target f).map (·.2)).eraseDups.length⟩
  := by
  obtain ⟨places, hplaces, hvs, hin, hapart⟩ := placeSpills_eq hfits
  refine ⟨places, hvs, hin, hapart, ?_⟩
  unfold spilledRegs keptRegs at hplaces
  unfold allocate
  simp only [hplaces]
  rfl

end

end FormCompiler.Machine
