import FormCompiler.Proofs.Machine.Instruction

/-!
# Simultaneous moves, one after the other

`sequentialize` gives every destination the value that its source has in the beginning, and changes
nothing else but the two spare registers. A move that goes next overwrites nothing that is still to be
read. If there is none, then each destination is read by a move, so that the sources are the
destinations in another order; in particular no move still reads the register where a value was parked,
and another value can be parked there. Then the move that overwrites it can go next.
-/

namespace FormCompiler.Machine

/-! ## Locations -/

/-- What is kept at a location. -/
def Location.content (W : World) (t : State Reg) (ℓ : Location) : Lanes :=
  ℓ.operand.lanes W t.store.memory t.regs

/-- Two locations of so many words have nothing in common. -/
def Location.Apart : Location → Nat → Location → Nat → Prop
  | reg r, _, reg r', _ => r ≠ r'
  | frame o, n, frame o', n' => o + wordBytes * n ≤ o' ∨ o' + wordBytes * n' ≤ o
  | _, _, _, _ => True

instance : ∀ (ℓ ℓ' : Location) (n n' : Nat), Decidable (ℓ.Apart n ℓ' n')
  | .reg r, .reg r', _, _ => inferInstanceAs (Decidable (r ≠ r'))
  | .frame o, .frame o', n, n' =>
    inferInstanceAs (Decidable (o + wordBytes * n ≤ o' ∨ o' + wordBytes * n' ≤ o))
  | .reg _, .frame _, _, _ | .frame _, .reg _, _, _ => .isTrue trivial

theorem Location.Apart.symm {ℓ ℓ' : Location} {n n' : Nat} (h : ℓ.Apart n ℓ' n') :
  ℓ'.Apart n' ℓ n
  := by
  cases ℓ <;> cases ℓ'
  · exact Ne.symm h
  · trivial
  · trivial
  · exact Or.symm h

theorem Location.Apart.mono {ℓ ℓ' : Location} {m n n' : Nat} (h : ℓ.Apart n ℓ' n') (hle : m ≤ n) :
  ℓ.Apart m ℓ' n'
  := by
  have hmul : wordBytes * m ≤ wordBytes * n := Nat.mul_le_mul_left _ hle
  cases ℓ <;> cases ℓ'
  · exact h
  · trivial
  · trivial
  · rcases h with h | h
    · exact .inl (by omega)
    · exact .inr h

theorem Location.operand_inj {ℓ ℓ' : Location} (h : ℓ.operand = ℓ'.operand) :
  ℓ = ℓ'
  := by
  cases ℓ <;> cases ℓ' <;> simp_all [Location.operand]

theorem Location.apart_reg (ℓ : Location) (n n' : Nat) (r : Reg) :
  ℓ.Apart n (.reg r) n' ↔ ℓ ≠ .reg r
  := by
  cases ℓ <;> simp [Apart]

/-- The bytes of so many words at a location. -/
def Location.Covers (W : World) : Location → Nat → Nat → Prop
  | reg _, _, _ => False
  | frame o, count, x => W.frame + o ≤ x ∧ x < W.frame + o + wordBytes * count

theorem Location.Apart.not_covers {W : World} {ℓ ℓ' : Location} {n n' x : Nat} (h : ℓ.Apart n ℓ' n')
    (hx : ℓ.Covers W n x) :
  ¬ℓ'.Covers W n' x
  := by
  cases ℓ with
  | reg r => exact absurd hx id
  | frame o =>
    cases ℓ' with
    | reg r' => exact id
    | frame o' =>
      simp only [Apart, Covers] at h hx ⊢
      omega

theorem Location.Covers.holds {W : World} {area : Area} {ℓ : Location} {n x : Nat} (h : ℓ.Covers W n x)
    (hin : ∀ o, ℓ = .frame o → Store.Inside area (W.frame + o) n) :
  area.Holds x
  := by
  cases ℓ with
  | reg r => exact absurd h id
  | frame o =>
    obtain ⟨hstart, hstop⟩ := hin o rfl
    exact ⟨Nat.le_trans hstart h.1, Nat.lt_of_lt_of_le h.2 hstop⟩

/-- A location keeps its contents if its register or its bytes do not change. -/
theorem sameLanes_content {W : World} {t t' : State Reg} {ℓ : Location} {n : Nat}
    (hregs : ∀ r, ℓ = .reg r → t'.regs r = t.regs r)
    (hmemory : ∀ x, ℓ.Covers W n x → t'.store.memory x = t.store.memory x) :
  SameLanes n (ℓ.content W t') (ℓ.content W t)
  := by
  intro i hi
  cases ℓ with
  | reg r => exact congrFun (hregs r rfl) i
  | frame o =>
    apply Memory.word_congr
    intro x hx hx'
    have hmul : wordBytes * (i + 1) ≤ wordBytes * n := Nat.mul_le_mul_left _ hi
    rw [Nat.mul_add_one] at hmul
    exact hmemory x ⟨by omega, by omega⟩

/-- Nothing has changed but so many words at a location and one register. -/
structure Keeps (W : World) (t t' : State Reg) (cell : Location) (count : Nat) (via : Reg) : Prop where
  regs : ∀ r, cell ≠ .reg r → r ≠ via → t'.regs r = t.regs r
  memory : ∀ x, ¬cell.Covers W count x → t'.store.memory x = t.store.memory x

section

variable {W : World} {t t' : State Reg} {cell : Location} {count : Nat} {via : Reg}

theorem Keeps.content (h : Keeps W t t' cell count via) (ℓ : Location) (n : Nat)
    (hapart : ℓ.Apart n cell count) (hne : ℓ ≠ .reg via) :
  SameLanes n (ℓ.content W t') (ℓ.content W t)
  := by
  apply sameLanes_content
  · rintro r rfl
    apply h.regs r
    · rintro rfl
      exact hapart rfl
    · rintro rfl
      exact hne rfl
  · exact fun x hx => h.memory x (hapart.not_covers hx)

theorem keeps_setReg (r via : Reg) (value : Lanes) (n : Nat) {s : Store}
    (hs : s.memory = t.store.memory) :
  Keeps W t ⟨setReg t.regs (some r) value, s⟩ (.reg r) n via
  := by
  refine ⟨fun q hq _ => ?_, fun x _ => congrFun hs x⟩
  have hne : r ≠ q := fun heq => hq (by rw [heq])
  simp [setReg, hne]

theorem keeps_setWords {o : Nat} {ws : List UInt64} {regs : Reg → Lanes} {s : Store}
    (hregs : ∀ r, r ≠ via → regs r = t.regs r)
    (hs : s.memory = t.store.memory.setWords (W.frame + o) ws) :
  Keeps W t ⟨regs, s⟩ (.frame o) ws.length via
  := by
  refine ⟨fun r _ => hregs r, fun x hx => ?_⟩
  rw [hs]
  apply Memory.setWords_outside
  simp only [Location.Covers] at hx
  omega

theorem content_setReg (r : Reg) (value : Lanes) (s : Store) :
  Location.content W ⟨setReg t.regs (some r) value, s⟩ (.reg r) = value
  := by
  simp [Location.content, Location.operand, Operand.lanes, setReg]

theorem content_setWords {o : Nat} {ws : List UInt64} {regs : Reg → Lanes} {s : Store} {m : Memory}
    (hs : s.memory = m.setWords (W.frame + o) ws) :
  SameLanes ws.length (Location.content W ⟨regs, s⟩ (.frame o)) (lanesOf ws)
  := by
  intro i hi
  simp only [Location.content, Location.operand, Operand.lanes, hs]
  exact Memory.word_setWords hi

theorem sameLanes_words (m : Memory) (a count : Nat) :
  SameLanes count (lanesOf (m.words a count)) fun i => m.word (a + wordBytes * i)
  := by
  intro i hi
  exact lanesOf_map_range hi

end

/-! ## Accesses to memory -/

/-- An event is an access to the word at one of some addresses. -/
def Event.IsAccess (accessed : Nat → Prop) : Event → Prop
  | load a _ | store a _ => accessed a
  | call .. | alloc _ | free _ | check .. => False

/-- All that has been seen since are accesses to the words at some addresses. -/
def Sees (hidden : Nat → Bool) (accessed : Nat → Prop) (s s' : Store) : Prop :=
  ∃ events : List Event, s'.trace = s.trace ++ events.filter (·.isSeen hidden) ∧ ∀ e ∈ events, e.IsAccess accessed

section

variable {hidden : Nat → Bool} {accessed : Nat → Prop} {s s' s'' : Store}

theorem Sees.refl (s : Store) :
  Sees hidden accessed s s
  := ⟨[], (List.append_nil _).symm, List.forall_mem_nil _⟩

theorem Sees.trans (h : Sees hidden accessed s s') (h' : Sees hidden accessed s' s'') :
  Sees hidden accessed s s''
  := by
  obtain ⟨events, htrace, hevents⟩ := h
  obtain ⟨events', htrace', hevents'⟩ := h'
  refine ⟨events ++ events', ?_, List.forall_mem_append.mpr ⟨hevents, hevents'⟩⟩
  rw [htrace', htrace, List.filter_append, List.append_assoc]

/-- Nothing is seen of accesses to hidden words. -/
theorem Sees.trace_eq (h : Sees hidden accessed s s') (hhidden : ∀ a, accessed a → hidden a = true) :
  s'.trace = s.trace
  := by
  obtain ⟨events, htrace, hevents⟩ := h
  have hnone : events.filter (·.isSeen hidden) = [] := by
    rw [List.filter_eq_nil_iff]
    intro e he
    have haccess := hevents e he
    cases e with
    | load a w | store a w => simp [Event.isSeen, hhidden a haccess]
    | call | alloc | free | check => exact absurd haccess id
  rw [htrace, hnone, List.append_nil]

theorem sees_read {a count : Nat} (h : ∀ i < count, accessed (a + wordBytes * i)) (s : Store) :
  Sees hidden accessed s (s.read hidden a count).2
  := by
  refine ⟨_, rfl, fun e he => ?_⟩
  obtain ⟨i, hi, rfl⟩ := List.mem_map.mp he
  exact h i (List.mem_range.mp hi)

theorem sees_write {a : Nat} {ws : List UInt64} (h : ∀ i < ws.length, accessed (a + wordBytes * i))
    (s : Store) :
  Sees hidden accessed s (s.write hidden a ws)
  := by
  refine ⟨_, rfl, fun e he => ?_⟩
  obtain ⟨i, w, hi, rfl⟩ := mem_storeEvents he
  exact h i hi

end

/-! ## One move -/

/-- The number of lanes that a move carries. -/
def Move.lanes (m : Move) : Nat := max 1 m.words

/-- A move does not read the register that carries words, and it accesses some words of memory. -/
structure Move.IsPossible (W : World) (accessed : Nat → Prop) (via : Reg) (m : Move) : Prop where
  source_ne : m.source ≠ .reg via
  target : ∀ o, m.dst = .frame o → ∀ i < m.lanes, accessed (W.frame + o + wordBytes * i)
  source : ∀ o, m.source = .frame o → ∀ i < m.lanes, accessed (W.frame + o + wordBytes * i)

/-- A move has been made. -/
structure Move.IsMade (W : World) (hidden : Nat → Bool) (accessed : Nat → Prop) (via : Reg) (m : Move)
    (t t' : State Reg) : Prop where
  value : SameLanes m.lanes (m.dst.content W t') (m.source.lanes W t.store.memory t.regs)
  keeps : Keeps W t t' m.dst m.lanes via
  sees : Sees hidden accessed t.store t'.store

section

variable {W : World} {hidden : Nat → Bool} {accessed : Nat → Prop} {t : State Reg} {via : Reg}

theorem runAll_append [DecidableEq ρ] (hidden : Nat → Bool) (first second : List (Instr ρ)) (s : State ρ) :
  runAll W hidden (first ++ second) s = runAll W hidden first s >>= runAll W hidden second
  := by
  induction first generalizing s with
  | nil => rfl
  | cons i first ih =>
    rw [List.cons_append, runAll, runAll, bind_assoc]
    congr 1
    funext s'
    exact ih s'

theorem runAll_singleton [DecidableEq ρ] (hidden : Nat → Bool) (i : Instr ρ) (s : State ρ) :
  runAll W hidden [i] s = i.run W hidden s
  := by
  rw [runAll]
  cases i.run W hidden s <;> rfl

/-- Running a reload. -/
theorem run_reload (r : Reg) (o words : Nat) :
  (Allocation.reload r o words).run W hidden t
    = .ok ⟨setReg t.regs (some r) (lanesOf (t.store.read hidden (W.frame + o) (max 1 words)).1),
        (t.store.read hidden (W.frame + o) (max 1 words)).2⟩
  := by
  unfold Allocation.reload
  split
  · next h =>
    rw [Nat.max_eq_right (Nat.le_of_lt h)]
    rfl
  · next h =>
    rw [Nat.max_eq_left (Nat.le_of_not_lt h)]
    rfl

/-- Storing the words of an operand. -/
theorem run_storing (source : Operand Reg) (o words : Nat) :
  (if 1 < words then Instr.storeLanes (.frame o) source words else .store (.frame o) source).run W
      hidden t
    = .ok ⟨t.regs, t.store.write hidden (W.frame + o)
        ((List.range (max 1 words)).map (source.lanes W t.store.memory t.regs))⟩
  := by
  split
  · next h =>
    rw [Nat.max_eq_right (Nat.le_of_lt h)]
    rfl
  · next h =>
    rw [Nat.max_eq_left (Nat.le_of_not_lt h)]
    rfl

theorem Move.code_of_plain (via : Reg) {o words : Nat} {source : Operand Reg} (h : source.IsPlain) :
  Move.code via ⟨.frame o, source, words⟩
    = [if 1 < words then .storeLanes (.frame o) source words else .store (.frame o) source]
  := by
  cases source with
  | frame o' => exact absurd rfl (h o')
  | reg | imm | float =>
    unfold code
    simp only
    split <;> rfl

/-- A move to a register. -/
theorem run_code_reg {r : Reg} {source : Operand Reg} {words : Nat}
    (hm : Move.IsPossible W accessed via ⟨.reg r, source, words⟩) :
  ∃ t', runAll W hidden (Move.code via ⟨.reg r, source, words⟩) t = .ok t'
    ∧ Move.IsMade W hidden accessed via ⟨.reg r, source, words⟩ t t'
  := by
  have hmove : Move.IsMade W hidden accessed via ⟨.reg r, source, words⟩ t
      ⟨setReg t.regs (some r) (source.lanes W t.store.memory t.regs), t.store⟩ := by
    refine ⟨?_, keeps_setReg r via _ _ rfl, .refl _⟩
    rw [content_setReg]
    exact SameLanes.refl _ _
  cases source with
  | frame o =>
    have hcode : Move.code via ⟨.reg r, .frame o, words⟩ = [Allocation.reload r o words] := by
      unfold Move.code Allocation.reload
      simp only
      split <;> rfl
    rw [hcode, runAll_singleton, run_reload]
    refine ⟨_, rfl, ?_, keeps_setReg r via _ _ rfl, sees_read (hm.source o rfl) _⟩
    rw [content_setReg]
    exact sameLanes_words _ _ _
  | reg | imm | float => exact ⟨_, runAll_singleton _ _ _, hmove⟩

/-- The words of a source have been stored in the frame. -/
theorem isMade_setWords {o words : Nat} {source : Operand Reg} {ws : List UInt64} {t' : State Reg}
    (hlength : ws.length = max 1 words)
    (hws : SameLanes (max 1 words) (lanesOf ws) (source.lanes W t.store.memory t.regs))
    (hregs : ∀ r, r ≠ via → t'.regs r = t.regs r)
    (hmemory : t'.store.memory = t.store.memory.setWords (W.frame + o) ws)
    (hsees : Sees hidden accessed t.store t'.store) :
  Move.IsMade W hidden accessed via ⟨.frame o, source, words⟩ t t'
  := by
  have hcontent : SameLanes ws.length (Location.content W t' (.frame o)) (lanesOf ws) := content_setWords hmemory
  have hkeeps := keeps_setWords hregs hmemory
  rw [hlength] at hcontent hkeeps
  exact ⟨hcontent.trans hws, hkeeps, hsees⟩

/-- Words are copied at once, and one word is carried by a register. -/
theorem run_code_copy (hidden : Nat → Bool) (via : Reg) (o o' words : Nat) :
  ∃ regs, runAll W hidden (Move.code via ⟨.frame o, .frame o', words⟩) t
      = .ok ⟨regs, (t.store.read hidden (W.frame + o') (max 1 words)).2.write hidden (W.frame + o)
        (t.store.memory.words (W.frame + o') (max 1 words))⟩
    ∧ ∀ r, r ≠ via → regs r = t.regs r
  := by
  unfold Move.code
  simp only
  split
  · next h =>
    rw [Nat.max_eq_right (Nat.le_of_lt h), runAll_singleton]
    exact ⟨t.regs, rfl, fun _ _ => rfl⟩
  · next h =>
    rw [Nat.max_eq_left (Nat.le_of_not_lt h)]
    set loaded := setReg t.regs (some via) (lanesOf (t.store.memory.words (W.frame + o') 1)) with hloaded
    have hvia : [loaded via 0] = t.store.memory.words (W.frame + o') 1 := by
      simp [hloaded, setReg, lanesOf, Memory.words]
    refine ⟨loaded, ?_, ?_⟩
    · rw [← hvia]
      rfl
    · intro r hr
      simp [hloaded, setReg, Ne.symm hr]

/-- A move to the frame. -/
theorem run_code_frame {o : Nat} {source : Operand Reg} {words : Nat}
    (hm : Move.IsPossible W accessed via ⟨.frame o, source, words⟩) :
  ∃ t', runAll W hidden (Move.code via ⟨.frame o, source, words⟩) t = .ok t'
    ∧ Move.IsMade W hidden accessed via ⟨.frame o, source, words⟩ t t'
  := by
  have hin : ∀ i < max 1 words, accessed (W.frame + o + wordBytes * i) := hm.target o rfl
  have hstored : source.IsPlain → ∃ t', runAll W hidden (Move.code via ⟨.frame o, source, words⟩) t = .ok t'
      ∧ Move.IsMade W hidden accessed via ⟨.frame o, source, words⟩ t t' := by
    intro hplain
    rw [Move.code_of_plain via hplain, runAll_singleton, run_storing]
    refine ⟨_, rfl, isMade_setWords (by simp) (fun i hi => lanesOf_map_range hi) (fun _ _ => rfl) rfl ?_⟩
    exact sees_write (by simpa using hin) _
  cases source with
  | reg | imm | float => exact hstored (by simp [Operand.IsPlain])
  | frame o' =>
    have hin' : ∀ i < max 1 words, accessed (W.frame + o' + wordBytes * i) := hm.source o' rfl
    obtain ⟨regs, hrun, hregs⟩ := run_code_copy (W := W) (t := t) hidden via o o' words
    refine ⟨_, hrun, isMade_setWords (by simp [Memory.words]) (sameLanes_words _ _ _) hregs rfl ?_⟩
    exact (sees_read hin' _).trans (sees_write (by simpa [Memory.words] using hin) _)

/-- Running one move. -/
theorem run_code (hidden : Nat → Bool) (t : State Reg) {m : Move} (hm : m.IsPossible W accessed via) :
  ∃ t', runAll W hidden (m.code via) t = .ok t' ∧ m.IsMade W hidden accessed via t t'
  := by
  obtain ⟨dst, source, words⟩ := m
  cases dst with
  | reg r => exact run_code_reg hm
  | frame o => exact run_code_frame hm

end

/-! ## Several moves -/

theorem Move.lanes_pos (m : Move) :
  0 < m.lanes
  := Nat.lt_of_lt_of_le Nat.one_pos (Nat.le_max_left _ _)

theorem Location.not_apart_self (ℓ : Location) {n n' : Nat} (hn : 0 < n) (hn' : 0 < n') :
  ¬ℓ.Apart n ℓ n'
  := by
  have hpos : 0 < wordBytes := by decide
  cases ℓ with
  | reg r => simp [Apart]
  | frame o =>
    have h := Nat.mul_pos hpos hn
    have h' := Nat.mul_pos hpos hn'
    simp only [Apart]
    omega

/--
Moves that can be made one after the other: they have different destinations, which are no spare
registers, and a source is a destination itself or apart from it. A destination has all the lanes that
are read from it.
-/
structure Orderly (park via : Reg) (moves : List Move) : Prop where
  dst_ne : ∀ m ∈ moves, m.dst ≠ .reg park ∧ m.dst ≠ .reg via
  dests : moves.Pairwise fun m m' => m.dst.Apart m.lanes m'.dst m'.lanes
  sources : ∀ m ∈ moves, ∀ m' ∈ moves, ∀ ℓ : Location, m'.source = ℓ.operand →
    ℓ = m.dst ∨ ℓ.Apart m'.lanes m.dst m.lanes
  lanes : ∀ m ∈ moves, ∀ m' ∈ moves, m'.source = m.dst.operand → m'.lanes ≤ m.lanes

/-- Each source still has the value that its destination wants. -/
def Wanted (W : World) (want : Location → Lanes) (t : State Reg) (moves : List Move) : Prop :=
  ∀ m ∈ moves, SameLanes m.lanes (m.source.lanes W t.store.memory t.regs) (want m.dst)

/-- All moves have been made, and nothing else has changed but the spare registers. -/
structure Moved (W : World) (hidden : Nat → Bool) (accessed : Nat → Prop) (park via : Reg)
    (want : Location → Lanes) (t t' : State Reg) (moves : List Move) : Prop where
  dests : ∀ m ∈ moves, SameLanes m.lanes (m.dst.content W t') (want m.dst)
  regs : ∀ r, (∀ m ∈ moves, m.dst ≠ .reg r) → r ≠ park → r ≠ via → t'.regs r = t.regs r
  memory : ∀ x, (∀ m ∈ moves, ¬m.dst.Covers W m.lanes x) → t'.store.memory x = t.store.memory x
  sees : Sees hidden accessed t.store t'.store

/-- A source that is no location does not depend on the state. -/
theorem lanes_eq_of_number {source : Operand Reg} (h : ∀ ℓ : Location, source ≠ ℓ.operand)
    (W : World) (m m' : Memory) (regs regs' : Reg → Lanes) :
  source.lanes W m regs = source.lanes W m' regs'
  := by
  cases source with
  | reg r => exact absurd rfl (h (.reg r))
  | frame o => exact absurd rfl (h (.frame o))
  | imm n => rfl
  | float bits => rfl

theorem Move.redirect_dst (ℓ : Location) (r : Reg) (m : Move) :
  (m.redirect ℓ r).dst = m.dst
  := by
  unfold redirect
  split <;> rfl

theorem Move.redirect_lanes (ℓ : Location) (r : Reg) (m : Move) :
  (m.redirect ℓ r).lanes = m.lanes
  := by
  unfold redirect
  split <;> rfl

theorem Move.redirect_source (ℓ : Location) (r : Reg) (m : Move) :
  (m.source = ℓ.operand ∧ (m.redirect ℓ r).source = .reg r)
    ∨ (m.source ≠ ℓ.operand ∧ (m.redirect ℓ r).source = m.source)
  := by
  unfold redirect readsFrom
  by_cases h : m.source = ℓ.operand
  · simp [h]
  · simp [h]

theorem isReady_iff {pending : List Move} {m : Move} :
  isReady pending m = true ↔ ∀ m' ∈ pending, m'.source ≠ m.dst.operand
  := by
  simp [isReady, Move.readsFrom]

section

variable {W : World} {hidden : Nat → Bool} {accessed : Nat → Prop} {park via : Reg}
  {want : Location → Lanes} {t t' t'' : State Reg} {moves : List Move} {m : Move}

theorem Orderly.subperm {rest : List Move} (h : Orderly park via moves) (hsub : rest.Subperm moves) :
  Orderly park via rest
  := by
  have hmem : ∀ m ∈ rest, m ∈ moves := fun m hm => hsub.subset hm
  constructor
  · exact fun m hm => h.dst_ne m (hmem m hm)
  · obtain ⟨rest', hperm, hsublist⟩ := hsub
    exact (hperm.pairwise_iff fun hab => hab.symm).mp (h.dests.sublist hsublist)
  · exact fun m hm m' hm' => h.sources m (hmem m hm) m' (hmem m' hm')
  · exact fun m hm m' hm' => h.lanes m (hmem m hm) m' (hmem m' hm')

theorem Orderly.apart (h : Orderly park via moves) {m' : Move} (hm : m ∈ moves) (hm' : m' ∈ moves)
    (hne : m ≠ m') :
  m.dst.Apart m.lanes m'.dst m'.lanes
  := by
  have hsymm : Std.Symm fun m m' : Move => m.dst.Apart m.lanes m'.dst m'.lanes :=
    ⟨fun _ _ hapart => hapart.symm⟩
  exact h.dests.forall hm hm' hne

/-- Different moves have different destinations. -/
theorem Orderly.dst_inj (h : Orderly park via moves) {m' : Move} (hm : m ∈ moves) (hm' : m' ∈ moves)
    (heq : m.dst = m'.dst) :
  m = m'
  := by
  by_contra hne
  have hapart := h.apart hm hm' hne
  rw [heq] at hapart
  exact Location.not_apart_self _ m.lanes_pos m'.lanes_pos hapart

/-- The wanted values are still there if nothing has changed at the sources. -/
theorem Wanted.of_sources (h : Wanted W want t moves)
    (hsame : ∀ m ∈ moves, ∀ ℓ : Location, m.source = ℓ.operand →
      SameLanes m.lanes (ℓ.content W t') (ℓ.content W t)) :
  Wanted W want t' moves
  := by
  intro m hm
  by_cases hnumber : ∀ ℓ : Location, m.source ≠ ℓ.operand
  · rw [lanes_eq_of_number hnumber W t'.store.memory t.store.memory t'.regs t.regs]
    exact h m hm
  · push Not at hnumber
    obtain ⟨ℓ, hℓ⟩ := hnumber
    have hwant := h m hm
    rw [hℓ] at hwant ⊢
    exact (hsame m hm ℓ hℓ).trans hwant

/-- If every destination is read, then every source is a destination. -/
theorem Orderly.source_eq_dst (h : Orderly park via moves)
    (hread : ∀ m ∈ moves, ∃ m' ∈ moves, m'.source = m.dst.operand) (hm : m ∈ moves) :
  ∃ m' ∈ moves, m.source = m'.dst.operand
  := by
  have hnodup : (moves.map fun m => m.dst.operand).Nodup := by
    rw [List.Nodup, List.pairwise_map]
    refine h.dests.imp fun {m m'} hapart heq => ?_
    rw [Location.operand_inj heq] at hapart
    exact Location.not_apart_self _ m.lanes_pos m'.lanes_pos hapart
  have hsub : (moves.map fun m => m.dst.operand) ⊆ moves.map (·.source) := by
    intro x hx
    obtain ⟨m, hm, rfl⟩ := List.mem_map.mp hx
    obtain ⟨m', hm', heq⟩ := hread m hm
    exact List.mem_map.mpr ⟨m', hm', heq⟩
  have hperm := (hnodup.subperm hsub).perm_of_length_le (by simp)
  obtain ⟨m', hm', heq⟩ := List.mem_map.mp (hperm.mem_iff.mpr (List.mem_map_of_mem hm))
  exact ⟨m', hm', heq.symm⟩

/-! ## One step -/

/-- A move whose destination is not read by any other can go first. -/
theorem Wanted.erase (hwant : Wanted W want t moves) (h : Orderly park via moves)
    (hsource : ∀ m ∈ moves, m.source ≠ .reg via) (hm : m ∈ moves)
    (hready : ∀ m' ∈ moves, m'.source ≠ m.dst.operand) (hkeeps : Keeps W t t' m.dst m.lanes via) :
  Wanted W want t' (moves.erase m)
  := by
  have hrest : Wanted W want t (moves.erase m) := fun m' hm' => hwant m' (List.mem_of_mem_erase hm')
  apply hrest.of_sources
  intro m' hm' ℓ hℓ
  have hmem := List.mem_of_mem_erase hm'
  apply hkeeps.content ℓ
  · rcases h.sources m hm m' hmem ℓ hℓ with rfl | hapart
    · exact absurd hℓ (hready m' hmem)
    · exact hapart
  · rintro rfl
    exact hsource m' hmem hℓ

theorem Moved.content (h : Moved W hidden accessed park via want t t' moves) (ℓ : Location) (n : Nat)
    (hapart : ∀ m ∈ moves, ℓ.Apart n m.dst m.lanes) (hpark : ℓ ≠ .reg park) (hvia : ℓ ≠ .reg via) :
  SameLanes n (ℓ.content W t') (ℓ.content W t)
  := by
  apply sameLanes_content
  · rintro r rfl
    apply h.regs r _ (fun heq => hpark (by rw [heq])) (fun heq => hvia (by rw [heq]))
    intro m hm heq
    have hne := hapart m hm
    rw [heq] at hne
    exact hne rfl
  · exact fun x hx => h.memory x fun m hm => (hapart m hm).not_covers hx

/-- One move and then the others. -/
theorem Moved.of_erase (h : Orderly park via moves) (hm : m ∈ moves) (hwant : Wanted W want t moves)
    (hmade : m.IsMade W hidden accessed via t t')
    (hrest : Moved W hidden accessed park via want t' t'' (moves.erase m)) :
  Moved W hidden accessed park via want t t'' moves
  := by
  have hperm := List.perm_cons_erase hm
  obtain ⟨hfirst, -⟩ := List.pairwise_cons.mp (h.subperm hperm.symm.subperm).dests
  constructor
  · intro m' hm'
    rcases List.mem_cons.mp (hperm.mem_iff.mp hm') with rfl | hlater
    · have hstill := hrest.content _ _ hfirst (h.dst_ne m' hm).1 (h.dst_ne m' hm).2
      exact hstill.trans (hmade.value.trans (hwant m' hm))
    · exact hrest.dests m' hlater
  · intro r hr hpark hvia
    refine (hrest.regs r (fun m' hm' => hr m' (List.mem_of_mem_erase hm')) hpark hvia).trans ?_
    exact hmade.keeps.regs r (hr m hm) hvia
  · intro x hx
    refine (hrest.memory x fun m' hm' => hx m' (List.mem_of_mem_erase hm')).trans ?_
    exact hmade.keeps.memory x (hx m hm)
  · exact hmade.sees.trans hrest.sees

/-- The move of the value that a move overwrites to the spare register. -/
def Move.parked (m : Move) (park : Reg) : Move := ⟨.reg park, m.dst.operand, m.words⟩

theorem Move.IsPossible.parked (h : m.IsPossible W accessed via) (hne : m.dst ≠ .reg via) :
  (m.parked park).IsPossible W accessed via
  := by
  refine ⟨fun heq => hne (Location.operand_inj heq), nofun, fun o heq => ?_⟩
  exact h.target o (Location.operand_inj heq)

theorem Move.IsPossible.redirect (h : m.IsPossible W accessed via) (hpark : park ≠ via) (ℓ : Location) :
  (m.redirect ℓ park).IsPossible W accessed via
  := by
  unfold Move.redirect
  split
  · exact ⟨fun heq => hpark (Operand.reg.inj heq), h.target, nofun⟩
  · exact h

theorem Orderly.redirect (h : Orderly park via moves) (ℓ : Location) :
  Orderly park via (moves.map (Move.redirect ℓ park))
  := by
  have hpark : ∀ m ∈ moves, ∀ ℓ' : Location, (Location.reg park).operand = ℓ'.operand → ℓ' ≠ m.dst := by
    intro m hm ℓ' hℓ' heq
    exact (h.dst_ne m hm).1 (heq.symm.trans (Location.operand_inj hℓ').symm)
  constructor
  · simp only [List.forall_mem_map, Move.redirect_dst]
    exact h.dst_ne
  · simp only [List.pairwise_map, Move.redirect_dst, Move.redirect_lanes]
    exact h.dests
  · simp only [List.forall_mem_map, Move.redirect_dst, Move.redirect_lanes]
    intro m hm m' hm' ℓ' hℓ'
    rcases m'.redirect_source ℓ park with ⟨-, hnew⟩ | ⟨-, hnew⟩
    · obtain rfl : Location.reg park = ℓ' := Location.operand_inj (hnew.symm.trans hℓ')
      exact .inr ((m.dst.apart_reg _ _ _).mpr (h.dst_ne m hm).1).symm
    · exact h.sources m hm m' hm' ℓ' (hnew ▸ hℓ')
  · simp only [List.forall_mem_map, Move.redirect_dst, Move.redirect_lanes]
    intro m hm m' hm' heq
    rcases m'.redirect_source ℓ park with ⟨-, hnew⟩ | ⟨-, hnew⟩
    · exact absurd rfl (hpark m hm m.dst (hnew.symm.trans heq))
    · exact h.lanes m hm m' hm' (hnew ▸ heq)

/-- On a cycle, the others can read a value that is overwritten from where it has been parked. -/
theorem Wanted.redirect (hwant : Wanted W want t moves) (h : Orderly park via moves)
    (hread : ∀ m ∈ moves, ∃ m' ∈ moves, m'.source = m.dst.operand) (hm : m ∈ moves)
    (hparked : (m.parked park).IsMade W hidden accessed via t t') :
  Wanted W want t' (moves.map (Move.redirect m.dst park))
  := by
  simp only [Wanted, List.forall_mem_map, Move.redirect_dst, Move.redirect_lanes]
  intro m' hm'
  have hwant' := hwant m' hm'
  rcases m'.redirect_source m.dst park with ⟨hsource, hnew⟩ | ⟨-, hnew⟩
  · have hle : m'.lanes ≤ m.lanes := h.lanes m hm m' hm' hsource
    rw [hsource] at hwant'
    rw [hnew]
    exact (SameLanes.mono hparked.value hle).trans hwant'
  · -- no move reads the spare register yet
    obtain ⟨m₀, hm₀, hℓ⟩ := h.source_eq_dst hread hm'
    rw [hnew]
    rw [hℓ] at hwant' ⊢
    refine (hparked.keeps.content m₀.dst _ ?_ (h.dst_ne m₀ hm₀).2).trans hwant'
    exact (m₀.dst.apart_reg _ _ _).mpr (h.dst_ne m₀ hm₀).1

/-- The others have the same destinations, wherever they read. -/
theorem Moved.of_redirect {ℓ : Location} (hparked : (m.parked park).IsMade W hidden accessed via t t')
    (hrest : Moved W hidden accessed park via want t' t'' (moves.map (Move.redirect ℓ park))) :
  Moved W hidden accessed park via want t t'' moves
  := by
  obtain ⟨hdests, hregs, hmemory, hsees⟩ := hrest
  simp only [List.forall_mem_map, Move.redirect_dst, Move.redirect_lanes] at hdests hregs hmemory
  refine ⟨hdests, fun r hr hpark hvia => ?_, fun x hx => ?_, hparked.sees.trans hsees⟩
  · refine (hregs r hr hpark hvia).trans (hparked.keeps.regs r ?_ hvia)
    exact fun heq => hpark (Location.reg.inj heq).symm
  · exact (hmemory x hx).trans (hparked.keeps.memory x id)

/-! ## All steps -/

/-- So many steps suffice for moves: two for each of them, and one less if a move can go next. -/
def IsEnough (steps : Nat) (moves : List Move) : Prop :=
  2 * moves.length ≤ steps
    ∨ 2 * moves.length ≤ steps + 1 ∧ ∃ m ∈ moves, isReady moves m = true

theorem IsEnough.erase {steps : Nat} (h : IsEnough (steps + 1) moves) (hm : m ∈ moves) :
  IsEnough steps (moves.erase m)
  := by
  have hlength := List.length_erase_of_mem hm
  have hpos := List.length_pos_of_mem hm
  unfold IsEnough at h ⊢
  omega

/-- Once the value that it overwrites has been parked, a move can go next. -/
theorem IsEnough.redirect {steps : Nat} (h : IsEnough (steps + 1) moves) (horderly : Orderly park via moves)
    (hm : m ∈ moves) (hnone : ∀ m ∈ moves, ¬isReady moves m = true) :
  IsEnough steps (moves.map (Move.redirect m.dst park))
  := by
  rcases h with h | ⟨-, m', hm', hready⟩
  · refine .inr ⟨by rwa [List.length_map], _, List.mem_map_of_mem hm, ?_⟩
    simp only [isReady_iff, List.forall_mem_map, Move.redirect_dst]
    intro m' hm' heq
    rcases m'.redirect_source m.dst park with ⟨-, hnew⟩ | ⟨hne, hnew⟩
    · exact (horderly.dst_ne m hm).1 (Location.operand_inj (heq.symm.trans hnew))
    · exact hne (hnew.symm.trans heq)
  · exact absurd hready (hnone m' hm')

/-- More steps make no difference. -/
theorem sequence_succ {steps : Nat} (hsteps : IsEnough steps moves) (h : Orderly park via moves) :
  sequence park via (steps + 1) moves = sequence park via steps moves
  := by
  induction steps generalizing moves with
  | zero =>
    obtain rfl : moves = [] := by
      rw [← List.length_eq_zero_iff]
      unfold IsEnough at hsteps
      omega
    rfl
  | succ steps ih =>
    cases moves with
    | nil => rfl
    | cons first rest =>
      rw [sequence, sequence]
      simp only
      split
      · next m hfind =>
        have hm := List.mem_of_find?_eq_some hfind
        rw [ih (hsteps.erase hm) (h.subperm (List.erase_subperm ..))]
      · next hfind =>
        rw [ih (hsteps.redirect h (by simp) (List.find?_eq_none.mp hfind)) (h.redirect _)]

/-- The moves are made one after the other. -/
theorem run_sequence (hpark : park ≠ via) {steps : Nat} (hsteps : IsEnough steps moves)
    (h : Orderly park via moves) (hpossible : ∀ m ∈ moves, m.IsPossible W accessed via)
    (hwant : Wanted W want t moves) :
  ∃ t', runAll W hidden (sequence park via steps moves) t = .ok t'
    ∧ Moved W hidden accessed park via want t t' moves
  := by
  have hnone : ∀ t : State Reg, Moved W hidden accessed park via want t t [] := fun t =>
    ⟨List.forall_mem_nil _, fun _ _ _ _ => rfl, fun _ _ => rfl, .refl _⟩
  induction steps generalizing moves t with
  | zero =>
    obtain rfl : moves = [] := by
      rw [← List.length_eq_zero_iff]
      unfold IsEnough at hsteps
      omega
    exact ⟨t, rfl, hnone t⟩
  | succ steps ih =>
    cases moves with
    | nil => exact ⟨t, rfl, hnone t⟩
    | cons first rest =>
      rw [sequence]
      simp only
      split
      · next m hfind =>
        have hm := List.mem_of_find?_eq_some hfind
        have hready := isReady_iff.mp (List.find?_some hfind)
        obtain ⟨t₁, hrun, hmade⟩ := run_code hidden t (hpossible m hm)
        obtain ⟨t₂, hrun', hmoved⟩ := ih (hsteps.erase hm) (h.subperm (List.erase_subperm ..))
          (fun m' hm' => hpossible m' (List.mem_of_mem_erase hm'))
          (hwant.erase h (fun m hm => (hpossible m hm).source_ne) hm hready hmade.keeps)
        refine ⟨t₂, ?_, .of_erase h hm hwant hmade hmoved⟩
        rw [runAll_append, hrun]
        exact hrun'
      · next hfind =>
        have hstuck := List.find?_eq_none.mp hfind
        have hread : ∀ m ∈ first :: rest, ∃ m' ∈ first :: rest, m'.source = m.dst.operand := by
          intro m hm
          have hnot := hstuck m hm
          rw [isReady_iff] at hnot
          push Not at hnot
          exact hnot
        have hm : first ∈ first :: rest := by simp
        have hpossible' : (first.parked park).IsPossible W accessed via :=
          (hpossible first hm).parked (h.dst_ne first hm).2
        obtain ⟨t₁, hrun, hparked⟩ := run_code hidden t hpossible'
        obtain ⟨t₂, hrun', hmoved⟩ := ih (hsteps.redirect h hm hstuck) (h.redirect first.dst)
          (List.forall_mem_map.mpr fun m hm => (hpossible m hm).redirect hpark _)
          (hwant.redirect h hread hm hparked)
        refine ⟨t₂, ?_, .of_redirect hparked hmoved⟩
        rw [runAll_append]
        change (runAll W hidden ((first.parked park).code via) t >>= _) = _
        rw [hrun]
        exact hrun'

/-! ## Simultaneous moves -/

/-- What every destination is to hold. -/
theorem Orderly.exists_want (h : Orderly park via moves) (value : Operand Reg → Lanes) :
  ∃ want : Location → Lanes, ∀ m ∈ moves, want m.dst = value m.source
  := by
  refine ⟨fun ℓ => ((moves.find? fun m => m.dst = ℓ).map fun m => value m.source).getD Lanes.none, ?_⟩
  intro m hm
  cases hfind : moves.find? fun m' => m'.dst = m.dst with
  | none => exact absurd (List.find?_eq_none.mp hfind m hm) (by simp)
  | some m' =>
    have hdst : m'.dst = m.dst := by simpa using List.find?_some hfind
    rw [h.dst_inj (List.mem_of_find?_eq_some hfind) hm hdst] at hfind
    simp [hfind]

/-- Moves that change nothing can be left out. -/
theorem Moved.of_filter (h : Orderly park via moves)
    (hwant : ∀ m ∈ moves, want m.dst = m.source.lanes W t.store.memory t.regs)
    (hmoved : Moved W hidden accessed park via want t t' (moves.filter fun m => !m.isTrivial)) :
  Moved W hidden accessed park via want t t' moves
  := by
  have hsub : ∀ m ∈ moves.filter (fun m => !m.isTrivial), m ∈ moves := fun m hm => List.mem_of_mem_filter hm
  constructor
  · intro m hm
    by_cases htrivial : m.source = m.dst.operand
    · have hstill := hmoved.content m.dst m.lanes ?_ (h.dst_ne m hm).1 (h.dst_ne m hm).2
      · rw [hwant m hm, htrivial]
        exact hstill
      · intro m' hm'
        have hne : m ≠ m' := by
          rintro rfl
          simp [Move.isTrivial, htrivial] at hm'
        exact h.apart hm (hsub m' hm') hne
    · apply hmoved.dests m
      rw [List.mem_filter]
      exact ⟨hm, by simp [Move.isTrivial, htrivial]⟩
  · exact fun r hr => hmoved.regs r fun m hm => hr m (hsub m hm)
  · exact fun x hx => hmoved.memory x fun m hm => hx m (hsub m hm)
  · exact hmoved.sees

/-- Simultaneous moves are made one after the other. -/
theorem run_sequentialize (hidden : Nat → Bool) (t : State Reg) (hpark : park ≠ via) (h : Orderly park via moves)
    (hpossible : ∀ m ∈ moves, m.IsPossible W accessed via) :
  ∃ t' want, runAll W hidden (sequentialize park via moves) t = .ok t'
    ∧ (∀ m ∈ moves, want m.dst = m.source.lanes W t.store.memory t.regs)
    ∧ Moved W hidden accessed park via want t t' moves
  := by
  obtain ⟨want, hwant⟩ := h.exists_want fun source => source.lanes W t.store.memory t.regs
  have hsub : ∀ m ∈ moves.filter (fun m => !m.isTrivial), m ∈ moves := fun m hm => List.mem_of_mem_filter hm
  have hwanted : Wanted W want t (moves.filter fun m => !m.isTrivial) := by
    intro m hm
    rw [hwant m (hsub m hm)]
    exact SameLanes.refl _ _
  obtain ⟨t', hrun, hmoved⟩ := run_sequence hpark (.inl le_rfl) (h.subperm List.filter_sublist.subperm)
    (fun m hm => hpossible m (hsub m hm)) hwanted
  exact ⟨t', want, hrun, hwant, .of_filter h hwant hmoved⟩

end


/-! ## Any simultaneous moves -/

/-- The location that an operand reads. -/
def Operand.location? : Operand Reg → Option Location
  | reg r => some (.reg r)
  | frame offset => some (.frame offset)
  | imm _ | float _ => none

theorem Operand.location?_eq_some {source : Operand Reg} {ℓ : Location} :
  source.location? = some ℓ ↔ source = ℓ.operand
  := by
  cases source <;> cases ℓ <;> simp [location?, Location.operand]

/-- The locations that a move writes and reads. -/
def Move.places (m : Move) : List Location := m.dst :: m.source.location?.toList

/--
Moves with different destinations, none of which writes or reads a spare register. Places in the frame
are equal or have nothing in common, and a value is read as wide as it is overwritten.
-/
structure AreSimultaneous (park via : Reg) (moves : List Move) : Prop where
  nodup : (moves.map (·.dst)).Nodup
  spare : ∀ m ∈ moves, ∀ ℓ ∈ m.places, ℓ ≠ .reg park ∧ ℓ ≠ .reg via
  apart : ∀ m ∈ moves, ∀ m' ∈ moves, ∀ ℓ ∈ m.places, ∀ ℓ' ∈ m'.places,
    ℓ = ℓ' ∨ ℓ.Apart m.lanes ℓ' m'.lanes
  words : ∀ m ∈ moves, ∀ m' ∈ moves, m'.source = m.dst.operand → m'.words = m.words

theorem Move.mem_places {m : Move} {ℓ : Location} (h : m.source = ℓ.operand) :
  ℓ ∈ m.places
  := by
  rw [places, Operand.location?_eq_some.mpr h]
  simp

theorem AreSimultaneous.orderly {park via : Reg} {moves : List Move} (h : AreSimultaneous park via moves) :
  Orderly park via moves
  := by
  have hdst : ∀ m : Move, m.dst ∈ m.places := fun m => List.mem_cons_self
  constructor
  · exact fun m hm => h.spare m hm m.dst (hdst m)
  · have hnodup := List.pairwise_map.mp h.nodup
    refine hnodup.imp_of_mem fun {m m'} hm hm' hne => ?_
    exact (h.apart m hm m' hm' _ (hdst m) _ (hdst m')).resolve_left hne
  · exact fun m hm m' hm' ℓ hℓ => h.apart m' hm' m hm ℓ (Move.mem_places hℓ) m.dst (hdst m)
  · intro m hm m' hm' hsource
    rw [Move.lanes, Move.lanes, h.words m hm m' hm' hsource]

theorem AreSimultaneous.isPossible {park via : Reg} {moves : List Move} (h : AreSimultaneous park via moves)
    (W : World) {m : Move} (hm : m ∈ moves) :
  m.IsPossible W (fun _ => True) via
  := by
  refine ⟨fun heq => ?_, fun _ _ _ _ => trivial, fun _ _ _ _ => trivial⟩
  exact (h.spare m hm (.reg via) (Move.mem_places heq)).2 rfl

/--
Simultaneous moves of any shape: chains, several readers of one place, moves that change nothing and
cycles through registers and memory. Their code does not depend on how many more steps are allowed. It
runs from every state to one where each destination has what its source had before, all other registers
but the spare ones and all other bytes of memory are as they were, and nothing but loads and stores has
been seen.
-/
theorem sequentialize_simultaneous {park via : Reg} (hpark : park ≠ via) {moves : List Move}
    (h : AreSimultaneous park via moves) (W : World) (hidden : Nat → Bool) (t : State Reg) :
  (∀ steps, 2 * moves.length ≤ steps →
      sequence park via steps (moves.filter fun m => !m.isTrivial) = sequentialize park via moves)
    ∧ ∃ t', runAll W hidden (sequentialize park via moves) t = .ok t'
      ∧ (∀ m ∈ moves, SameLanes m.lanes (m.dst.content W t') (m.source.lanes W t.store.memory t.regs))
      ∧ (∀ r, (∀ m ∈ moves, m.dst ≠ .reg r) → r ≠ park → r ≠ via → t'.regs r = t.regs r)
      ∧ (∀ x, (∀ m ∈ moves, ¬m.dst.Covers W m.lanes x) → t'.store.memory x = t.store.memory x)
      ∧ Sees hidden (fun _ => True) t.store t'.store
  := by
  have horderly := h.orderly
  constructor
  · intro steps hsteps
    have hlength := List.length_filter_le (fun m : Move => !m.isTrivial) moves
    have hfiltered := horderly.subperm (List.filter_sublist (p := fun m => !m.isTrivial)).subperm
    have hle : 2 * (moves.filter fun m => !m.isTrivial).length ≤ steps := by omega
    clear hsteps
    induction steps, hle using Nat.le_induction with
    | base => rfl
    | succ steps hle ih => rw [sequence_succ (.inl hle) hfiltered, ih]
  · obtain ⟨t', want, hrun, hwant, hmoved⟩ := run_sequentialize hidden t hpark horderly
      fun m hm => h.isPossible W hm
    refine ⟨t', hrun, fun m hm => ?_, hmoved.regs, hmoved.memory, hmoved.sees⟩
    have hdst := hmoved.dests m hm
    rwa [hwant m hm] at hdst

/-- A cycle of registers and one of memory, with further readers, a move that changes nothing, and a vector. -/
def tangle : List Move :=
  [⟨.reg 0, .reg 1, 1⟩, ⟨.reg 1, .reg 0, 1⟩, ⟨.frame 0, .frame 8, 1⟩, ⟨.frame 8, .frame 0, 1⟩,
   ⟨.reg 2, .frame 8, 1⟩, ⟨.frame 16, .reg 2, 1⟩, ⟨.reg 3, .imm 7, 1⟩, ⟨.reg 4, .reg 4, 1⟩,
   ⟨.frame 24, .reg 5, 4⟩]

/-- The first two registers are exchanged, and a register that no move names keeps its value. -/
theorem sequentialize_tangle :
  let W : World := ⟨0, fun _ => 0, fun _ _ _ => none, fun _ w => w, fun _ w => w, fun _ _ => 0, 0,
    fun _ => ⟨.none, fun _ => none⟩, fun _ => 0⟩
  let t : State Reg := ⟨fun r => lanesOf [UInt64.ofNat r], ⟨fun _ => 0, []⟩⟩
  14 ≠ 15 ∧ AreSimultaneous 14 15 tangle
    ∧ ∃ t', runAll W (fun _ => false) (sequentialize 14 15 tangle) t = .ok t'
      ∧ t'.regs 0 0 = 1 ∧ t'.regs 1 0 = 0 ∧ t'.regs 9 0 = 9
  := by
  intro W t
  have htangle : AreSimultaneous 14 15 tangle := by constructor <;> decide
  obtain ⟨-, t', hrun, hdests, hregs, -⟩ :=
    sequentialize_simultaneous (by decide) htangle W (fun _ => false) t
  refine ⟨by decide, htangle, t', hrun, ?_, ?_, ?_⟩
  · exact hdests ⟨.reg 0, .reg 1, 1⟩ (by decide) 0 (by decide)
  · exact hdests ⟨.reg 1, .reg 0, 1⟩ (by decide) 0 (by decide)
  · rw [hregs 9 (by decide) (by decide) (by decide)]
    rfl

end FormCompiler.Machine
