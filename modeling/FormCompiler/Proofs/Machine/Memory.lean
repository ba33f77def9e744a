import FormCompiler.Proofs.Machine.Run

/-!
# Words in memory

A word that was stored is loaded again, and storing it changes no other word. Two stores *match*
outside of an area if their memories have the same bytes there and the same was seen of them.
Instructions that do not touch the area keep matching stores matching, and so does code that only
works inside the area.
-/

namespace FormCompiler.Machine

variable {count i a : Nat} {area : Area}

namespace Memory

variable {m m' : Memory}

theorem word_congr (h : ∀ x, a ≤ x → x < a + wordBytes → m x = m' x) :
  m.word a = m'.word a
  := by
  unfold word
  congr 2
  apply List.map_congr_left
  intro i hi
  rw [h (a + i) (by omega) (by simpa using hi)]

theorem setWord_outside {x : Nat} (w : UInt64) (h : x < a ∨ a + wordBytes ≤ x) :
  m.setWord a w x = m x
  := by
  unfold setWord
  rw [if_neg (by omega)]

theorem setWord_inside (m : Memory) (a : Nat) (w : UInt64) (h : i < wordBytes) :
  m.setWord a w (a + i) = UInt8.ofNat (w.toNat / 256 ^ i)
  := by
  unfold setWord
  rw [if_pos (by omega), Nat.add_sub_cancel_left]

/-- The lowest digits of a number to the base 256 make up its remainder. -/
theorem sum_digits (n count : Nat) :
  ((List.range count).map fun i => n / 256 ^ i % 256 * 256 ^ i).sum = n % 256 ^ count
  := by
  induction count with
  | zero => simp [Nat.mod_one]
  | succ count ih =>
    rw [List.range_succ, List.map_append, List.sum_append, ih, Nat.mod_pow_succ]
    simp [Nat.mul_comm]

/-- The word that was stored is loaded. -/
theorem word_setWord (m : Memory) (a : Nat) (w : UInt64) :
  (m.setWord a w).word a = w
  := by
  have hdigits : (List.range wordBytes).map (fun i => (m.setWord a w (a + i)).toNat * 256 ^ i)
      = (List.range wordBytes).map fun i => w.toNat / 256 ^ i % 256 * 256 ^ i := by
    apply List.map_congr_left
    intro i hi
    rw [setWord_inside m a w (by simpa using hi)]
    simp
  have hlt : w.toNat < 256 ^ wordBytes := w.toNat_lt
  unfold word
  rw [hdigits, sum_digits, Nat.mod_eq_of_lt hlt, UInt64.ofNat_toNat]

theorem setWords_outside {x : Nat} (ws : List UInt64) (h : x < a ∨ a + wordBytes * ws.length ≤ x) :
  m.setWords a ws x = m x
  := by
  induction ws generalizing m a with
  | nil => rfl
  | cons w ws ih =>
    rw [List.length_cons, Nat.mul_add_one] at h
    rw [setWords, ih (by omega)]
    apply setWord_outside
    omega

theorem word_setWords_of_disjoint {b : Nat} (ws : List UInt64)
    (h : a + wordBytes * ws.length ≤ b ∨ b + wordBytes ≤ a) :
  (m.setWords a ws).word b = m.word b
  := by
  apply word_congr
  intro x hx hx'
  apply setWords_outside
  omega

theorem word_setWords {ws : List UInt64} (h : i < ws.length) :
  (m.setWords a ws).word (a + wordBytes * i) = lanesOf ws i
  := by
  induction ws generalizing m a i with
  | nil => simp at h
  | cons w ws ih =>
    rw [setWords]
    cases i with
    | zero =>
      rw [Nat.mul_zero, Nat.add_zero, word_setWords_of_disjoint ws (by omega), word_setWord]
      rfl
    | succ i =>
      have haddress : a + wordBytes * (i + 1) = a + wordBytes + wordBytes * i := by ring
      rw [haddress, ih (by simpa using h)]
      rfl

/-- Bytes that are the same in two memories still are after the same words have been stored. -/
theorem setWords_congr {x : Nat} (a : Nat) (ws : List UInt64) (h : m x = m' x) :
  m.setWords a ws x = m'.setWords a ws x
  := by
  induction ws generalizing m m' a with
  | nil => exact h
  | cons w ws ih =>
    apply ih
    unfold setWord
    rw [h]

end Memory

theorem lanesOf_map_range {regs : Lanes} (h : i < count) :
  lanesOf ((List.range count).map regs) i = regs i
  := by
  simp [lanesOf, h]

/-! ## Areas -/

namespace Area

theorem hides_eq_false (h : area.Misses a) :
  area.hides a = false
  := by
  by_contra hne
  simp only [hides, Bool.not_eq_false, Bool.and_eq_true, decide_eq_true_eq] at hne
  have hbytes : 0 < wordBytes := by decide
  apply h a le_rfl (by omega)
  omega

/-- The bytes of an area. -/
def Holds (area : Area) (x : Nat) : Prop := area.start ≤ x ∧ x < area.stop

end Area

theorem Event.isSeen_of_avoids {e : Event} (h : e.Avoids area) :
  e.isSeen area.hides = true
  := by
  cases e with
  | load a w | store a w => simp [isSeen, Area.hides_eq_false h]
  | _ => rfl

theorem mem_storeEvents {e : Event} {ws : List UInt64} (h : e ∈ storeEvents a ws) :
  ∃ i w, i < ws.length ∧ e = .store (a + wordBytes * i) w
  := by
  induction ws generalizing a with
  | nil => simp [storeEvents] at h
  | cons v ws ih =>
    rcases List.mem_cons.mp h with rfl | h
    · use 0, v, by simp
      rfl
    · obtain ⟨i, w, hi, rfl⟩ := ih h
      use i + 1, w, by simpa using hi
      congr 1
      ring

theorem misses_of_storeEvents {ws : List UInt64} (h : ∀ e ∈ storeEvents a ws, e.Avoids area) (hi : i < ws.length) :
  area.Misses (a + wordBytes * i)
  := by
  induction ws generalizing a i with
  | nil => simp at hi
  | cons w ws ih =>
    cases i with
    | zero => exact h (.store a w) (by simp [storeEvents])
    | succ i =>
      have hmiss := ih (fun e he => h e (List.mem_cons_of_mem _ he)) (by simpa using hi)
      rwa [show a + wordBytes * (i + 1) = a + wordBytes + wordBytes * i by ring]

theorem misses_of_loadEvents {m : Memory} (h : ∀ e ∈ loadEvents m a count, e.Avoids area) (hi : i < count) :
  area.Misses (a + wordBytes * i)
  := by
  apply h (.load (a + wordBytes * i) (m.word (a + wordBytes * i)))
  unfold loadEvents
  rw [List.mem_map]
  exact ⟨i, List.mem_range.mpr hi, rfl⟩

namespace Store

/-! ## Matching stores -/

/-- Outside of an area the memories are the same, and the same has been seen. -/
structure Matches (area : Area) (s t : Store) : Prop where
  memory : ∀ x, ¬area.Holds x → s.memory x = t.memory x
  trace : s.trace = t.trace

variable {area : Area} {s t : Store}

theorem Matches.word (h : Matches area s t) (ha : area.Misses a) :
  s.memory.word a = t.memory.word a
  := by
  apply Memory.word_congr
  intro x hx hx'
  exact h.memory x (ha x hx hx')

theorem log_false (events : List Event) :
  (s.log (fun _ => false) events).trace = s.trace ++ events
  := by
  have hseen : ∀ e ∈ events, e.isSeen (fun _ => false) = true := by
    intro e _
    cases e <;> rfl
  simp [log, List.filter_eq_self.mpr hseen]

/-- Events that avoid the area are seen on both sides. -/
theorem Matches.log
    (h : Matches area s t) (events : List Event) (havoid : ∀ e ∈ events, e.Avoids area) :
  Matches area (s.log (fun _ => false) events) (t.log area.hides events)
  := by
  constructor
  · exact h.memory
  · have hseen : events.filter (·.isSeen area.hides) = events :=
      List.filter_eq_self.mpr fun e he => Event.isSeen_of_avoids (havoid e he)
    rw [log_false, Store.log, hseen, h.trace]

/-- Loads that avoid the area give the same words. -/
theorem Matches.read (h : Matches area s t) (havoid : ∀ e ∈ loadEvents s.memory a count, e.Avoids area) :
  (s.read (fun _ => false) a count).1 = (t.read area.hides a count).1
    ∧ Matches area (s.read (fun _ => false) a count).2 (t.read area.hides a count).2
  := by
  have hword : ∀ i ∈ List.range count,
      s.memory.word (a + wordBytes * i) = t.memory.word (a + wordBytes * i) := by
    intro i hi
    exact h.word (misses_of_loadEvents havoid (List.mem_range.mp hi))
  have hevents : loadEvents s.memory a count = loadEvents t.memory a count := by
    apply List.map_congr_left
    intro i hi
    rw [hword i hi]
  constructor
  · exact List.map_congr_left hword
  · unfold Store.read
    simp only
    rw [← hevents]
    exact h.log _ havoid

/-- Stores that avoid the area are the same on both sides. -/
theorem Matches.write (h : Matches area s t) (havoid : ∀ e ∈ storeEvents a ws, e.Avoids area) :
  Matches area (s.write (fun _ => false) a ws) (t.write area.hides a ws)
  := by
  constructor
  · intro x hx
    exact Memory.setWords_congr a ws (h.memory x hx)
  · exact (h.log _ havoid).trace

theorem write_of_avoids {x : Nat} (havoid : ∀ e ∈ storeEvents a ws, e.Avoids area) (hx : area.Holds x) :
  (t.write area.hides a ws).memory x = t.memory x
  := by
  apply Memory.setWords_outside
  by_contra hin
  have hpos : 0 < wordBytes := by decide
  set i := (x - a) / wordBytes with hi
  have hmod := Nat.div_add_mod (x - a) wordBytes
  have hlt := Nat.mod_lt (x - a) hpos
  rw [← hi] at hmod
  have hlength : i < ws.length := by
    by_contra hle
    have hmul : wordBytes * ws.length ≤ wordBytes * i := Nat.mul_le_mul_left _ (by omega)
    omega
  apply misses_of_storeEvents havoid hlength x (by omega) (by omega) hx

/-! ## Work inside the area -/

/-- So many words from an address on lie in an area. -/
def Inside (area : Area) (a count : Nat) : Prop :=
  area.start ≤ a ∧ a + wordBytes * count ≤ area.stop

theorem Inside.hides (h : Inside area a count) (hi : i < count) :
  area.hides (a + wordBytes * i) = true
  := by
  obtain ⟨hstart, hstop⟩ := h
  have hmul : wordBytes * (i + 1) ≤ wordBytes * count := Nat.mul_le_mul_left _ hi
  have hexpand : wordBytes * (i + 1) = wordBytes * i + wordBytes := by ring
  simp only [Area.hides, Bool.and_eq_true, decide_eq_true_eq]
  omega

theorem log_eq_self {hidden : Nat → Bool} {events : List Event}
    (h : ∀ e ∈ events, e.isSeen hidden = false) :
  t.log hidden events = t
  := by
  have hnone : events.filter (·.isSeen hidden) = [] := by
    rw [List.filter_eq_nil_iff]
    intro e he
    simp [h e he]
  simp [log, hnone]

/-- A load from inside the area is not seen. -/
theorem read_inside (h : Inside area a count) :
  t.read area.hides a count = (t.memory.words a count, t)
  := by
  have hevents : ∀ e ∈ loadEvents t.memory a count, e.isSeen area.hides = false := by
    intro e he
    obtain ⟨i, hi, rfl⟩ := List.mem_map.mp he
    simp [Event.isSeen, h.hides (List.mem_range.mp hi)]
  rw [Store.read, log_eq_self hevents]

end Store

end FormCompiler.Machine
