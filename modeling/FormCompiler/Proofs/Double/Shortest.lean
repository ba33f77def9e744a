import FormCompiler.Double.Text
import FormCompiler.Proofs.Double.Nearest

/-!
# Shortest decimals denote their doubles

The search for the shortest decimal of a double ends on a grid of at most seventeen digits, since the
numbers near a double reach further than one step of that grid. So what it finds is near the double
(`shortest_spec`), and every decimal that is near a double reads as the double (`ofDecimal_eq`).
-/

namespace FormCompiler.Double

/-! ## Powers of ten -/

theorem ten_zpow (k : ℤ) :
  (10 : ℚ) ^ k = (tenPow k.toNat : ℚ) / tenPow (-k).toNat
  := by
  obtain ⟨n, rfl | rfl⟩ := k.eq_nat_or_neg
  · simp [tenPow]
  · rcases Nat.eq_zero_or_pos n with rfl | hn
    · simp [tenPow]
    · have : (-(n : ℤ)).toNat = 0 := by omega
      simp [tenPow, this]

theorem tenPow_pos (n : ℕ) :
  0 < tenPow n
  := Nat.pow_pos (by decide)

theorem lt_ten_zpow_digitCount (n : ℕ) :
  (n : ℚ) < 10 ^ (digitCount n : ℤ)
  := by
  have hlt : n < 10 ^ digitCount n :=
    (Nat.length_toDigits_le_iff (by decide) Nat.length_toDigits_pos).mp le_rfl
  rw [zpow_natCast]
  exact_mod_cast hlt

theorem ten_zpow_digitCount_le {n : ℕ} (hn : 0 < n) :
  (10 : ℚ) ^ ((digitCount n : ℤ) - 1) ≤ n
  := by
  obtain ⟨d, hd⟩ : ∃ d, digitCount n = d + 1 :=
    ⟨digitCount n - 1, by have : 0 < digitCount n := Nat.length_toDigits_pos; omega⟩
  have hle : 10 ^ d ≤ n := by
    rcases Nat.eq_zero_or_pos d with rfl | hpos
    · exact hn
    · have hnot := mt (Nat.length_toDigits_le_iff (b := 10) (n := n) (by decide) hpos).mpr
        (by unfold digitCount at hd; omega)
      omega
  rw [hd, show ((d + 1 : ℕ) : ℤ) - 1 = d by push_cast; ring, zpow_natCast]
  exact_mod_cast hle

/-- The decimal exponent of a quotient is not too large. -/
theorem ten_zpow_decimalExponent_le {num den : ℕ} (hnum : 0 < num) (hden : 0 < den) :
  (10 : ℚ) ^ (decimalExponent num den - 1) ≤ num / den
  := by
  have hnumQ : (0 : ℚ) < num := by exact_mod_cast hnum
  have hdenQ : (0 : ℚ) < den := by exact_mod_cast hden
  unfold decimalExponent
  split
  · next hle =>
    have hpos : 0 < num / den := Nat.div_pos hle hden
    apply le_trans (ten_zpow_digitCount_le hpos)
    apply Nat.cast_div_le
  · next hlt =>
    -- `1 / x` is at most one more than the quotient whose digits are counted
    have hlt10 := lt_ten_zpow_digitCount ((den - 1) / num)
    set d := digitCount ((den - 1) / num)
    rw [zpow_natCast] at hlt10
    have hquot : (den - 1) / num < 10 ^ d := by exact_mod_cast hlt10
    have hden10 : den ≤ 10 ^ d * num := by
      have := (Nat.div_lt_iff_lt_mul hnum).mp hquot
      omega
    have hden10Q : (den : ℚ) ≤ 10 ^ d * num := by exact_mod_cast hden10
    rw [show (1 - (d : ℤ) - 1) = -(d : ℤ) by ring, zpow_neg, zpow_natCast, inv_eq_one_div,
      div_le_div_iff₀ (by positivity) hdenQ]
    linarith

/-! ## Intervals -/

theorem Interval.den_pos (m : ℕ) (q : ℤ) :
  0 < (Interval.ofBinary m q).den
  := Nat.pow_pos (by decide)

private theorem unit_div_den (q : ℤ) :
  (twoPow (q - 2).toNat : ℚ) / twoPow (2 - q).toNat = 2 ^ q / 4
  := by
  have hscaled := scaled_div 1 1 (2 - q)
  have hquarter : (2 : ℚ) ^ q / 4 = 1 / 1 / 2 ^ (2 - q) := by
    rw [zpow_sub₀ (by norm_num)]
    norm_num
  rw [hquarter, ← Nat.cast_one, ← hscaled]
  simp [scaled]

theorem Interval.value_div_den (m : ℕ) (q : ℤ) :
  ((Interval.ofBinary m q).value : ℚ) / (Interval.ofBinary m q).den = m * 2 ^ q
  := by
  simp only [Interval.ofBinary]
  push_cast
  rw [mul_div_assoc, unit_div_den]
  ring

theorem Interval.high_div_den (m : ℕ) (q : ℤ) :
  ((Interval.ofBinary m q).high : ℚ) / (Interval.ofBinary m q).den = (m + 1 / 2) * 2 ^ q
  := by
  simp only [Interval.ofBinary]
  push_cast
  rw [mul_div_assoc, unit_div_den]
  ring

theorem Interval.low_div_den {m : ℕ} (hm : 0 < m) (q : ℤ) :
  ((Interval.ofBinary m q).low : ℚ) / (Interval.ofBinary m q).den = (m - reach m) * 2 ^ q
  := by
  simp only [Interval.ofBinary, reach]
  split
  · rw [Nat.cast_mul, Nat.cast_sub (by omega), mul_div_assoc, unit_div_den]
    push_cast
    ring
  · rw [Nat.cast_mul, Nat.cast_sub (by omega), mul_div_assoc, unit_div_den]
    push_cast
    ring

/-- The position of a decimal in an interval, as a number. -/
private theorem Interval.le_point_iff (bound den n : ℕ) (k : ℤ) (hden : 0 < den) :
  (bound * tenPow (-k).toNat ≤ n * tenPow k.toNat * den ↔ (bound : ℚ) / den ≤ n * 10 ^ k) ∧
    (n * tenPow k.toNat * den ≤ bound * tenPow (-k).toNat ↔ (n : ℚ) * 10 ^ k ≤ bound / den)
  := by
  have hdenQ : (0 : ℚ) < den := by exact_mod_cast hden
  have hunit : (0 : ℚ) < tenPow (-k).toNat := by exact_mod_cast tenPow_pos _
  rw [ten_zpow, ← mul_div_assoc, div_le_div_iff₀ hdenQ hunit, div_le_div_iff₀ hunit hdenQ]
  constructor <;> norm_cast

/-- What an interval contains is near the double. -/
theorem Interval.isNear_of_contains
    {m n : ℕ} {q k : ℤ} (hm : 0 < m) (h : (Interval.ofBinary m q).contains n k = true) :
  IsNear m q (n * 10 ^ k)
  := by
  obtain ⟨hlow, hlow'⟩ := Interval.le_point_iff (Interval.ofBinary m q).low _ n k
    (Interval.den_pos m q)
  obtain ⟨hhigh', hhigh⟩ := Interval.le_point_iff (Interval.ofBinary m q).high _ n k
    (Interval.den_pos m q)
  rw [Interval.low_div_den hm] at hlow hlow'
  rw [Interval.high_div_den] at hhigh hhigh'
  unfold Interval.contains at h
  split at h
  · next hclosed =>
    simp only [Bool.and_eq_true, decide_eq_true_eq] at h
    refine ⟨hlow.mp h.1, hhigh.mp h.2, ?_⟩
    intro hodd
    simp [Interval.ofBinary, hodd] at hclosed
  · simp only [Bool.and_eq_true, decide_eq_true_eq] at h
    have hlt : ((m : ℚ) - reach m) * 2 ^ q < n * 10 ^ k :=
      not_le.mp (fun hle => absurd (hlow'.mpr hle) (by omega))
    have hlt' : (n : ℚ) * 10 ^ k < (m + 1 / 2) * 2 ^ q :=
      not_le.mp (fun hle => absurd (hhigh'.mpr hle) (by omega))
    exact ⟨hlt.le, hlt'.le, fun _ => ⟨hlt, hlt'⟩⟩

/-- Numbers strictly inside an interval are contained in it. -/
theorem Interval.contains_of_lt
    {m n : ℕ} {q k : ℤ} (hm : 0 < m) (hlow : ((m : ℚ) - reach m) * 2 ^ q < n * 10 ^ k)
    (hhigh : (n : ℚ) * 10 ^ k < (m + 1 / 2) * 2 ^ q) :
  (Interval.ofBinary m q).contains n k = true
  := by
  obtain ⟨-, hl⟩ := Interval.le_point_iff (Interval.ofBinary m q).low _ n k (Interval.den_pos m q)
  obtain ⟨hh, -⟩ := Interval.le_point_iff (Interval.ofBinary m q).high _ n k (Interval.den_pos m q)
  rw [Interval.low_div_den hm] at hl
  rw [Interval.high_div_den] at hh
  have hlow' := not_le.mp (fun hle => absurd (hl.mp hle) (not_le.mpr hlow))
  have hhigh' := not_le.mp (fun hle => absurd (hh.mp hle) (not_le.mpr hhigh))
  unfold Interval.contains
  split
  · simp only [Bool.and_eq_true, decide_eq_true_eq]
    exact ⟨hlow'.le, hhigh'.le⟩
  · simp only [Bool.and_eq_true, decide_eq_true_eq]
    exact ⟨hlow', hhigh'⟩

/-! ## The search -/

theorem Interval.contains_of_onGrid?
    {i : Interval} {k : ℤ} {n : ℕ} (h : i.onGrid? k = some n) :
  i.contains n k = true
  := by
  unfold Interval.onGrid? at h
  simp only at h
  split at h
  · obtain rfl := Option.some.inj h
    split <;> assumption
  · obtain rfl := Option.some.inj h
    assumption
  · obtain rfl := Option.some.inj h
    assumption
  · simp at h

/-- A grid whose steps are smaller than an interval has a point in it. -/
theorem Interval.isSome_onGrid?
    {m : ℕ} {q k : ℤ} (hm : 0 < m) (hstep : (10 : ℚ) ^ k < (reach m + 1 / 2) * 2 ^ q) :
  ((Interval.ofBinary m q).onGrid? k).isSome = true
  := by
  set i := Interval.ofBinary m q with hi
  have hden : 0 < i.den * tenPow k.toNat := Nat.mul_pos (Interval.den_pos m q) (tenPow_pos _)
  have hdenQ : (0 : ℚ) < (i.den * tenPow k.toNat : ℕ) := by exact_mod_cast hden
  have hkpos : (0 : ℚ) < 10 ^ k := by positivity
  have hqpos : (0 : ℚ) < 2 ^ q := by positivity
  have hreach : (0 : ℚ) < reach m := by
    unfold reach
    split <;> norm_num
  set below := i.value * tenPow (-k).toNat / (i.den * tenPow k.toNat) with hbelow
  have hquot : ((i.value * tenPow (-k).toNat : ℕ) : ℚ) / (i.den * tenPow k.toNat : ℕ)
      = m * 2 ^ q / 10 ^ k := by
    rw [← Interval.value_div_den, ten_zpow, ← hi]
    push_cast
    rw [div_div_div_eq]
  -- the value lies between the two points of the grid
  have hlow : (below : ℚ) * 10 ^ k ≤ m * 2 ^ q := by
    rw [← le_div_iff₀ hkpos, ← hquot]
    apply Nat.cast_div_le
  have hhigh : (m : ℚ) * 2 ^ q < ((below + 1 : ℕ) : ℚ) * 10 ^ k := by
    rw [← div_lt_iff₀ hkpos, ← hquot, div_lt_iff₀ hdenQ]
    exact_mod_cast (Nat.div_lt_iff_lt_mul hden).mp (Nat.lt_succ_self below)
  have hone : i.contains below k = true ∨ i.contains (below + 1) k = true := by
    by_contra hnone
    rw [not_or] at hnone
    have h1 : (below : ℚ) * 10 ^ k ≤ (m - reach m) * 2 ^ q := by
      by_contra hlt
      exact hnone.1 (Interval.contains_of_lt hm (not_le.mp hlt) (by nlinarith))
    have h2 : ((m : ℚ) + 1 / 2) * 2 ^ q ≤ ((below + 1 : ℕ) : ℚ) * 10 ^ k := by
      by_contra hlt
      exact hnone.2 (Interval.contains_of_lt hm (by nlinarith) (not_le.mp hlt))
    push_cast at h2
    nlinarith
  unfold Interval.onGrid?
  simp only [← hbelow]
  split
  · rfl
  · rfl
  · rfl
  · next hfalse hfalse' => simp [hfalse, hfalse'] at hone

theorem Interval.onGrid?_search
    {i : Interval} {e : ℤ} {tries count : ℕ} (h : (i.onGrid? (e - ((count + tries : ℕ) : ℤ))).isSome) :
  i.onGrid? (i.search e tries count).2 = some (i.search e tries count).1
  := by
  induction tries generalizing count with
  | zero =>
    obtain ⟨n, hn⟩ := Option.isSome_iff_exists.mp h
    rw [Nat.add_zero] at hn
    simp [Interval.search, hn]
  | succ tries ih =>
    rw [Interval.search]
    split
    · assumption
    · apply ih
      rwa [show count + 1 + tries = count + (tries + 1) by omega]

/-- The numbers near a double reach further than one step of the grid of seventeen digits. -/
theorem ten_zpow_lt_width {m : ℕ} {q : ℤ} (hc : IsCanonical m q) :
  (10 : ℚ) ^ (decimalExponent (Interval.ofBinary m q).value (Interval.ofBinary m q).den - 17)
    < (reach m + 1 / 2) * 2 ^ q
  := by
  have hvalue : 0 < (Interval.ofBinary m q).value :=
    Nat.mul_pos (Nat.mul_pos (by decide) hc.pos) (Nat.pow_pos (by decide))
  have hexponent := ten_zpow_decimalExponent_le hvalue (Interval.den_pos m q)
  rw [Interval.value_div_den] at hexponent
  set e := decimalExponent (Interval.ofBinary m q).value (Interval.ofBinary m q).den
  have hsplit : (10 : ℚ) ^ (e - 17) = 10 ^ (e - 1) / 10 ^ 16 := by
    rw [show e - 17 = e - 1 - 16 by ring, zpow_sub₀ (by norm_num)]
    norm_num
  have hqpos : (0 : ℚ) < 2 ^ q := by positivity
  have hm : (m : ℚ) / 10 ^ 16 < reach m + 1 / 2 := by
    unfold reach
    split
    · next h =>
      rw [h]
      norm_num [hiddenBit, twoPow]
    · have hlt : m < 2 ^ 53 := by simpa [hiddenBit, twoPow] using hc.lt
      have hltQ : (m : ℚ) < 2 ^ 53 := by exact_mod_cast hlt
      rw [div_lt_iff₀ (by norm_num)]
      linarith
  calc (10 : ℚ) ^ (e - 17) = 10 ^ (e - 1) / 10 ^ 16 := hsplit
    _ ≤ m * 2 ^ q / 10 ^ 16 := by gcongr
    _ = m / 10 ^ 16 * 2 ^ q := by ring
    _ < (reach m + 1 / 2) * 2 ^ q := by gcongr

/-- The shortest decimal of a double is near the double. -/
theorem shortest_spec {m : ℕ} {q : ℤ} (hc : IsCanonical m q) :
  ∃ (n : ℕ) (k : ℤ), IsNear m q (n * 10 ^ k) ∧
    shortest m q = ⟨dropTrailingZeros (Nat.toDigits 10 n), (Nat.toDigits 10 n).length + k⟩
  := by
  set i := Interval.ofBinary m q with hi
  set found := i.search (decimalExponent i.value i.den) 16 1 with hfound
  have hgrid : i.onGrid? found.2 = some found.1 := by
    apply Interval.onGrid?_search
    apply Interval.isSome_onGrid? hc.pos
    exact ten_zpow_lt_width hc
  use found.1, found.2
  constructor
  · exact Interval.isNear_of_contains hc.pos (Interval.contains_of_onGrid? hgrid)
  · rfl

/-! ## Decimals -/

private theorem ten_zpow_lt_minimum :
  (10 : ℚ) ^ (-327 : ℤ) < 1 / 2 * 2 ^ minExponent
  := by
  have hnat : 2 ^ 1075 < 10 ^ 327 := by decide +kernel
  have hcast : (2 : ℚ) ^ 1075 < 10 ^ 327 := by exact_mod_cast hnat
  have hhalf : (1 : ℚ) / 2 * 2 ^ minExponent = (2 ^ 1075)⁻¹ := by
    rw [minExponent, ← zpow_natCast, ← zpow_neg, one_div, ← zpow_neg_one, ← zpow_add₀ two_ne_zero]
    rfl
  rw [hhalf, show (-327 : ℤ) = -((327 : ℕ) : ℤ) from rfl, zpow_neg, zpow_natCast]
  exact inv_strictAnti₀ (by positivity) hcast

private theorem maximum_lt_ten_zpow :
  (2 : ℚ) ^ 53 * 2 ^ (971 : ℤ) < 10 ^ (310 : ℤ)
  := by
  have hnat : 2 ^ 53 * 2 ^ 971 < 10 ^ 310 := by decide +kernel
  have hcast : (2 : ℚ) ^ 53 * 2 ^ 971 < 10 ^ 310 := by exact_mod_cast hnat
  rw [show (971 : ℤ) = ((971 : ℕ) : ℤ) from rfl, show (310 : ℤ) = ((310 : ℕ) : ℤ) from rfl,
    zpow_natCast, zpow_natCast]
  exact hcast

/-- A number near a double has few digits before and after the point. -/
theorem size_of_isNear
    {m s : ℕ} {q e : ℤ} (hc : IsCanonical m q) (hs : 0 < s) (hnear : IsNear m q (s * 10 ^ e)) :
  -326 ≤ digitCount s + e ∧ digitCount s + e ≤ 310
  := by
  obtain ⟨hlow, hhigh, -⟩ := hnear
  have hmpos : (1 : ℚ) ≤ m := by exact_mod_cast hc.pos
  have hreach : reach m ≤ 1 / 2 := by
    unfold reach
    split <;> norm_num
  have hepos : (0 : ℚ) < 10 ^ e := by positivity
  constructor
  · by_contra hlt
    apply lt_irrefl ((s : ℚ) * 10 ^ e)
    calc (s : ℚ) * 10 ^ e < 10 ^ (digitCount s : ℤ) * 10 ^ e := by
          gcongr
          exact lt_ten_zpow_digitCount s
      _ = 10 ^ ((digitCount s : ℤ) + e) := by rw [zpow_add₀ (by norm_num)]
      _ ≤ 10 ^ (-327 : ℤ) := zpow_le_zpow_right₀ (by norm_num) (by omega)
      _ < 1 / 2 * 2 ^ minExponent := ten_zpow_lt_minimum
      _ ≤ 1 / 2 * 2 ^ q := by
          gcongr
          · norm_num
          · exact hc.minExponent_le
      _ ≤ (m - reach m) * 2 ^ q := by
          gcongr
          linarith
      _ ≤ s * 10 ^ e := hlow
  · by_contra hgt
    have hm : (m : ℚ) + 1 / 2 ≤ 2 ^ 53 := by
      have hlt : m < 2 ^ 53 := by simpa [hiddenBit, twoPow] using hc.lt
      have : (m : ℚ) + 1 ≤ 2 ^ 53 := by exact_mod_cast hlt
      linarith
    apply lt_irrefl ((s : ℚ) * 10 ^ e)
    calc (s : ℚ) * 10 ^ e ≤ (m + 1 / 2) * 2 ^ q := hhigh
      _ ≤ 2 ^ 53 * 2 ^ (971 : ℤ) := by
          gcongr
          · norm_num
          · exact hc.le_max
      _ < 10 ^ (310 : ℤ) := maximum_lt_ten_zpow
      _ ≤ 10 ^ ((digitCount s : ℤ) - 1 + e) := zpow_le_zpow_right₀ (by norm_num) (by omega)
      _ = 10 ^ ((digitCount s : ℤ) - 1) * 10 ^ e := by rw [zpow_add₀ (by norm_num)]
      _ ≤ s * 10 ^ e := by
          gcongr
          exact ten_zpow_digitCount_le hs

/-- A decimal near a double reads as the double. -/
theorem ofDecimal_eq
    {m s : ℕ} {q e : ℤ} (hc : IsCanonical m q) (hs : 0 < s) (hnear : IsNear m q (s * 10 ^ e)) :
  ofDecimal s e = encode m q
  := by
  obtain ⟨hlow, hhigh⟩ := size_of_isNear hc hs hnear
  rw [ofDecimal, if_neg (by omega), if_neg (by omega)]
  apply nearest_eq_encode hc (tenPow_pos _)
  rwa [Nat.cast_mul, mul_div_assoc, ← ten_zpow]

end FormCompiler.Double
