import FormCompiler.Double.Basic
import Mathlib.Tactic

/-!
# The double closest to a quotient

A double `m * 2 ^ q` is *canonical* if its significand uses all of its bits, or its exponent is the
least one. `IsNear m q x` says that the number `x` lies between the points half way to the two
neighbours of the double; the points themselves belong to it if `m` is even. Main statement:
`nearest_eq_encode`, every quotient that is near a canonical double is rounded to it.
-/

namespace FormCompiler.Double

/-- A double as `view` gives it, other than zero. -/
structure IsCanonical (m : ℕ) (q : ℤ) : Prop where
  pos : 0 < m
  lt : m < 2 * hiddenBit
  minExponent_le : minExponent ≤ q
  le_max : q ≤ 971
  /-- Only the least exponent goes with a smaller significand. -/
  full : hiddenBit ≤ m ∨ q = minExponent

/-- How far below a significand numbers are still near it; the doubles below `2 ^ 52` lie closer. -/
def reach (m : ℕ) : ℚ := if m = hiddenBit then 1 / 4 else 1 / 2

/-- Whether a number lies between the middles to the neighbours of a double. -/
def IsNear (m : ℕ) (q : ℤ) (x : ℚ) : Prop :=
  (m - reach m) * 2 ^ q ≤ x ∧ x ≤ (m + 1 / 2) * 2 ^ q ∧
    (m % 2 = 1 → (m - reach m) * 2 ^ q < x ∧ x < (m + 1 / 2) * 2 ^ q)

/-! ## Rounding a quotient to an integer -/

/-- A quotient less than one half away from an integer, or one half away from an even one, is
rounded to it. -/
theorem roundedQuotient_eq
    {num den m : ℕ} (hden : 0 < den) (hlow : (m : ℚ) - 1 / 2 ≤ num / den)
    (hhigh : (num : ℚ) / den ≤ m + 1 / 2)
    (hodd : m % 2 = 1 → (m : ℚ) - 1 / 2 < num / den ∧ (num : ℚ) / den < m + 1 / 2) :
  roundedQuotient num den = m
  := by
  have hdenQ : (0 : ℚ) < den := by exact_mod_cast hden
  have hlow' : 2 * (m * den) ≤ 2 * num + den := by
    rw [le_div_iff₀ hdenQ] at hlow
    have : (2 : ℚ) * (m * den) ≤ 2 * num + den := by linarith
    exact_mod_cast this
  have hhigh' : 2 * num ≤ 2 * (m * den) + den := by
    rw [div_le_iff₀ hdenQ] at hhigh
    have : (2 : ℚ) * num ≤ 2 * (m * den) + den := by linarith
    exact_mod_cast this
  have hodd' : m % 2 = 1 → 2 * (m * den) < 2 * num + den ∧ 2 * num < 2 * (m * den) + den := by
    intro hm
    obtain ⟨hl, hh⟩ := hodd hm
    rw [lt_div_iff₀ hdenQ] at hl
    rw [div_lt_iff₀ hdenQ] at hh
    constructor
    · have : (2 : ℚ) * (m * den) < 2 * num + den := by linarith
      exact_mod_cast this
    · have : (2 : ℚ) * num < 2 * (m * den) + den := by linarith
      exact_mod_cast this
  have hnum := Nat.div_add_mod num den
  have hrest := Nat.mod_lt num hden
  unfold roundedQuotient
  set q := num / den
  set r := num % den
  -- the integer is the rounded down quotient or the next one
  have hq : m = q ∨ m = q + 1 := by
    have hle : q ≤ m := by
      by_contra hlt
      have : (m + 1) * den ≤ q * den := Nat.mul_le_mul_right den (by omega)
      nlinarith
    have hge : m ≤ q + 1 := by
      by_contra hlt
      have : (q + 2) * den ≤ m * den := Nat.mul_le_mul_right den (by omega)
      nlinarith
    omega
  have hcomm : den * q = q * den := Nat.mul_comm den q
  have hsucc : (q + 1) * den = q * den + den := Nat.succ_mul q den
  rcases hq with hm | hm
  · rw [hm] at hlow' hhigh' hodd' ⊢
    rw [if_neg]
    omega
  · rw [hm] at hlow' hhigh' hodd' ⊢
    rw [if_pos]
    omega

/-! ## The exponent of a quotient -/

theorem scaled_div (num den : ℕ) (e : ℤ) :
  ((scaled num den e).1 : ℚ) / (scaled num den e).2 = num / den / 2 ^ e
  := by
  obtain ⟨n, rfl | rfl⟩ := e.eq_nat_or_neg
  · simp [scaled, twoPow, div_div]
  · simp only [scaled, twoPow, neg_neg, Int.toNat_natCast, Nat.pow_eq, zpow_neg, zpow_natCast,
      div_inv_eq_mul]
    rcases Nat.eq_zero_or_pos n with rfl | hn
    · simp
    · have : (-(n : ℤ)).toNat = 0 := by omega
      rw [this]
      push_cast
      ring

theorem scaled_den_pos {den : ℕ} (hden : 0 < den) (num : ℕ) (e : ℤ) :
  0 < (scaled num den e).2
  := Nat.mul_pos hden (Nat.pow_pos (by decide))

/-- The exponent of the unit in which `nearest` counts. -/
def unitExponent (num den : ℕ) : ℤ :=
  let guess := max ((num.log2 : ℤ) - den.log2 - 53) minExponent
  let low := scaled num den guess
  if 2 * hiddenBit ≤ low.1 / low.2 then guess + 1 else guess

theorem nearest_eq {num : ℕ} (hnum : num ≠ 0) (den : ℕ) :
  nearest num den
    = encode (roundedQuotient (scaled num den (unitExponent num den)).1
        (scaled num den (unitExponent num den)).2) (unitExponent num den)
  := by
  rw [nearest, if_neg hnum]
  rfl

private theorem two_zpow_log2_le {n : ℕ} (hn : n ≠ 0) :
  (2 : ℚ) ^ (n.log2 : ℤ) ≤ n
  := by
  rw [zpow_natCast]
  exact_mod_cast Nat.log2_self_le hn

private theorem lt_two_zpow_log2 (n : ℕ) :
  (n : ℚ) < 2 ^ ((n.log2 : ℤ) + 1)
  := by
  have hlt : n < 2 ^ (n.log2 + 1) := Nat.lt_log2_self
  rw [show ((n.log2 : ℤ) + 1) = ((n.log2 + 1 : ℕ) : ℤ) by push_cast; rfl, zpow_natCast]
  exact_mod_cast hlt

/-- In units of `unitExponent` a quotient has at most 53 bits, and exactly so many unless the
exponent is the least one. -/
theorem unitExponent_spec {num den : ℕ} (hnum : 0 < num) (hden : 0 < den) :
  minExponent ≤ unitExponent num den ∧
    (num : ℚ) / den < 2 ^ (unitExponent num den + 53) ∧
    (2 ^ (unitExponent num den + 52) ≤ (num : ℚ) / den ∨ unitExponent num den = minExponent)
  := by
  have hnumQ : (0 : ℚ) < num := by exact_mod_cast hnum
  have hdenQ : (0 : ℚ) < den := by exact_mod_cast hden
  set x : ℚ := num / den with hx
  -- the logarithms leave a factor of four
  have hlow : (2 : ℚ) ^ ((num.log2 : ℤ) - den.log2 - 1) < x := by
    rw [hx, lt_div_iff₀ hdenQ]
    calc (2 : ℚ) ^ ((num.log2 : ℤ) - den.log2 - 1) * den
        < 2 ^ ((num.log2 : ℤ) - den.log2 - 1) * 2 ^ ((den.log2 : ℤ) + 1) :=
          mul_lt_mul_of_pos_left (lt_two_zpow_log2 den) (by positivity)
      _ = 2 ^ (num.log2 : ℤ) := by
          rw [← zpow_add₀ (by norm_num)]
          ring_nf
      _ ≤ num := two_zpow_log2_le (by omega)
  have hhigh : x < (2 : ℚ) ^ ((num.log2 : ℤ) - den.log2 + 1) := by
    rw [hx, div_lt_iff₀ hdenQ]
    calc (num : ℚ) < 2 ^ ((num.log2 : ℤ) + 1) := lt_two_zpow_log2 num
      _ = 2 ^ ((num.log2 : ℤ) - den.log2 + 1) * 2 ^ (den.log2 : ℤ) := by
          rw [← zpow_add₀ (by norm_num)]
          ring_nf
      _ ≤ 2 ^ ((num.log2 : ℤ) - den.log2 + 1) * den :=
          mul_le_mul_of_nonneg_left (two_zpow_log2_le (by omega)) (by positivity)
  set guess := max ((num.log2 : ℤ) - den.log2 - 53) minExponent with hguess
  have hscaled : ((scaled num den guess).1 : ℚ) / (scaled num den guess).2 = x / 2 ^ guess :=
    scaled_div num den guess
  have hposition : 2 * hiddenBit ≤ (scaled num den guess).1 / (scaled num den guess).2
      ↔ (2 : ℚ) ^ (guess + 53) ≤ x := by
    have hpos := scaled_den_pos hden num guess
    have hposQ : (0 : ℚ) < (scaled num den guess).2 := by exact_mod_cast hpos
    rw [Nat.le_div_iff_mul_le hpos, zpow_add₀ (by norm_num), mul_comm ((2 : ℚ) ^ guess),
      ← le_div_iff₀ (by positivity), ← hscaled, le_div_iff₀ hposQ]
    simp only [hiddenBit, twoPow, Nat.pow_eq]
    norm_cast
  have hunit : unitExponent num den
      = if 2 * hiddenBit ≤ (scaled num den guess).1 / (scaled num den guess).2 then guess + 1
        else guess := rfl
  have hle : minExponent ≤ guess := le_max_right _ _
  by_cases hbig : (2 : ℚ) ^ (guess + 53) ≤ x
  · rw [hunit, if_pos (hposition.mpr hbig)]
    refine ⟨by omega, ?_, .inl (by rwa [show guess + 1 + 52 = guess + 53 by ring])⟩
    apply lt_of_lt_of_le hhigh
    apply zpow_le_zpow_right₀ (by norm_num)
    omega
  · rw [hunit, if_neg (fun h => hbig (hposition.mp h))]
    refine ⟨hle, not_le.mp hbig, ?_⟩
    rcases max_choice ((num.log2 : ℤ) - den.log2 - 53) minExponent with hmax | hmax
    · left
      apply le_trans _ hlow.le
      apply zpow_le_zpow_right₀ (by norm_num)
      omega
    · right
      exact hmax

/-! ## Rounding to a double -/

private theorem hiddenBit_cast :
  (hiddenBit : ℚ) = 2 ^ (52 : ℤ)
  := by
  norm_num [hiddenBit, twoPow]

/-- A significand that rounding made a power of two counts as the next power of two. -/
theorem encode_two_mul_hiddenBit {q : ℤ} (hq : minExponent ≤ q - 1) :
  encode (2 * hiddenBit) (q - 1) = encode hiddenBit q
  := by
  have hpos : 0 < hiddenBit := Nat.pow_pos (by decide)
  have hexponent : (q + 1075).toNat = (q - 1 + 1075).toNat + 1 := by
    unfold minExponent at hq
    omega
  have hsum : (q - 1 + 1075).toNat * hiddenBit + (2 * hiddenBit - hiddenBit)
      = (q - 1 + 1075).toNat * hiddenBit + hiddenBit + (hiddenBit - hiddenBit) := by omega
  rw [encode, encode, if_neg (by omega), if_neg (by omega), hexponent, hsum, Nat.succ_mul]

/-- The unit of a number near a double is that of the double, or half of it just below a power
of two. -/
theorem unitExponent_of_isNear
    {m num den : ℕ} {q : ℤ} (hc : IsCanonical m q) (hnum : 0 < num) (hden : 0 < den)
    (hnear : IsNear m q (num / den)) :
  unitExponent num den = q ∨ (unitExponent num den = q - 1 ∧ m = hiddenBit)
  := by
  obtain ⟨hmin, hlt, hge⟩ := unitExponent_spec hnum hden
  obtain ⟨hlow, hhigh, -⟩ := hnear
  set e := unitExponent num den
  have hqpos : (0 : ℚ) < 2 ^ q := by positivity
  have hle : e ≤ q := by
    by_contra hgt
    have hbig := hge.resolve_right (by have := hc.minExponent_le; omega)
    have hstep : (2 : ℚ) ^ (53 : ℤ) * 2 ^ q ≤ 2 ^ (e + 52) := by
      rw [← zpow_add₀ (by norm_num)]
      apply zpow_le_zpow_right₀ (by norm_num)
      omega
    have hm : (m : ℚ) + 1 ≤ 2 ^ (53 : ℤ) := by
      have hlt := hc.lt
      have : m + 1 ≤ 2 ^ 53 := by simpa [hiddenBit, twoPow] using hlt
      norm_num
      exact_mod_cast this
    nlinarith
  rcases eq_or_lt_of_le hle with heq | hsmaller
  · left
    exact heq
  · right
    have hfull : hiddenBit ≤ m := hc.full.resolve_right (by omega)
    have hbelow : (2 : ℚ) ^ (e + 53) ≤ 2 ^ (52 : ℤ) * 2 ^ q := by
      rw [← zpow_add₀ (by norm_num)]
      apply zpow_le_zpow_right₀ (by norm_num)
      omega
    have hm : m = hiddenBit := by
      by_contra hne
      have hsucc : (hiddenBit : ℚ) + 1 ≤ m := by exact_mod_cast (by omega : hiddenBit + 1 ≤ m)
      rw [hiddenBit_cast] at hsucc
      simp only [reach, if_neg hne] at hlow
      nlinarith
    refine ⟨?_, hm⟩
    by_contra hne
    have hfar : (2 : ℚ) ^ (e + 53) ≤ 2 ^ (51 : ℤ) * 2 ^ q := by
      rw [← zpow_add₀ (by norm_num)]
      apply zpow_le_zpow_right₀ (by norm_num)
      omega
    simp only [reach, if_pos hm] at hlow
    rw [hm, hiddenBit_cast] at hlow
    have hgap : ((2 : ℚ) ^ (51 : ℤ)) < 2 ^ (52 : ℤ) - 1 / 4 := by norm_num
    nlinarith

/-- A number near a double is rounded to the double. -/
theorem nearest_eq_encode
    {m num den : ℕ} {q : ℤ} (hc : IsCanonical m q) (hden : 0 < den)
    (hnear : IsNear m q (num / den)) :
  nearest num den = encode m q
  := by
  have hqpos : (0 : ℚ) < 2 ^ q := by positivity
  have hmpos : (1 : ℚ) ≤ m := by exact_mod_cast hc.pos
  have hreach : reach m ≤ 1 / 2 := by
    unfold reach
    split <;> norm_num
  have hnum : 0 < num := by
    rw [Nat.pos_iff_ne_zero]
    rintro rfl
    obtain ⟨hlow, -⟩ := hnear
    simp only [Nat.cast_zero, zero_div] at hlow
    nlinarith
  rw [nearest_eq (by omega)]
  rcases unitExponent_of_isNear hc hnum hden hnear with heq | ⟨heq, hm⟩
  · -- both count in the same unit, in which the number is at most one half away
    rw [heq]
    congr 1
    obtain ⟨hlow, hhigh, hodd⟩ := hnear
    apply roundedQuotient_eq (scaled_den_pos hden num q)
    · rw [scaled_div, le_div_iff₀ hqpos]
      nlinarith
    · rw [scaled_div, div_le_iff₀ hqpos]
      exact hhigh
    · intro hm
      obtain ⟨hl, hh⟩ := hodd hm
      rw [scaled_div, lt_div_iff₀ hqpos, div_lt_iff₀ hqpos]
      constructor
      · nlinarith
      · exact hh
  · -- just below a power of two, the number is rounded up to it
    obtain ⟨-, hlt, -⟩ := unitExponent_spec hnum hden
    rw [heq] at hlt ⊢
    obtain ⟨hlow, -, -⟩ := hnear
    simp only [reach, if_pos hm] at hlow
    rw [hm, hiddenBit_cast] at hlow
    have hhalf : (2 : ℚ) ^ (q - 1) * 2 = 2 ^ q := by
      rw [← zpow_add_one₀ (by norm_num)]
      ring_nf
    have hpower : (2 : ℚ) ^ (q - 1 + 53) = 2 ^ (52 : ℤ) * 2 ^ q := by
      rw [← zpow_add₀ (by norm_num)]
      ring_nf
    have hround : roundedQuotient (scaled num den (q - 1)).1 (scaled num den (q - 1)).2
        = 2 * hiddenBit := by
      have hdouble : ((2 * hiddenBit : ℕ) : ℚ) = 2 * 2 ^ (52 : ℤ) := by
        rw [Nat.cast_mul, hiddenBit_cast, Nat.cast_ofNat]
      apply roundedQuotient_eq (scaled_den_pos hden num (q - 1))
      · rw [scaled_div, le_div_iff₀ (by positivity), hdouble]
        nlinarith
      · rw [scaled_div, div_le_iff₀ (by positivity), hdouble]
        nlinarith
      · intro hodd
        omega
    have hmin : minExponent ≤ q - 1 := heq ▸ (unitExponent_spec hnum hden).1
    rw [hround, hm, encode_two_mul_hiddenBit hmin]

end FormCompiler.Double
