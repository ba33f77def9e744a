import FormCompiler.Word.Basic
import Mathlib.Algebra.Order.Ring.Int
import Mathlib.Data.Int.Bitwise
import Mathlib.Tactic.Linarith
import Mathlib.Tactic.NormNum
import Mathlib.Tactic.Positivity

/-!
# Ranges of integers

Operations on 64-bit numbers that have a result have the exact one, except for a shift to the left, which
drops the bits that there is no room for; and all results are 64-bit numbers. An integer has infinitely many
bits, all but the lower ones being its sign, and the operations on the bits of 64-bit numbers are those on
the bits of the integers.
-/

namespace FormCompiler

theorem isInt64_iff {n : Int} :
  isInt64 n = true ↔ -2 ^ 63 ≤ n ∧ n < 2 ^ 63
  := by
  rw [isInt64, Bool.and_eq_true, decide_eq_true_iff, decide_eq_true_iff]
  rfl

theorem isInt64_toInt (x : BitVec 64) :
  isInt64 x.toInt = true
  := isInt64_iff.mpr ⟨x.le_toInt, x.toInt_lt⟩

theorem isInt64_ofNat {m : Nat} :
  isInt64 (Int.ofNat m) = true ↔ m < 2 ^ 63
  := by
  rw [isInt64_iff, Int.ofNat_eq_natCast]
  omega

theorem isInt64_negSucc {m : Nat} :
  isInt64 (Int.negSucc m) = true ↔ m < 2 ^ 63
  := by
  rw [isInt64_iff]
  omega

namespace Word

variable {a b n : Int}

theorem checked?_eq_some {m : Int} :
  checked? n = some m ↔ m = n ∧ isInt64 n = true
  := by
  unfold checked?
  split
  · next hrange => simp only [Option.some.injEq, hrange, and_true, eq_comm]
  · next hrange => simp [hrange]

theorem div?_eq_some :
  div? a b = some n ↔ n = a.tdiv b ∧ b ≠ 0 ∧ isInt64 (a.tdiv b) = true
  := by
  unfold div?
  split
  · next hzero => simp [hzero]
  · next hne => simp [checked?_eq_some, hne]

theorem mod?_eq_some :
  mod? a b = some n ↔ n = a.tmod b ∧ b ≠ 0 ∧ isInt64 (a.tdiv b) = true
  := by
  rw [mod?, Option.map_eq_some_iff]
  constructor
  · rintro ⟨quotient, hquotient, rfl⟩
    exact ⟨rfl, (div?_eq_some.mp hquotient).2⟩
  · rintro ⟨rfl, hquotient⟩
    exact ⟨_, div?_eq_some.mpr ⟨rfl, hquotient⟩, rfl⟩

/-- A remainder is smaller than the divisor. -/
theorem isInt64_tmod (a : Int) (hb : isInt64 b = true) (hne : b ≠ 0) :
  isInt64 (a.tmod b) = true
  := by
  rw [isInt64_iff] at hb ⊢
  have hlt : (a.tmod b).natAbs < b.natAbs := by
    rw [Int.natAbs_tmod]
    exact Nat.mod_lt _ (Int.natAbs_pos.mpr hne)
  omega

theorem shiftAmount?_eq_some {width amount : Nat} :
  shiftAmount? width n = some amount ↔ 0 ≤ n ∧ n < width ∧ amount = n.toNat
  := by
  unfold shiftAmount?
  split
  · next hrange => simp only [Option.some.injEq, hrange, true_and, eq_comm]
  · next hrange => simp only [reduceCtorEq, ← and_assoc, hrange, false_and]

theorem shiftLeft_eq (a : Int) (amount : Nat) :
  shiftLeft a amount = (a * 2 ^ amount).bmod (2 ^ 64)
  := by
  have hshift : bits a <<< amount = BitVec.ofInt 64 (a * 2 ^ amount) := by
    rw [BitVec.ofInt_mul, BitVec.shiftLeft_eq_mul_twoPow, bits]
    congr 1
    apply BitVec.eq_of_toNat_eq
    rw [BitVec.toNat_twoPow, BitVec.toNat_ofInt]
    exact_mod_cast (Int.toNat_natCast _).symm
  rw [shiftLeft, hshift, BitVec.toInt_ofInt]

theorem shiftRight_eq (a : Int) (amount : Nat) :
  shiftRight a amount = a.fdiv (2 ^ amount)
  := by
  rw [shiftRight, Int.shiftRight_eq_div_pow, Int.fdiv_eq_ediv_of_nonneg _ (by positivity)]
  norm_num

theorem isInt64_shiftRight (ha : isInt64 a = true) (amount : Nat) :
  isInt64 (shiftRight a amount) = true
  := by
  have hpos : (0 : Int) < (2 ^ amount : Nat) := by positivity
  rw [isInt64_iff] at ha
  rw [shiftRight, Int.shiftRight_eq_div_pow, isInt64_iff, Int.le_ediv_iff_mul_le hpos]
  refine ⟨?_, Int.ediv_lt_of_lt_mul hpos ?_⟩
  · nlinarith
  · nlinarith

theorem toInt_bits (h : isInt64 n = true) :
  (bits n).toInt = n
  := by
  rw [isInt64_iff] at h
  rw [bits, BitVec.toInt_ofInt, Int.bmod_eq_of_le]
  · omega
  · omega

theorem getElem_bits (n : Int) {i : Nat} (hi : i < 64) :
  (bits n)[i] = n.testBit i
  := by
  cases n with
  | ofNat m =>
    change (BitVec.ofInt 64 (m : Int))[i] = m.testBit i
    rw [BitVec.ofInt_natCast, ← BitVec.getLsbD_eq_getElem, BitVec.getLsbD_ofNat]
    simp [hi]
  | negSucc m =>
    change (BitVec.ofInt 64 (Int.negSucc m))[i] = !m.testBit i
    rw [BitVec.ofInt_negSucc_eq_not_ofNat, BitVec.getElem_not, ← BitVec.getLsbD_eq_getElem,
      BitVec.getLsbD_ofNat]
    simp [hi]

/-! ## Bitwise operations -/

theorem isInt64_natBitwise (f : Bool → Bool → Bool) {m k : Nat} (hm : m < 2 ^ 63) (hk : k < 2 ^ 63) :
  isInt64 (Int.natBitwise f m k) = true
  := by
  unfold Int.natBitwise
  cases f false false with
  | false => exact isInt64_ofNat.mpr (Nat.bitwise_lt_two_pow hm hk)
  | true => exact isInt64_negSucc.mpr (Nat.bitwise_lt_two_pow hm hk)

/-- The upper bits of 64-bit numbers are their signs, and so are those of the result. -/
theorem isInt64_bitwise (f : Bool → Bool → Bool) (ha : isInt64 a = true) (hb : isInt64 b = true) :
  isInt64 (Int.bitwise f a b) = true
  := by
  cases a with
  | ofNat m =>
    rw [isInt64_ofNat] at ha
    cases b with
    | ofNat k => exact isInt64_natBitwise f ha (isInt64_ofNat.mp hb)
    | negSucc k => exact isInt64_natBitwise (fun x y => f x (!y)) ha (isInt64_negSucc.mp hb)
  | negSucc m =>
    rw [isInt64_negSucc] at ha
    cases b with
    | ofNat k => exact isInt64_natBitwise (fun x y => f (!x) y) ha (isInt64_ofNat.mp hb)
    | negSucc k => exact isInt64_natBitwise (fun x y => f (!x) (!y)) ha (isInt64_negSucc.mp hb)

theorem toInt_eq_bitwise {f : Bool → Bool → Bool} {x : BitVec 64} (ha : isInt64 a = true)
    (hb : isInt64 b = true) (hx : ∀ i (hi : i < 64), x[i] = f (bits a)[i] (bits b)[i]) :
  x.toInt = Int.bitwise f a b
  := by
  rw [← toInt_bits (isInt64_bitwise f ha hb)]
  congr 1
  ext i hi
  rw [hx i hi, getElem_bits, getElem_bits, getElem_bits, Int.testBit_bitwise]

theorem bitAnd_eq_land (ha : isInt64 a = true) (hb : isInt64 b = true) :
  bitAnd a b = a.land b
  := by
  rw [← Int.bitwise_and]
  apply toInt_eq_bitwise ha hb
  exact fun i hi => BitVec.getElem_and hi

theorem bitOr_eq_lor (ha : isInt64 a = true) (hb : isInt64 b = true) :
  bitOr a b = a.lor b
  := by
  rw [← Int.bitwise_or]
  apply toInt_eq_bitwise ha hb
  exact fun i hi => BitVec.getElem_or hi

theorem bitXor_eq_xor (ha : isInt64 a = true) (hb : isInt64 b = true) :
  bitXor a b = a.xor b
  := by
  rw [← Int.bitwise_xor]
  apply toInt_eq_bitwise ha hb
  exact fun i hi => BitVec.getElem_xor hi

/-! ## Shifts -/

theorem shiftLeft_eq_mul_iff (amount : Nat) :
  shiftLeft a amount = a * 2 ^ amount ↔ isInt64 (a * 2 ^ amount) = true
  := by
  rw [shiftLeft_eq]
  constructor
  · intro hsame
    rw [← hsame, ← BitVec.toInt_ofInt]
    exact isInt64_toInt _
  · intro hrange
    rw [← BitVec.toInt_ofInt]
    exact toInt_bits hrange

theorem dvd_shiftLeft (a : Int) {amount : Nat} (h : amount ≤ 64) :
  2 ^ amount ∣ shiftLeft a amount
  := by
  have hpow : (2 : Int) ^ amount ∣ (2 ^ 64 : Nat) := by exact_mod_cast pow_dvd_pow 2 h
  have hdiff : (2 : Int) ^ amount ∣ (a * 2 ^ amount).bmod (2 ^ 64) - a * 2 ^ amount :=
    hpow.trans Int.dvd_bmod_sub_self
  rw [shiftLeft_eq]
  exact (dvd_sub_left (dvd_mul_left _ _)).mp hdiff

/-- What was moved left comes back if no bits were lost. -/
theorem shiftRight_shiftLeft_iff {amount : Nat} (h : amount ≤ 64) :
  shiftRight (shiftLeft a amount) amount = a ↔ isInt64 (a * 2 ^ amount) = true
  := by
  have hpos : (0 : Int) < 2 ^ amount := by positivity
  obtain ⟨k, hk⟩ := dvd_shiftLeft a h
  rw [← shiftLeft_eq_mul_iff, shiftRight_eq, hk, Int.mul_fdiv_cancel_left _ hpos.ne']
  constructor
  · rintro rfl
    exact Int.mul_comm _ _
  · intro hsame
    rw [Int.mul_comm] at hsame
    exact Int.eq_of_mul_eq_mul_right hpos.ne' hsame

/-! ## Quotients -/

/-- Only one quotient of 64-bit numbers is no 64-bit number. -/
theorem isInt64_tdiv_iff (ha : isInt64 a = true) :
  isInt64 (a.tdiv b) = true ↔ ¬(a = -2 ^ 63 ∧ b = -1)
  := by
  constructor
  · rintro hrange ⟨rfl, rfl⟩
    exact absurd hrange (by decide)
  · intro hne
    rw [isInt64_iff] at ha ⊢
    by_cases hunit : b.natAbs = 1
    · rcases Int.natAbs_eq_iff.mp hunit with rfl | rfl
      · simpa using ha
      · rw [Nat.cast_one, Int.tdiv_neg, Int.tdiv_one]
        omega
    · -- a quotient by a larger number, or by zero, is at most half as large
      have hhalf : (a.tdiv b).natAbs ≤ a.natAbs / 2 := by
        rw [Int.natAbs_tdiv]
        change a.natAbs / b.natAbs ≤ a.natAbs / 2
        rcases Nat.eq_zero_or_pos b.natAbs with hzero | hpos
        · rw [hzero, Nat.div_zero]
          exact Nat.zero_le _
        · exact Nat.div_le_div_left (by omega) (by decide)
      omega

end Word

end FormCompiler
