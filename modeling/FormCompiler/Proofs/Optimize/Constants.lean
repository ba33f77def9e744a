import FormCompiler.Optimize.Basic
import FormCompiler.Optimize.Constant
import FormCompiler.Proofs.Flow.Lockstep
import FormCompiler.Proofs.Word.Range
import FormCompiler.Typing.Constant

/-!
# Constants

A variable that is set to a constant has its value wherever it has been defined. What an operation on
constants gives before the program runs is what it computes when it runs, if the world computes
floating-point operations and conversions in the same way (`World.IsExact`).

An operation on integer constants is folded to the result that it has over the integers, and it is folded
whenever there is one in the range of its type (`folds_exactly`). Global constants are evaluated to the same
values, but for shifts to the left that lose bits: these are not folded (`map_value_fold`).
-/

namespace FormCompiler

/-! ## Integers -/

theorem Word.wrap_of_isInt64 {n : Int} (h : isInt64 n = true) :
  Word.wrap n = n
  := Word.toInt_bits h

theorem Word.eq_of_checked? {n m : Int} (h : Word.checked? n = some m) :
  m = n ∧ Word.wrap n = n
  := by
  obtain ⟨rfl, hrange⟩ := Word.checked?_eq_some.mp h
  exact ⟨rfl, Word.wrap_of_isInt64 hrange⟩

theorem Word.shiftAmount?_mono {width width' amount : Nat} {n : Int} (hle : width ≤ width')
    (h : Word.shiftAmount? width n = some amount) :
  Word.shiftAmount? width' n = some amount
  := by
  obtain ⟨hnonneg, hlt, rfl⟩ := Word.shiftAmount?_eq_some.mp h
  rw [Word.shiftAmount?, if_pos ⟨hnonneg, by omega⟩]

namespace Flow

open Verify (IsSite IsDefinedAt Site)

/-- A world that computes floating-point operations and conversions as the optimiser does. -/
structure World.IsExact (W : World) : Prop where
  binary : ∀ {op type a b c}, Const.binaryFloat? op a b type = some c →
    W.binary op type (.float a) (.float b) = c.val
  unary : ∀ {op type x c}, Const.unary? op (.float x) type = some c → W.unary op type (.float x) = c.val
  convert : ∀ {a type c}, Const.cast? a type = some c → W.convert type a.val = c.val

theorem Const.eq_of_ofInt? {bits : Nat} {n : Int} {c : Const} (h : Const.ofInt? bits n = some c) :
  c = .int n
  := by
  unfold Const.ofInt? at h
  split at h
  · exact (Option.some.inj h).symm
  · cases h

section

variable {W : World} {type : ValueType} {c : Const}
variable {op : BinaryOp}

theorem Const.arithmetic?_sound {bits : Nat} {a b n : Int} (h : Const.arithmetic? bits a b op = some n) :
  W.binaryInt op type a b = .int n ∧ (op.mayTrap = true → b ≠ 0)
  := by
  have hdiv : ∀ {n}, Word.div? a b = some n → n = a.tdiv b ∧ Word.wrap (a.tdiv b) = a.tdiv b ∧ b ≠ 0 := by
    intro n h
    obtain ⟨rfl, hne, hrange⟩ := Word.div?_eq_some.mp h
    exact ⟨rfl, Word.wrap_of_isInt64 hrange, hne⟩
  cases op with
  | add | sub | mul =>
    obtain ⟨rfl, hwrap⟩ := Word.eq_of_checked? h
    exact ⟨by simp only [World.binaryInt, hwrap], nofun⟩
  | div =>
    obtain ⟨rfl, hwrap, hne⟩ := hdiv h
    exact ⟨by simp only [World.binaryInt, hwrap], fun _ => hne⟩
  | mod =>
    obtain ⟨rfl, hne, -⟩ := Word.mod?_eq_some.mp h
    exact ⟨rfl, fun _ => hne⟩
  | bitAnd | bitOr | bitXor =>
    obtain rfl := Option.some.inj h
    exact ⟨rfl, nofun⟩
  | shl =>
    unfold Const.arithmetic? Const.shiftLeft? at h
    obtain ⟨amount, hamount, h⟩ := Option.bind_eq_some_iff.mp h
    simp only at h
    split at h
    · obtain rfl := Option.some.inj h
      refine ⟨?_, nofun⟩
      simp only [World.binaryInt, Word.shiftAmount?_mono (Nat.min_le_right bits 64) hamount]
    · cases h
  | shr =>
    obtain ⟨amount, hamount, rfl⟩ := Option.map_eq_some_iff.mp h
    refine ⟨?_, nofun⟩
    simp only [World.binaryInt, Word.shiftAmount?_mono (Nat.min_le_right bits 64) hamount]
  | eq | ne | lt | le | gt | ge | and | or => cases h

theorem Const.binaryInt?_sound {a b : Int} (h : Const.binaryInt? op a b type = some c) :
  W.binaryInt op type a b = c.val ∧ (op.mayTrap = true → b ≠ 0)
  := by
  unfold Const.binaryInt? at h
  split at h
  · obtain ⟨r, hr, rfl⟩ := Option.map_eq_some_iff.mp h
    cases op with
    | eq | ne | lt | le | gt | ge =>
      obtain rfl := Option.some.inj hr
      refine ⟨?_, nofun⟩
      simp only [World.binaryInt, Const.val, Val.bool.injEq]
      rcases Int.lt_trichotomy a b with hlt | rfl | hlt
      · rw [compare_lt_iff_lt.mpr hlt, Bool.eq_iff_iff]
        simp [bne]
        try omega
      · simp [bne]
      · rw [compare_gt_iff_gt.mpr hlt, Bool.eq_iff_iff]
        simp [bne]
        try omega
    | _ => cases hr
  · split at h
    · next bits =>
      obtain ⟨n, hn, hc⟩ := Option.bind_eq_some_iff.mp h
      obtain rfl := Const.eq_of_ofInt? hc
      exact Const.arithmetic?_sound hn
    · cases h

variable (hW : W.IsExact)

include hW in
theorem Const.binary?_sound {lhs rhs : Const} (h : Const.binary? op lhs rhs type = some c) :
  W.apply op type lhs.val rhs.val = c.val ∧ (op.mayTrap && rhs.val.isZero) = false
  := by
  unfold Const.binary? at h
  split at h
  · next a b =>
    obtain ⟨hvalue, hne⟩ := Const.binaryInt?_sound h
    refine ⟨hvalue, ?_⟩
    cases htrap : op.mayTrap with
    | false => rfl
    | true => simpa [Const.val, Val.isZero] using hne htrap
  · next a b => exact ⟨hW.binary h, Bool.and_false _⟩
  · split at h
    · obtain rfl := Option.some.inj h
      exact ⟨rfl, rfl⟩
    · obtain rfl := Option.some.inj h
      exact ⟨rfl, rfl⟩
    · obtain rfl := Option.some.inj h
      exact ⟨rfl, rfl⟩
    · obtain rfl := Option.some.inj h
      exact ⟨rfl, rfl⟩
    · cases h
  · split at h
    · obtain rfl := Option.some.inj h
      exact ⟨rfl, rfl⟩
    · obtain rfl := Option.some.inj h
      exact ⟨rfl, rfl⟩
    · cases h
  · cases h

include hW in
theorem Const.unary?_sound {op : UnaryOp} {operand : Const} (h : Const.unary? op operand type = some c) :
  W.applyUnary op type operand.val = c.val
  := by
  cases operand with
  | float x =>
    rw [← hW.unary h]
    cases op <;> rfl
  | int n =>
    cases op with
    | neg =>
      cases type with
      | int bits =>
        obtain ⟨m, hm, hc⟩ := Option.bind_eq_some_iff.mp h
        obtain rfl := Const.eq_of_ofInt? hc
        obtain ⟨rfl, hwrap⟩ := Word.eq_of_checked? hm
        simp only [Const.val, World.applyUnary, hwrap]
      | _ => cases h
    | bitNot =>
      obtain rfl := Option.some.inj h
      rfl
    | not => cases h
  | bool b =>
    cases op with
    | not =>
      obtain rfl := Option.some.inj h
      rfl
    | neg | bitNot => cases h
  | str text => cases op <;> cases h

end

/-! ## Variables -/

/-- The constants of a table are what variables are set to. -/
def AreConstants (f : Function) (constants : List (VarId × Const)) : Prop :=
  ∀ v c, constants.lookup v = some c → ∃ b ∈ f.blocks, .set v (.const c) ∈ b.instrs

theorem areConstants_constants (f : Function) :
  AreConstants f f.constants
  := by
  intro v c hlookup
  obtain ⟨b, hb, hmem⟩ := List.mem_flatMap.mp (mem_of_lookup_eq_some hlookup)
  obtain ⟨i, hi, hsome⟩ := List.mem_filterMap.mp hmem
  split at hsome
  · obtain ⟨rfl, rfl⟩ := Prod.mk.inj (Option.some.inj hsome)
    exact ⟨b, hb, hi⟩
  · cases hsome

/-- A variable that is set to a constant has its value where it is defined. -/
theorem AreConstants.vars {f : Function} {constants : List (VarId × Const)} (h : AreConstants f constants)
    {W : World} {id : BlockId} {v : VarId} {c : Const} {j : Nat} (hv : constants.lookup v = some c)
    {vars : VarId → Val} (hholds : HoldAt f (SetHolds f W) id j vars) (hdefined : IsDefinedAt f id j v) :
  vars v = c.val
  := by
  have heval := hholds v hdefined _ (h v c hv)
  simpa [Value.eval] using heval.symm

namespace Const

variable {bits : Nat} {op : BinaryOp} {a b n : Int} {c : Const} {type : ValueType}

/-! ## Results over the integers -/

/--
The result of an operator over the integers. Division rounds toward zero and a shift to the right rounds down;
an integer of so many bits is shifted by less than that.
-/
def exactResult? (bits : Nat) (a b : Int) : BinaryOp → Option Int
  | .add => some (a + b)
  | .sub => some (a - b)
  | .mul => some (a * b)
  | .div => if b = 0 then none else some (a.tdiv b)
  | .mod => if b = 0 then none else some (a.tmod b)
  | .bitAnd => some (a.land b)
  | .bitOr => some (a.lor b)
  | .bitXor => some (a.xor b)
  | .shl => if 0 ≤ b ∧ b < bits then some (a * 2 ^ b.toNat) else none
  | .shr => if 0 ≤ b ∧ b < bits then some (a.fdiv (2 ^ b.toNat)) else none
  | _ => none

/-- Whether a comparison holds between integers. -/
def Holds (a b : Int) : BinaryOp → Prop
  | .eq => a = b
  | .ne => a ≠ b
  | .lt => a < b
  | .le => a ≤ b
  | .gt => b < a
  | .ge => b ≤ a
  | _ => False

instance : Decidable (Holds a b op) :=
  match op with
  | .eq => inferInstanceAs (Decidable (a = b))
  | .ne => inferInstanceAs (Decidable (a ≠ b))
  | .lt => inferInstanceAs (Decidable (a < b))
  | .le => inferInstanceAs (Decidable (a ≤ b))
  | .gt => inferInstanceAs (Decidable (b < a))
  | .ge => inferInstanceAs (Decidable (b ≤ a))
  | .add | .sub | .mul | .div | .mod | .and | .or | .bitAnd | .bitOr | .bitXor | .shl | .shr => .isFalse id

/-- An integer is a signed number of so many bits. -/
def InRange (bits : Nat) (n : Int) : Prop := -2 ^ (bits - 1) ≤ n ∧ n < 2 ^ (bits - 1)

instance : Decidable (InRange bits n) := inferInstanceAs (Decidable (_ ∧ _))

/-! ## Ranges -/

section

variable (hpos : 0 < bits) (hle : bits ≤ 64)

include hpos hle in
theorem fits_iff_inRange (h : isInt64 n = true) :
  Word.fits n bits = true ↔ InRange bits n
  := by
  unfold Word.fits
  split
  · obtain rfl : bits = 64 := by omega
    exact iff_of_true rfl (isInt64_iff.mp h)
  · rw [if_neg hpos.ne', Bool.and_eq_true, decide_eq_true_iff, decide_eq_true_iff, InRange]
    simp [twoPow]

include hle in
theorem InRange.isInt64 (h : InRange bits n) :
  isInt64 n = true
  := by
  have hpow : (2 : Int) ^ (bits - 1) ≤ 2 ^ 63 := pow_le_pow_right₀ (by decide) (by omega)
  obtain ⟨hlow, hhigh⟩ := h
  rw [isInt64_iff]
  omega

include hpos hle in
theorem ofInt?_eq_some (h : isInt64 n = true) :
  ofInt? bits n = some c ↔ InRange bits n ∧ c = .int n
  := by
  rw [ofInt?, ← fits_iff_inRange hpos hle h]
  split
  · next hfits => simp only [Option.some.injEq, hfits, true_and, eq_comm]
  · next hfits => simp only [reduceCtorEq, hfits, false_and]

end

/-! ## Operations -/

theorem comparison?_compare (hop : op.isComparison = true) :
  comparison? (compare a b) op = some (decide (Holds a b op))
  := by
  rcases Int.lt_trichotomy a b with hlt | rfl | hlt
  · rw [compare_lt_iff_lt.mpr hlt]
    cases op with
    | eq | ne | lt | le | gt | ge => simp [comparison?, Holds, hlt, hlt.ne, hlt.le, hlt.not_ge, hlt.not_gt]
    | _ => cases hop
  · cases op with
    | eq | ne | lt | le | gt | ge => simp [comparison?, Holds]
    | _ => cases hop
  · rw [compare_gt_iff_gt.mpr hlt]
    cases op with
    | eq | ne | lt | le | gt | ge => simp [comparison?, Holds, hlt, hlt.ne', hlt.le, hlt.not_ge, hlt.not_gt]
    | _ => cases hop

theorem shiftLeft?_eq_some (hle : bits ≤ 64) :
  shiftLeft? bits a b = some n
    ↔ (0 ≤ b ∧ b < bits) ∧ n = a * 2 ^ b.toNat ∧ isInt64 (a * 2 ^ b.toNat) = true
  := by
  unfold shiftLeft?
  rw [Nat.min_eq_left hle]
  cases hamount : Word.shiftAmount? bits b with
  | none =>
    have hout : ¬(0 ≤ b ∧ b < bits) := by
      rintro ⟨hnonneg, hlt⟩
      rw [Word.shiftAmount?_eq_some.mpr ⟨hnonneg, hlt, rfl⟩] at hamount
      cases hamount
    simp [hout]
  | some amount =>
    obtain ⟨hnonneg, hlt, rfl⟩ := Word.shiftAmount?_eq_some.mp hamount
    have hback := @Word.shiftRight_shiftLeft_iff a b.toNat (by omega)
    simp only [Option.bind_eq_bind, Option.bind_some, hback]
    split
    · next hrange =>
      rw [(Word.shiftLeft_eq_mul_iff _).mpr hrange]
      simp [hnonneg, hlt, hrange, eq_comm]
    · next hrange => simp [hrange]

theorem eq_and_comm {P : Int → Prop} {m : Int} :
  n = m ∧ P m ↔ m = n ∧ P n
  := by
  constructor
  · rintro ⟨rfl, h⟩
    exact ⟨rfl, h⟩
  · rintro ⟨rfl, h⟩
    exact ⟨rfl, h⟩

section

variable (ha : isInt64 a = true) (hb : isInt64 b = true)

include ha hb in
/-- An operation has the exact result if that is a 64-bit number; one remainder is refused with its quotient. -/
theorem arithmetic?_eq_some (hle : bits ≤ 64) :
  arithmetic? bits a b op = some n
    ↔ exactResult? bits a b op = some n ∧ isInt64 n = true ∧ ¬(op = .mod ∧ a = -2 ^ 63 ∧ b = -1)
  := by
  -- the results that are not compared with the range are in it
  have hself : ∀ {m : Int}, isInt64 m = true → (m = n ↔ m = n ∧ isInt64 n = true) := by
    intro m hrange
    rw [iff_self_and]
    rintro rfl
    exact hrange
  have hbitwise := fun f => Word.isInt64_bitwise f ha hb
  cases op with
  | add | sub | mul =>
    rw [arithmetic?, exactResult?, Word.checked?_eq_some, eq_and_comm (P := fun m => isInt64 m = true)]
    simp
  | div =>
    rw [arithmetic?, exactResult?, Word.div?_eq_some]
    by_cases hzero : b = 0
    · simp [hzero]
    · simp [hzero, eq_and_comm (P := fun m => isInt64 m = true)]
  | mod =>
    rw [arithmetic?, exactResult?, Word.mod?_eq_some, Word.isInt64_tdiv_iff ha]
    by_cases hzero : b = 0
    · simp [hzero]
    · rw [if_neg hzero, Option.some.injEq, ← and_assoc, ← and_assoc, ← hself (Word.isInt64_tmod a hb hzero),
        @eq_comm _ n]
      simp [hzero]
  | bitAnd =>
    rw [arithmetic?, exactResult?, Word.bitAnd_eq_land ha hb, ← Int.bitwise_and]
    simpa using hself (hbitwise and)
  | bitOr =>
    rw [arithmetic?, exactResult?, Word.bitOr_eq_lor ha hb, ← Int.bitwise_or]
    simpa using hself (hbitwise or)
  | bitXor =>
    rw [arithmetic?, exactResult?, Word.bitXor_eq_xor ha hb, ← Int.bitwise_xor]
    simpa using hself (hbitwise Bool.xor)
  | shl =>
    rw [arithmetic?, exactResult?, shiftLeft?_eq_some hle, eq_and_comm (P := fun m => isInt64 m = true)]
    by_cases hamount : 0 ≤ b ∧ b < bits
    · simp [hamount]
    · simp [hamount]
  | shr =>
    rw [arithmetic?, exactResult?, Nat.min_eq_left hle, Option.map_eq_some_iff]
    by_cases hamount : 0 ≤ b ∧ b < bits
    · have hrange := Word.isInt64_shiftRight ha b.toNat
      rw [Word.shiftRight_eq] at hrange
      rw [Word.shiftAmount?_eq_some.mpr ⟨hamount.1, hamount.2, rfl⟩]
      simpa [hamount, Word.shiftRight_eq] using hself hrange
    · rw [Word.shiftAmount?, if_neg hamount]
      simp [hamount]
  | eq | ne | lt | le | gt | ge | and | or => simp [arithmetic?, exactResult?]

variable (hpos : 0 < bits) (hle : bits ≤ 64)

include ha hb hpos hle in
/--
An operation on integers of a type of so many bits is folded to the result over the integers, and it is folded
unless there is no such result, it is not in the range of the type, or it is the one remainder whose quotient
is no 64-bit number. Comparisons are folded to whether they hold, whatever the type is.
-/
theorem folds_exactly :
  (∀ op c, op.isComparison = false →
      (binaryInt? op a b (.int bits) = some c ↔
        ∃ n, exactResult? bits a b op = some n ∧ InRange bits n ∧ ¬(op = .mod ∧ a = -2 ^ 63 ∧ b = -1)
          ∧ c = .int n))
    ∧ (∀ op type, op.isComparison = true → binaryInt? op a b type = some (.bool (decide (Holds a b op))))
    ∧ (∀ c, unary? .neg (.int a) (.int bits) = some c ↔ InRange bits (-a) ∧ c = .int (-a))
    ∧ (∀ c, cast? (.int a) (.int bits) = some c ↔ InRange bits a ∧ c = .int a)
  := by
  refine ⟨fun op c hop => ?_, fun op type hop => ?_, fun c => ?_, fun c => ofInt?_eq_some hpos hle ha⟩
  · rw [binaryInt?, hop, if_neg Bool.false_ne_true, Option.bind_eq_some_iff]
    constructor
    · rintro ⟨n, hn, hc⟩
      obtain ⟨hexact, hrange, hmod⟩ := (arithmetic?_eq_some ha hb hle).mp hn
      obtain ⟨hfits, rfl⟩ := (ofInt?_eq_some hpos hle hrange).mp hc
      exact ⟨n, hexact, hfits, hmod, rfl⟩
    · rintro ⟨n, hexact, hfits, hmod, rfl⟩
      have hrange := hfits.isInt64 hle
      exact ⟨n, (arithmetic?_eq_some ha hb hle).mpr ⟨hexact, hrange, hmod⟩,
        (ofInt?_eq_some hpos hle hrange).mpr ⟨hfits, rfl⟩⟩
  · unfold binaryInt?
    rw [if_pos hop, comparison?_compare hop, Option.map_some]
  · rw [unary?, Option.bind_eq_some_iff]
    constructor
    · rintro ⟨n, hn, hc⟩
      obtain ⟨rfl, hrange⟩ := Word.checked?_eq_some.mp hn
      exact (ofInt?_eq_some hpos hle hrange).mp hc
    · rintro ⟨hfits, rfl⟩
      have hrange := hfits.isInt64 hle
      exact ⟨-a, Word.checked?_eq_some.mpr ⟨rfl, hrange⟩, (ofInt?_eq_some hpos hle hrange).mpr ⟨hfits, rfl⟩⟩

end

/-- A byte that is too large when it is shifted to the left, and rounded down when it is shifted to the right. -/
theorem folds_byte :
  (∀ c, binaryInt? .shl (-100) 3 (.int 8) ≠ some c)
    ∧ binaryInt? .shr (-100) 3 (.int 8) = some (.int (-13))
    ∧ binaryInt? .mod (-100) 3 (.int 8) = some (.int (-1))
    ∧ binaryInt? .lt (-100) 3 .ptr = some (.bool true)
    ∧ unary? .neg (.int (-100)) (.int 8) = some (.int 100)
    ∧ ∀ c, cast? (.int (-100)) (.int 7) ≠ some c
  := by
  have ha : isInt64 (-100) = true := by decide
  have hb : isInt64 3 = true := by decide
  obtain ⟨hbinary, hcompare, hneg, -⟩ := folds_exactly ha hb (show 0 < 8 by decide) (by decide)
  obtain ⟨-, -, -, hcast⟩ := folds_exactly ha hb (show 0 < 7 by decide) (by decide)
  refine ⟨fun c hshl => ?_, ?_, ?_, hcompare .lt .ptr rfl, (hneg _).mpr ⟨by decide, rfl⟩, fun c hnarrow => ?_⟩
  · obtain ⟨n, hn, hrange, -⟩ := (hbinary .shl c rfl).mp hshl
    obtain rfl := Option.some.inj hn
    exact absurd hrange (by decide)
  · exact (hbinary .shr _ rfl).mpr ⟨_, rfl, by decide, by decide, rfl⟩
  · exact (hbinary .mod _ rfl).mpr ⟨_, rfl, by decide, by decide, rfl⟩
  · exact absurd ((hcast c).mp hnarrow).1 (by decide)

/-! ## Values of global constants -/

/-- A constant as the value of a global constant. -/
def value : Const → ConstValue
  | int n => .int n
  | float bits => .frac bits
  | bool b => .bool b
  | str text => .str text

/-- The type of what an operator gives for integers of 64 bits, or for truth values. -/
def resultType (op : BinaryOp) : ValueType := if op.isComparison || op.isLogical then .bool else .int 64

/-- Whether an operation is a shift to the left after which bits are lost. -/
def losesBits : BinaryOp → Const → Const → Bool
  | .shl, int a, int b => 0 ≤ b && b < 64 && !isInt64 (a * 2 ^ b.toNat)
  | _, _, _ => false

theorem ofInt?_word (n : Int) :
  ofInt? 64 n = some (.int n)
  := by
  rw [ofInt?, Word.fits, if_pos (Nat.le_refl 64), if_pos rfl]

theorem map_value_shiftLeft? (a b : Int) :
  (shiftLeft? 64 a b).map ConstValue.int
    = if losesBits .shl (.int a) (.int b) then none else ConstValue.integerBinary? a b .shl
  := by
  rw [ConstValue.integerBinary?, shiftLeft?, losesBits, Nat.min_self]
  cases hamount : Word.shiftAmount? 64 b with
  | none => simp
  | some amount =>
    obtain ⟨hnonneg, hlt, rfl⟩ := Word.shiftAmount?_eq_some.mp hamount
    have hback := @Word.shiftRight_shiftLeft_iff a b.toNat (by omega)
    simp only [Option.bind_eq_bind, Option.bind_some, hback]
    cases hrange : isInt64 (a * 2 ^ b.toNat) with
    | false => simp [hnonneg, show b < 64 from hlt]
    | true => simp

/-- The results of 64 bits are not compared with their range once more. -/
theorem binaryInt?_word (hop : op.isComparison = false) :
  binaryInt? op a b (.int 64) = (arithmetic? 64 a b op).map .int
  := by
  rw [binaryInt?, hop, if_neg Bool.false_ne_true]
  cases arithmetic? 64 a b op with
  | none => rfl
  | some n => exact ofInt?_word n

theorem map_value_binaryInt? (op : BinaryOp) (a b : Int) :
  (binaryInt? op a b (resultType op)).map value
    = if losesBits op (.int a) (.int b) then none else ConstValue.integerBinary? a b op
  := by
  cases hop : op.isComparison with
  | true =>
    unfold binaryInt?
    rw [if_pos hop, comparison?_compare hop]
    cases op with
    | eq | lt | le | gt | ge => rfl
    | ne => exact congrArg (fun r => some (ConstValue.bool r)) (decide_not (p := a = b))
    | _ => cases hop
  | false =>
    cases op with
    | and | or => rfl
    | eq | ne | lt | le | gt | ge => cases hop
    | shl =>
      rw [← map_value_shiftLeft?]
      exact (congrArg (Option.map value) (binaryInt?_word hop)).trans (Option.map_map ..)
    | shr =>
      refine (congrArg (Option.map value) (binaryInt?_word hop)).trans ?_
      rw [arithmetic?, Option.map_map, Option.map_map]
      rfl
    | _ => exact (congrArg (Option.map value) (binaryInt?_word hop)).trans (Option.map_map ..)

/--
An operation that is folded, but is none on floating-point numbers, gives the value that it has in a global
constant, and what is not folded has no value there. Only bits that are shifted out are lost in a global
constant, where an operation is not folded.
-/
theorem map_value_fold {lhs : Const} (hlhs : ∀ x, lhs ≠ .float x) :
  (∀ op rhs, (binary? op lhs rhs (resultType op)).map value
      = if losesBits op lhs rhs then none else ConstValue.binary? op lhs.value rhs.value)
    ∧ ∀ op, (unary? op lhs (if op = .not then .bool else .int 64)).map value = ConstValue.unary? op lhs.value
  := by
  refine ⟨fun op rhs => ?_, fun op => ?_⟩
  · cases lhs with
    | float x => exact absurd rfl (hlhs x)
    | int a =>
      cases rhs with
      | int b => exact map_value_binaryInt? op a b
      | _ => cases op <;> rfl
    | bool a =>
      cases rhs with
      | bool b => cases op <;> rfl
      | _ => cases op <;> rfl
    | str a =>
      cases rhs with
      | str b => cases op <;> rfl
      | _ => cases op <;> rfl
  · cases lhs with
    | float x => exact absurd rfl (hlhs x)
    | int n =>
      cases op with
      | neg =>
        change ((Word.checked? (-n)).bind (ofInt? 64)).map value = (Word.checked? (-n)).map .int
        cases Word.checked? (-n) with
        | none => rfl
        | some m => exact congrArg (Option.map value) (ofInt?_word m)
      | _ => rfl
    | bool b => cases op <;> rfl
    | str text => cases op <;> rfl

/-- The least integer, which has no quotient by `-1`. -/
theorem map_value_least :
  (binary? .div (.int (-2 ^ 63)) (.int (-1)) (resultType .div)).map value
      = ConstValue.binary? .div (.int (-2 ^ 63)) (.int (-1))
    ∧ (binary? .shr (.int (-2 ^ 63)) (.int 63) (resultType .shr)).map value
      = ConstValue.binary? .shr (.int (-2 ^ 63)) (.int 63)
    ∧ (binary? .shl (.int (-2 ^ 63)) (.int 1) (resultType .shl)).map value = none
    ∧ (unary? .neg (.int (-2 ^ 63)) (.int 64)).map value = ConstValue.unary? .neg (.int (-2 ^ 63))
  := by
  obtain ⟨hbinary, hunary⟩ := map_value_fold (fun x => (nofun : Const.int (-2 ^ 63) ≠ .float x))
  exact ⟨hbinary .div (.int (-1)), hbinary .shr (.int 63), hbinary .shl (.int 1), hunary .neg⟩

/-- A bit is shifted to the sign, where it denotes another number. -/
theorem value_shiftedOut :
  binary? .shl (.int 1) (.int 63) (resultType .shl) = none
    ∧ ConstValue.binary? .shl (value (.int 1)) (value (.int 63)) = some (.int (-2 ^ 63))
  := ⟨by decide, rfl⟩

end Const

end Flow

end FormCompiler
