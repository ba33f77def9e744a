import FormCompiler.Word.Basic

/-!
# Doubles as exact binary fractions

Fractions are IEEE-754 doubles, kept as their 64 bits. `Double.view` reads the bits as a sign and
an exact binary fraction `m * 2 ^ q`, and `Double.nearest` finds the double closest to a quotient
of natural numbers, a tie going to the even significand. Both work on natural numbers only.
-/

namespace FormCompiler.Double

/-- What the bits of a double denote. -/
inductive View where
  /-- The number `± significand * 2 ^ exponent`. -/
  | finite (negative : Bool) (significand : Nat) (exponent : Int)
  | infinite (negative : Bool)
  | notANumber
deriving DecidableEq, Repr, Inhabited

/-- The least exponent of a double, that of the subnormal numbers. -/
def minExponent : Int := -1074

/-- The bit that a normal significand has above its 52 stored bits. -/
def hiddenBit : Nat := twoPow 52

/-- The bits of positive infinity. -/
def infinityBits : Nat := 2047 * hiddenBit

/-- The bits of the positive quiet not-a-number. -/
def nanBits : Nat := infinityBits + twoPow 51

/-- The sign bit. -/
def signBit : Nat := twoPow 63

/-- Reads the bits of a double. -/
def view (bits : UInt64) : View :=
  let n := bits.toNat
  let negative := signBit ≤ n
  let exponent := n / hiddenBit % 2048
  let stored := n % hiddenBit
  if exponent = 2047 then
    if stored = 0 then .infinite negative else .notANumber
  else if exponent = 0 then .finite negative stored minExponent
  else .finite negative (hiddenBit + stored) (exponent - 1075)

/-- Gives bits a sign. -/
def withSign (negative : Bool) (magnitude : Nat) : UInt64 :=
  UInt64.ofNat (if negative then signBit + magnitude else magnitude)

/--
The bits of `significand * 2 ^ exponent`, for a significand of at most 53 bits, or of `2 ^ 53`,
that is normal unless the exponent is the least one. What is too large becomes infinity.
-/
def encode (significand : Nat) (exponent : Int) : Nat :=
  if significand < hiddenBit then significand
  else min infinityBits ((exponent + 1075).toNat * hiddenBit + (significand - hiddenBit))

/-- The quotient of two natural numbers, rounded to the nearest one, ties to even. -/
def roundedQuotient (num den : Nat) : Nat :=
  let q := num / den
  let rest := 2 * (num % den)
  if den < rest ∨ (rest = den ∧ q % 2 = 1) then q + 1 else q

/-- The fraction `num / den` divided by `2 ^ exponent`, as a numerator and a denominator. -/
def scaled (num den : Nat) (exponent : Int) : Nat × Nat :=
  (num * twoPow (-exponent).toNat, den * twoPow exponent.toNat)

/-- The bits of the double closest to `num / den`, a tie going to the even significand. -/
def nearest (num den : Nat) : Nat :=
  if num = 0 then 0
  else
    let guess := max ((num.log2 : Int) - den.log2 - 53) minExponent
    let low := scaled num den guess
    let exponent := if 2 * hiddenBit ≤ low.1 / low.2 then guess + 1 else guess
    let exact := scaled num den exponent
    encode (roundedQuotient exact.1 exact.2) exponent

/-- Whether bits denote a number, and not an infinity. -/
def isFinite (bits : UInt64) : Bool :=
  match view bits with
  | .finite .. => true
  | _ => false

/--
The remainder of a division that truncates toward zero, with the sign of the dividend. It is
exact, and there is none unless both numbers are finite and the divisor is not zero.
-/
def remainder? (a b : UInt64) : Option UInt64 :=
  match view a, view b with
  | .finite negative m p, .finite _ n q =>
    if n = 0 then none
    else
      let e := min p q
      let dividend := m * twoPow (p - e).toNat
      let divisor := n * twoPow (q - e).toNat
      let (num, den) := scaled (dividend % divisor) 1 (-e)
      some (withSign negative (nearest num den))
  | _, _ => none

/-- The integer that a double equals, if it is one. -/
def toInt? (bits : UInt64) : Option Int :=
  match view bits with
  | .finite negative m q =>
    let (num, den) := scaled m 1 (-q)
    if num % den = 0 then
      let n : Int := (num / den : Nat)
      some (if negative then -n else n)
    else none
  | _ => none

end FormCompiler.Double
