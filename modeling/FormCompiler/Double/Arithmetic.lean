import FormCompiler.Double.Basic

/-!
# Arithmetic on doubles

The operations of IEEE-754 on the bits of doubles: the exact result is computed with natural
numbers and then rounded to the nearest double. An operation on a not-a-number gives that
not-a-number, and one without a result gives `indefinite`.
-/

namespace FormCompiler.Double

/-- The bits of positive zero. -/
def zero : UInt64 := 0

/-- The not-a-number that an operation without a result gives; its sign bit is set. -/
def indefinite : UInt64 := withSign true nanBits

/-- Whether bits denote zero, of either sign. -/
def isZero (bits : UInt64) : Bool :=
  match view bits with
  | .finite _ significand _ => significand == 0
  | _ => false

/-- The opposite number. -/
def neg (bits : UInt64) : UInt64 := bits ^^^ UInt64.ofNat signBit

/-- The not-a-number with its quiet bit set. -/
def quiet (bits : UInt64) : UInt64 := bits ||| UInt64.ofNat (twoPow 51)

/-- The double closest to `n * 2 ^ exponent`; zero gets the given sign. -/
def rounded (zeroSign : Bool) (n exponent : Int) : UInt64 :=
  let (num, den) := scaled n.natAbs 1 (-exponent)
  withSign (if n = 0 then zeroSign else n < 0) (nearest num den)

/-- A significand with its sign. -/
def signed (negative : Bool) (significand : Nat) : Int :=
  if negative then -significand else significand

/-- The sum of two doubles. -/
def add (a b : UInt64) : UInt64 :=
  match view a, view b with
  | .notANumber, _ => quiet a
  | _, .notANumber => quiet b
  | .infinite s, .infinite t => if s = t then a else indefinite
  | .infinite _, _ => a
  | _, .infinite _ => b
  | .finite s m p, .finite t n q =>
    let e := min p q
    rounded (s && t) (signed s m * twoPow (p - e).toNat + signed t n * twoPow (q - e).toNat) e

/-- The difference of two doubles. -/
def sub (a b : UInt64) : UInt64 :=
  match view b with
  | .notANumber => if view a = .notANumber then quiet a else quiet b
  | _ => add a (neg b)

/-- The product of two doubles. -/
def mul (a b : UInt64) : UInt64 :=
  match view a, view b with
  | .notANumber, _ => quiet a
  | _, .notANumber => quiet b
  | .infinite s, .infinite t => withSign (s != t) infinityBits
  | .infinite s, .finite t n _ =>
    if n = 0 then indefinite else withSign (s != t) infinityBits
  | .finite s m _, .infinite t =>
    if m = 0 then indefinite else withSign (s != t) infinityBits
  | .finite s m p, .finite t n q => rounded (s != t) (signed s m * signed t n) (p + q)

/-- The quotient of two doubles. -/
def div (a b : UInt64) : UInt64 :=
  match view a, view b with
  | .notANumber, _ => quiet a
  | _, .notANumber => quiet b
  | .infinite _, .infinite _ => indefinite
  | .infinite s, .finite t _ _ => withSign (s != t) infinityBits
  | .finite s _ _, .infinite t => withSign (s != t) 0
  | .finite s m p, .finite t n q =>
    if n = 0 then
      if m = 0 then indefinite else withSign (s != t) infinityBits
    else
      let (num, den) := scaled m n (q - p)
      withSign (s != t) (nearest num den)

/-- How two doubles compare; a not-a-number compares with nothing. -/
def compare? (a b : UInt64) : Option Ordering :=
  match view a, view b with
  | .notANumber, _ | _, .notANumber => none
  | .infinite s, .infinite t => some (if s = t then .eq else if s then .lt else .gt)
  | .infinite s, .finite .. => some (if s then .lt else .gt)
  | .finite .., .infinite t => some (if t then .gt else .lt)
  | .finite s m p, .finite t n q =>
    let e := min p q
    some (compare (signed s m * twoPow (p - e).toNat) (signed t n * twoPow (q - e).toNat))

/-- Whether two doubles compare in one of several ways. -/
def comparesAs (ways : List Ordering) (a b : UInt64) : Bool :=
  match compare? a b with
  | some way => way ∈ ways
  | none => false

/-- The double closest to an integer. -/
def ofInt (n : Int) : UInt64 := rounded false n 0

/-- The least exponent of a single-precision number. -/
def minSingleExponent : Int := -149

/--
A finite double rounded to the nearest number of single precision, with 24 significant bits. There
is none for a number from `2 ^ 128` on, after rounding.
-/
def toSingle? (bits : UInt64) : Option UInt64 :=
  match view bits with
  | .finite negative m q =>
    if m = 0 then some bits
    else
      let exponent := max (m.log2 + q - 23) minSingleExponent
      let (num, den) := scaled m 1 (exponent - q)
      let significand := roundedQuotient num den
      if twoPow 128 ≤ significand * twoPow exponent.toNat then none
      else some (rounded negative (signed negative significand) exponent)
  | _ => none

end FormCompiler.Double
