import FormCompiler.Double.Basic

/-!
# The shortest decimal of a double

`Double.shortest` finds, for a positive double, the decimal with the fewest digits that reads back
as the same double; of two such decimals it takes the nearer one, and the greater one of a tie.
The reals that read back as `m * 2 ^ q` reach half way to the neighbouring doubles; below a normal
power of two the neighbour is nearer. The ends belong to them exactly when `m` is even. The search
tries one digit, two digits and so on, and on each grid tests the two points next to the double.
-/

namespace FormCompiler.Double

/-- The digits of a decimal `0.d₁d₂… * 10 ^ exponent`. -/
structure Digits where
  digits : List Char
  exponent : Int
deriving DecidableEq, Repr, Inhabited

/-- The number of decimal digits of a natural number. -/
def digitCount (n : Nat) : Nat := (Nat.toDigits 10 n).length

/-- The exponent `e` with `10 ^ (e - 1) ≤ num / den < 10 ^ e`. -/
def decimalExponent (num den : Nat) : Int :=
  if den ≤ num then digitCount (num / den) else 1 - digitCount ((den - 1) / num)

/-- The reals that read back as one double, with a common denominator. -/
structure Interval where
  low : Nat
  value : Nat
  high : Nat
  den : Nat
  /-- Whether the two ends read back as the double as well. -/
  closed : Bool
deriving DecidableEq, Repr, Inhabited

/-- The reals that read back as `m * 2 ^ q`. -/
def Interval.ofBinary (m : Nat) (q : Int) : Interval :=
  let unit := twoPow (q - 2).toNat
  { low := (4 * m - if m = hiddenBit then 1 else 2) * unit
    value := 4 * m * unit
    high := (4 * m + 2) * unit
    den := twoPow (2 - q).toNat
    closed := m % 2 = 0 }

/-- Whether the decimal `n * 10 ^ k` lies in an interval. -/
def Interval.contains (i : Interval) (n : Nat) (k : Int) : Bool :=
  let point := n * tenPow k.toNat * i.den
  let unit := tenPow (-k).toNat
  if i.closed then i.low * unit ≤ point && point ≤ i.high * unit
  else i.low * unit < point && point < i.high * unit

/-- The better of the two points of the grid `10 ^ k` next to the value, if one is in the interval. -/
def Interval.onGrid? (i : Interval) (k : Int) : Option Nat :=
  let num := i.value * tenPow (-k).toNat
  let den := i.den * tenPow k.toNat
  let below := num / den
  let nearBelow := 2 * (num % den) < den
  match i.contains below k, i.contains (below + 1) k with
  | true, true => some (if nearBelow then below else below + 1)
  | true, false => some below
  | false, true => some (below + 1)
  | false, false => none

/-- Searches the grids from `count` digits on, for `tries` grids. -/
def Interval.search (i : Interval) (exponent : Int) : Nat → Nat → Nat × Int
  | 0, count => ((i.onGrid? (exponent - count)).getD 0, exponent - count)
  | tries + 1, count =>
    match i.onGrid? (exponent - count) with
    | some n => (n, exponent - count)
    | none => i.search exponent tries (count + 1)

/-- A list without the zeros at its end. -/
def dropTrailingZeros (digits : List Char) : List Char :=
  (digits.reverse.dropWhile (· == '0')).reverse

/-- The shortest decimal that reads back as the positive double `m * 2 ^ q`. -/
def shortest (m : Nat) (q : Int) : Digits :=
  let i := Interval.ofBinary m q
  let (n, k) := i.search (decimalExponent i.value i.den) 16 1
  let digits := Nat.toDigits 10 n
  ⟨dropTrailingZeros digits, digits.length + k⟩

end FormCompiler.Double
