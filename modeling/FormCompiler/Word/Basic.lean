/-!
# Numbers and signed 64-bit integers

Integers of the language are the numbers from `-2 ^ 63` to `2 ^ 63 - 1`. They are kept as `Int`, and
the operations below have no result where the exact one is out of range, or where there is none.
-/

namespace FormCompiler

/-! ## Powers and sums of natural numbers -/

/-- A power of two. -/
def twoPow (n : Nat) : Nat := Nat.pow 2 n

/-- A power of ten. -/
def tenPow (n : Nat) : Nat := Nat.pow 10 n

/-- The sum of numbers. -/
def total : List Nat → Nat
  | [] => 0
  | n :: rest => n + total rest

/-! ## Signed 64-bit integers -/

/-- Whether an integer is a signed 64-bit number. -/
def isInt64 (n : Int) : Bool := -(twoPow 63 : Int) ≤ n && n < twoPow 63

namespace Word

/-- An integer, if it is in range. -/
def checked? (n : Int) : Option Int := if isInt64 n then some n else none

/-- Whether an integer is in the range of a signed number of so many bits. -/
def fits (n : Int) (bits : Nat) : Bool :=
  if 64 ≤ bits then true
  else if bits = 0 then false
  else -(twoPow (bits - 1) : Int) ≤ n && n < twoPow (bits - 1)

/-- The quotient, rounded toward zero. -/
def div? (a b : Int) : Option Int := if b = 0 then none else checked? (a.tdiv b)

/-- The remainder, with the sign of the dividend, where there is a quotient. -/
def mod? (a b : Int) : Option Int := (div? a b).map fun _ => a.tmod b

/-- The bits of an integer, with the sign bit first. -/
def bits (n : Int) : BitVec 64 := BitVec.ofInt 64 n

/-- The bits that are set in both integers. -/
def bitAnd (a b : Int) : Int := (bits a &&& bits b).toInt

/-- The bits that are set in one of two integers. -/
def bitOr (a b : Int) : Int := (bits a ||| bits b).toInt

/-- The bits that are set in exactly one of two integers. -/
def bitXor (a b : Int) : Int := (bits a ^^^ bits b).toInt

/-- The bits that are not set. -/
def bitNot (a : Int) : Int := (~~~ bits a).toInt

/-- The amount of a shift, if it is less than a number of bits. -/
def shiftAmount? (width : Nat) (amount : Int) : Option Nat :=
  if 0 ≤ amount ∧ amount < width then some amount.toNat else none

/-- The bits moved left; those that leave at the top are lost. -/
def shiftLeft (a : Int) (amount : Nat) : Int := (bits a <<< amount).toInt

/-- The bits moved right, the sign staying. -/
def shiftRight (a : Int) (amount : Nat) : Int := a >>> amount

end Word

end FormCompiler
