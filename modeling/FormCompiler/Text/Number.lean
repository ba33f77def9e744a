import FormCompiler.Word.Basic

/-!
# Reading numbers

Decimal and hexadecimal numbers as instruction text writes them, with the limits of the words that
hold them. A plus sign in front is allowed.
-/

namespace FormCompiler.Text

/-- The value of a digit in bases up to sixteen. -/
def digitValue? (radix : Nat) (c : Char) : Option Nat :=
  let value :=
    if '0' ≤ c ∧ c ≤ '9' then c.toNat - '0'.toNat
    else if 'a' ≤ c ∧ c ≤ 'f' then c.toNat - 'a'.toNat + 10
    else if 'A' ≤ c ∧ c ≤ 'F' then c.toNat - 'A'.toNat + 10
    else radix
  if value < radix then some value else none

/-- The number that digits denote, given the number that the digits before them denote. -/
def digitsValue? (radix : Nat) (value : Nat) : List Char → Option Nat
  | [] => some value
  | c :: digits => (digitValue? radix c).bind fun d => digitsValue? radix (radix * value + d) digits

/-- The number that at least one digit denotes. -/
def magnitude? (radix : Nat) (digits : List Char) : Option Nat :=
  if digits.isEmpty then none else digitsValue? radix 0 digits

/-- Reads a number below a limit, with an optional plus sign. -/
def nat? (radix limit : Nat) (text : List Char) : Option Nat :=
  let digits :=
    match text with
    | '+' :: digits => digits
    | digits => digits
  (magnitude? radix digits).filter (· < limit)

/-- Reads an unsigned 32-bit number. -/
def nat32? (text : List Char) : Option Nat := nat? 10 (twoPow 32) text

/-- Reads an unsigned 64-bit number. -/
def nat64? (text : List Char) : Option Nat := nat? 10 (twoPow 64) text

/-- Reads a signed 64-bit number. -/
def int64? (text : List Char) : Option Int :=
  match text with
  | '-' :: digits => (magnitude? 10 digits).bind fun n => Word.checked? (-n)
  | text => (nat? 10 (twoPow 63) text).map Int.ofNat

end FormCompiler.Text
