import FormCompiler.Double.Shortest

/-!
# Writing and reading doubles

`Double.render` writes a double with the fewest digits that read back: positionally, with at least
one digit after the point, when it is zero or its first digit stands between the fourth place
after the point and the sixteenth before it, and with an exponent otherwise.

`Double.parse?` reads a decimal, rounding to the nearest double. It takes more than `render` writes:
a leading `+`, a missing part before or after the point, and the words `inf`, `infinity` and `nan`
in any case.
-/

namespace FormCompiler.Double

/-! ## Writing -/

/-- A decimal in positional notation, with a digit on both sides of the point. -/
def Digits.positional (d : Digits) : List Char :=
  if d.exponent ≤ 0 then
    '0' :: '.' :: List.replicate (-d.exponent).toNat '0' ++ d.digits
  else
    let whole := d.exponent.toNat
    if d.digits.length ≤ whole then
      d.digits ++ List.replicate (whole - d.digits.length) '0' ++ ['.', '0']
    else d.digits.take whole ++ '.' :: d.digits.drop whole

/-- A decimal with one digit before the point and an exponent. -/
def Digits.scientific (d : Digits) : List Char :=
  let mantissa :=
    match d.digits with
    | first :: second :: rest => first :: '.' :: second :: rest
    | digits => digits
  mantissa ++ 'e' :: (toString (d.exponent - 1)).toList

/-- The written form of a positive decimal. -/
def Digits.text (d : Digits) : List Char :=
  if -4 < d.exponent ∧ d.exponent ≤ 16 then d.positional else d.scientific

/-- The written form of a double. -/
def render (bits : UInt64) : String :=
  let signed (negative : Bool) (text : List Char) :=
    String.ofList (if negative then '-' :: text else text)
  match view bits with
  | .notANumber => "NaN"
  | .infinite negative => signed negative ['i', 'n', 'f']
  | .finite negative m q =>
    signed negative (if m = 0 then ['0', '.', '0'] else (shortest m q).text)

/-! ## Reading -/

/-- The value of a decimal digit. -/
def digitValue (c : Char) : Nat := c.toNat - '0'.toNat

/-- The number that a list of decimal digits denotes. -/
def digitsValue (digits : List Char) : Nat :=
  digits.foldl (fun n c => 10 * n + digitValue c) 0

/--
The bits of the double closest to `significand * 10 ^ exponent`. A decimal above `10 ^ 310` is
infinite and one below `10 ^ (-326)` is zero, so that no larger power of ten is ever needed.
-/
def ofDecimal (significand : Nat) (exponent : Int) : Nat :=
  let size : Int := digitCount significand + exponent
  if significand = 0 ∨ size < -326 then 0
  else if 310 < size then infinityBits
  else nearest (significand * tenPow exponent.toNat) (tenPow (-exponent).toNat)

/-- The exponent part of a decimal: nothing, or `e` with an optional sign and digits. -/
def parseExponent? : List Char → Option Int
  | [] => some 0
  | e :: text =>
    if e ≠ 'e' ∧ e ≠ 'E' then none
    else
      let (negative, digits) :=
        match text with
        | '-' :: digits => (true, digits)
        | '+' :: digits => (false, digits)
        | digits => (false, digits)
      if digits.isEmpty ∨ ¬ digits.all Char.isDigit then none
      else
        let n : Int := digitsValue digits
        some (if negative then -n else n)

/-- A decimal without a sign. -/
def parseMagnitude? (text : List Char) : Option Nat :=
  let whole := text.takeWhile Char.isDigit
  let afterWhole := text.dropWhile Char.isDigit
  let (fraction, rest) :=
    match afterWhole with
    | '.' :: tail => (tail.takeWhile Char.isDigit, tail.dropWhile Char.isDigit)
    | tail => ([], tail)
  if whole.isEmpty ∧ fraction.isEmpty then none
  else
    (parseExponent? rest).map fun exponent =>
      ofDecimal (digitsValue (whole ++ fraction)) (exponent - fraction.length)

/-- The words that stand for a value that is no decimal. -/
def parseWord? (text : List Char) : Option Nat :=
  match String.ofList (text.map Char.toLower) with
  | "inf" | "infinity" => some infinityBits
  | "nan" => some nanBits
  | _ => none

/-- Reads a double. -/
def parse? (text : List Char) : Option UInt64 :=
  let (negative, magnitude) :=
    match text with
    | '-' :: tail => (true, tail)
    | '+' :: tail => (false, tail)
    | tail => (false, tail)
  ((parseWord? magnitude).orElse fun _ => parseMagnitude? magnitude).map (withSign negative)

end FormCompiler.Double
