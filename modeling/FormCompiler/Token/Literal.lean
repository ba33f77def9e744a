import FormCompiler.Double.Text
import FormCompiler.Text.Number
import FormCompiler.Token.Basic

/-!
# Literals

What number and string literals denote. Integers are signed 64-bit numbers, written in decimal or
after one of the marks `0x`, `0o` and `0b`; underscores between digits are ignored. String literals
end at the next quote and may not contain a line break; a backslash escapes the next character.
-/

namespace FormCompiler

namespace Literal

/-! ## Integers -/

/-- Whether a literal has a minus sign, and what follows it. -/
def splitSign : List Char → Bool × List Char
  | '-' :: text => (true, text)
  | text => (false, text)

/-- A literal without the underscores between its digits. -/
def dropSeparators (text : List Char) : List Char := text.filter (· != '_')

/--
The integer with a sign and a magnitude, if there is room for it. The least integer has no positive
counterpart.
-/
def applySign (negative : Bool) (magnitude : Nat) : Except LexErrorKind Int :=
  if negative && magnitude == twoPow 63 then .ok (-(twoPow 63 : Int))
  else if magnitude < twoPow 63 then .ok (if negative then -magnitude else magnitude)
  else .error .integerOverflow

/-- Reads the digits of a base as an unsigned 64-bit magnitude, and puts a sign in front of it. -/
def readMagnitude (negative : Bool) (radix : Nat) (digits : List Char) : Except LexErrorKind Int :=
  match Text.nat? radix (twoPow 64) digits with
  | some magnitude => applySign negative magnitude
  | none => .error .integerOverflow

/-- Reads a decimal literal. -/
def parseDecimal (text : List Char) : Except LexErrorKind Int :=
  let (negative, written) := splitSign text
  readMagnitude negative 10 (dropSeparators written)

/-- The base that a mark after a zero announces. -/
def radixOf (mark : Char) : Nat :=
  if mark = 'x' ∨ mark = 'X' then 16 else if mark = 'o' ∨ mark = 'O' then 8 else 2

/-- Reads a literal that starts with a zero and the mark of a base. -/
def parseMarked (text : List Char) : Except LexErrorKind Int :=
  let (negative, body) := splitSign text
  let radix := radixOf (body.getD 1 'b')
  let digits := dropSeparators (body.drop 2)
  if digits.isEmpty then .error (.missingDigits radix)
  else
    match digits.find? fun c => (Text.digitValue? radix c).isNone with
    | some bad => .error (.invalidDigit bad radix)
    | none => readMagnitude negative radix digits

/-- Reads a fraction literal. -/
def parseFraction (text : List Char) : Except LexErrorKind UInt64 :=
  match Double.parse? (dropSeparators text) with
  | some bits => .ok bits
  | none => .error .invalidFraction

/-! ## Strings -/

/-- The character that an escape stands for. -/
def unescape? : Char → Option Char
  | 'n' => some '\n'
  | 'r' => some '\r'
  | 't' => some '\t'
  | '\\' => some '\\'
  | '"' => some '"'
  | '\'' => some '\''
  | '0' => some '\x00'
  | _ => none

/--
Reads a string literal from just after its opening quote. The answer is the number of characters
it takes, the closing quote included, and what it denotes. `out` holds the characters read so far,
last first, and `bad` the first escape that stands for nothing; it is reported once the closing
quote is found. A literal that does not end on its line takes the rest of the line.
-/
def scanString (out : List Char) (bad : Option Char) (count : Nat) :
    List Char → Nat × Except LexErrorKind String
  | [] => (count, .error .unterminatedString)
  | '"' :: _ =>
    match bad with
    | some escaped => (count + 1, .error (.invalidEscape escaped))
    | none => (count + 1, .ok (String.ofList out.reverse))
  | '\n' :: _ => (count, .error .unterminatedString)
  | ['\\'] => (count + 1, .error .unterminatedString)
  | '\\' :: '\n' :: _ => (count + 1, .error .unterminatedString)
  | '\\' :: escaped :: text =>
    match unescape? escaped with
    | some c => scanString (c :: out) bad (count + 2) text
    | none => scanString out (bad.or (some escaped)) (count + 2) text
  | c :: text => scanString (c :: out) bad (count + 1) text

end Literal

end FormCompiler
