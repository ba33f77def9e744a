import FormCompiler.Text.Split
import FormCompiler.Text.Number
import FormCompiler.Text.Printable

/-!
# Quoted text

How instruction text writes strings. Quotes, backslashes and line breaks inside are escaped, and
characters that cannot be seen are written by number. `Quoted.read` takes back what `Quoted.write`
writes, and also an escaped single quote. JSON strings are written by `Json.write`: quotes,
backslashes and control characters are escaped, and every other character stands for itself.
-/

namespace FormCompiler.Text.Quoted

/-- The text that stands for a character. -/
def writeChar (c : Char) : List Char :=
  if c = '\t' then ['\\', 't']
  else if c = '\r' then ['\\', 'r']
  else if c = '\n' then ['\\', 'n']
  else if c = '\x00' then ['\\', '0']
  else if c = '\\' then ['\\', '\\']
  else if c = '"' then ['\\', '"']
  else if isPrintable c then [c]
  else ['\\', 'u', '\x7b'] ++ Nat.toDigits 16 c.toNat ++ ['\x7d']

/-- A string in quotes. -/
def write (s : String) : String :=
  String.ofList ('"' :: s.toList.flatMap writeChar ++ ['"'])

/-- Why a quoted text cannot be read. -/
inductive Fault where
  | noQuote (found : String)
  | unterminatedEscape
  | malformedNumber
  | invalidNumber (digits : String)
  | invalidEscape (escaped : Char)
  | unterminated
deriving DecidableEq, Repr, Inhabited

/-- The message of a fault. -/
def Fault.message : Fault → String
  | noQuote found => s!"expected string literal, found `{found}`"
  | unterminatedEscape => "unterminated escape"
  | malformedNumber => "malformed unicode escape"
  | invalidNumber digits => s!"invalid unicode escape `{digits}`"
  | invalidEscape escaped => "invalid escape `\\" ++ escaped.toString ++ "`"
  | unterminated => "unterminated string literal"

/-- The character that an escape of one character stands for. -/
def unescape? (c : Char) : Option Char :=
  if c = 'n' then some '\n'
  else if c = 't' then some '\t'
  else if c = 'r' then some '\r'
  else if c = '0' then some '\x00'
  else if c = '\\' ∨ c = '"' ∨ c = '\'' then some c
  else none

/-- The character of a number. -/
def ofNumber? (digits : List Char) : Option Char :=
  (nat? 16 (twoPow 32) digits).bind fun n =>
    if n.isValidChar then some (Char.ofNat n) else none

/-- What an open quotation is inside of. -/
inductive Mode where
  | text
  | escape
  /-- After the letter of an escape by number. -/
  | number
  /-- In the digits of an escape by number, the last one first. -/
  | digits (read : List Char)
deriving DecidableEq, Repr, Inhabited

/--
Reads a quotation after its opening quote. `out` holds the characters read so far, last first. The
answer is what the quotation denotes, and the text after it.
-/
def readFrom (mode : Mode) (out : List Char) : List Char → Except Fault (List Char × List Char)
  | [] =>
    match mode with
    | .text => .error .unterminated
    | .escape => .error .unterminatedEscape
    | .number => .error .malformedNumber
    | .digits read =>
      match ofNumber? read.reverse with
      | some _ => .error .unterminated
      | none => .error (.invalidNumber (String.ofList read.reverse))
  | c :: text =>
    match mode with
    | .text =>
      if c = '"' then .ok (out.reverse, text)
      else if c = '\\' then readFrom .escape out text
      else readFrom .text (c :: out) text
    | .escape =>
      if c = 'u' then readFrom .number out text
      else
        match unescape? c with
        | some d => readFrom .text (d :: out) text
        | none => .error (.invalidEscape c)
    | .number => if c = '\x7b' then readFrom (.digits []) out text else .error .malformedNumber
    | .digits read =>
      if c = '\x7d' then
        match ofNumber? read.reverse with
        | some d => readFrom .text (d :: out) text
        | none => .error (.invalidNumber (String.ofList read.reverse))
      else readFrom (.digits (c :: read)) out text

/-- Reads a quotation. The answer is what it denotes, and the text after it from the next word on. -/
def read : List Char → Except Fault (String × List Char)
  | '"' :: text => do
    let (value, rest) ← readFrom .text [] text
    return (String.ofList value, trimStart rest)
  | text => .error (.noQuote (String.ofList text))

end FormCompiler.Text.Quoted

namespace FormCompiler.Text.Json

/-- The hexadecimal digits of a number, filled up with zeros. -/
def hexDigits (width n : Nat) : List Char :=
  let digits := Nat.toDigits 16 n
  List.replicate (width - digits.length) '0' ++ digits

/-- What a character is written as. -/
def escape (c : Char) : List Char :=
  match c with
  | '"' => ['\\', '"']
  | '\\' => ['\\', '\\']
  | '\n' => ['\\', 'n']
  | '\r' => ['\\', 'r']
  | '\t' => ['\\', 't']
  | c =>
    if c.toNat = 8 then ['\\', 'b']
    else if c.toNat = 12 then ['\\', 'f']
    else if c.toNat < 32 then ['\\', 'u'] ++ hexDigits 4 c.toNat
    else [c]

/-- A text as a JSON string. -/
def write (text : String) : String := String.ofList ('"' :: text.toList.flatMap escape ++ ['"'])

end FormCompiler.Text.Json
