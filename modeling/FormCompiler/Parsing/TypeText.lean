import FormCompiler.Ty.Basic
import FormCompiler.Parsing.Error

/-!
# Reading written types

A type token carries the text of a whole type. Its grammar is

    type  := name ( '<' arguments '>' )?
    array := 'array' '<' part ',' length '>'
    tuple := 'tuple' '<' part ( ',' part )* '>'
    fn    := 'fn' '<' ( part ( ',' part )* )? '->' part '>'
    part  := '!'? type

where a name that starts with a capital letter is a type variable.
-/

namespace FormCompiler

/-- Reads a part of a type from the text still to come. -/
abbrev TypeReader := StateT (List Char) (Except TypeFault)

namespace TypeReader

/-- Takes a character if it is the next one. -/
def eat (c : Char) : TypeReader Bool := fun text =>
  match text with
  | d :: rest => if c = d then .ok (true, rest) else .ok (false, text)
  | [] => .ok (false, text)

/-- Takes an arrow if it comes next. -/
def eatArrow : TypeReader Bool := fun text =>
  match text with
  | '-' :: '>' :: rest => .ok (true, rest)
  | _ => .ok (false, text)

/-- Takes a character that has to come next; `size` is the number of bytes of the whole text. -/
def expect (size : Nat) (c : Char) : TypeReader Unit := do
  unless ← eat c do
    throw (.expectedChar c (size - byteLength (← get)))

/-- Takes the letters, digits and underscores that come next. -/
def word : TypeReader String := fun text =>
  let isWord (c : Char) : Bool := c.isAlphanum || c == '_'
  .ok (String.ofList (text.takeWhile isWord), text.dropWhile isWord)

/-- Takes an unsigned 64-bit number. -/
def number : TypeReader Nat := do
  let found ← word
  let digits := found.toList
  let value := digits.foldl (fun n c => 10 * n + (c.toNat - '0'.toNat)) 0
  if !digits.isEmpty && digits.all Char.isDigit && value < twoPow 64 then return value
  else throw (.expectedNumber found)

/-- Takes the length of an array. -/
def length : TypeReader ArrayLength := do
  match (← get).head? with
  | some c =>
    if c.isDigit then return .fixed (← number)
    else if c.isAlpha || c == '_' then return .var (← word)
    else throw .expectedLength
  | none => throw .expectedLength

/-- The sized type of a base, if there is one of that width. -/
def sized (base : String) (bits : Nat) : Except TypeFault Ty :=
  if base = "int" ∧ bits ∈ [8, 16, 32, 64] then .ok (.sizedInt bits)
  else if base = "frac" ∧ bits ∈ [32, 64] then .ok (.sizedFrac bits)
  else .error (.unsupportedWidth base bits)

/-- Takes the width of a sized type, if one is given. -/
def width (size : Nat) (base : String) (unsized : Ty) : TypeReader Ty := do
  if ← eat '<' then
    let bits ← number
    expect size '>'
    if twoPow 32 ≤ bits then throw .widthTooLarge
    sized base bits
  else return unsized

mutual

/--
Takes a type. The first argument bounds how deeply types nest; each level takes a character, so
that the length of the text is always enough.
-/
def type (size : Nat) : Nat → TypeReader Ty
  | 0 => throw .missingName
  | bound + 1 => do
    match ← word with
    | "" => throw .missingName
    | "int" => width size "int" .int
    | "frac" => width size "frac" .frac
    | "bool" => return .bool
    | "str" => return .str
    | "ptr" => return .ptr
    | "none" => return .none
    | "array" =>
      expect size '<'
      let element ← part size bound
      expect size ','
      let length ← length
      expect size '>'
      return .array element length
    | "tuple" =>
      expect size '<'
      let first ← part size bound
      let rest ← parts size bound
      expect size '>'
      return .tuple (first :: rest)
    | "fn" =>
      expect size '<'
      let params ←
        if ← eatArrow then pure []
        else
          let first ← part size bound
          let rest ← parts size bound
          unless ← eatArrow do throw .missingArrow
          pure (first :: rest)
      let result ← part size bound
      expect size '>'
      return .function params result
    | name =>
      if (name.toList.head?.map Char.isUpper).getD false then return .var name
      else throw (.unknown name)

/-- Takes a type inside another one, which may have a `!` in front. -/
def part (size : Nat) : Nat → TypeReader Ty
  | 0 => throw .missingName
  | bound + 1 => do
    let _ ← eat '!'
    type size bound

/-- Takes the remaining types of a list, each after a comma. -/
def parts (size : Nat) : Nat → TypeReader (List Ty)
  | 0 => return []
  | bound + 1 => do
    if ← eat ',' then
      let first ← part size bound
      return first :: (← parts size bound)
    else return []

end

end TypeReader

/-- Reads the text of a type token. -/
def Ty.ofText (text : String) : Except TypeFault Ty := do
  let chars := text.toList
  let (type, rest) ← (TypeReader.type (byteLength chars) (3 * chars.length + 3)).run chars
  if rest.isEmpty then return type
  else throw (.trailing (String.ofList rest))

end FormCompiler
