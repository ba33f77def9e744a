import FormCompiler.Text.Number
import FormCompiler.Text.Split
import FormCompiler.Ty.Basic

/-!
# Types of values

The types of the values that instructions work on. They have no variables, since generic functions
are instantiated first, and every number has a width. `ValueType.text` is the written form of a
type, and `ValueType.ofText` reads it.
-/

namespace FormCompiler.Flow

/-- The type of a value or of a slot. -/
inductive ValueType where
  /-- A signed integer of a number of bits. -/
  | int (bits : Nat)
  /-- A floating-point number of a number of bits. -/
  | float (bits : Nat)
  | bool
  | str
  | ptr
  | none
  | array (element : ValueType) (length : Nat)
  | tuple (elements : List ValueType)
  | function (params : List ValueType) (result : ValueType)
  /-- A number of lanes of one type. -/
  | vector (lane : ValueType) (width : Nat)
deriving Repr, Inhabited

/-! ## Equality -/

mutual

/-- Whether two types are the same. -/
def ValueType.same : ValueType → ValueType → Bool
  | .int m, .int n => m == n
  | .float m, .float n => m == n
  | .bool, .bool => true
  | .str, .str => true
  | .ptr, .ptr => true
  | .none, .none => true
  | .array s m, .array t n => s.same t && m == n
  | .tuple ss, .tuple ts => sameTypes ss ts
  | .function ss s, .function ts t => sameTypes ss ts && s.same t
  | .vector s m, .vector t n => s.same t && m == n
  | _, _ => false

/-- Whether two lists of types are the same. -/
def sameTypes : List ValueType → List ValueType → Bool
  | [], [] => true
  | s :: ss, t :: ts => s.same t && sameTypes ss ts
  | _, _ => false

end

mutual

theorem ValueType.same_iff : ∀ s t : ValueType, s.same t = true ↔ s = t
  | .array s _, t | .vector s _, t => by cases t <;> simp [ValueType.same, ValueType.same_iff s]
  | .tuple ss, t => by cases t <;> simp [ValueType.same, sameTypes_iff ss]
  | .function ss s, t => by
    cases t <;> simp [ValueType.same, sameTypes_iff ss, ValueType.same_iff s]
  | .int _, t | .float _, t | .bool, t | .str, t | .ptr, t | .none, t => by
    cases t <;> simp [ValueType.same]

theorem sameTypes_iff : ∀ ss ts : List ValueType, sameTypes ss ts = true ↔ ss = ts
  | [], [] => by simp [sameTypes]
  | s :: ss, t :: ts => by simp [sameTypes, ValueType.same_iff s t, sameTypes_iff ss ts]
  | [], _ :: _ => by simp [sameTypes]
  | _ :: _, [] => by simp [sameTypes]

end

instance : DecidableEq ValueType := fun s t =>
  decidable_of_iff (s.same t = true) (ValueType.same_iff s t)

/-! ## From the types of the language -/

mutual

/-- The type of the values of a type without variables. -/
def ValueType.ofTy? : Ty → Option ValueType
  | .int => some (.int 64)
  | .frac => some (.float 64)
  | .bool => some .bool
  | .str => some .str
  | .ptr => some .ptr
  | .none => some .none
  | .sizedInt bits => some (.int bits)
  | .sizedFrac bits => some (.float bits)
  | .array element (.fixed n) => do
    let element ← ValueType.ofTy? element
    return .array element n
  | .array _ (.var _) => none
  | .tuple elements => do
    let elements ← valueTypes? elements
    return .tuple elements
  | .function params result => do
    let params ← valueTypes? params
    let result ← ValueType.ofTy? result
    return .function params result
  | .var _ => none

/-- The types of the values of types without variables. -/
def valueTypes? : List Ty → Option (List ValueType)
  | [] => some []
  | type :: types => do
    let type ← ValueType.ofTy? type
    let types ← valueTypes? types
    return type :: types

end

/-! ## Classes and sizes -/

namespace ValueType

/-- Whether a type is one of integers. -/
def isInt : ValueType → Bool
  | int _ => true
  | _ => false

/-- Whether a type is one of floating-point numbers. -/
def isFloat : ValueType → Bool
  | float _ => true
  | _ => false

/-- Whether a type is one of numbers. -/
def isNumeric (t : ValueType) : Bool := t.isInt || t.isFloat

/-- Whether the values of a type fit in one register. -/
def isScalar : ValueType → Bool
  | int _ | float _ | bool | ptr | str | function _ _ => true
  | _ => false

/-- Whether a type is the one without values. -/
def isNone (t : ValueType) : Bool := t = none

/-- The element type and the length of an array type. -/
def array? : ValueType → Option (ValueType × Nat)
  | array element length => some (element, length)
  | _ => Option.none

end ValueType

mutual

/-- The number of words that a value of a type takes in memory. -/
def ValueType.words : ValueType → Nat
  | .none => 0
  | .array element length => element.words * length
  | .tuple elements => totalWords elements
  | .vector _ width => width
  | .int _ | .float _ | .bool | .str | .ptr | .function _ _ => 1

/-- The number of words that values of several types take together. -/
def totalWords : List ValueType → Nat
  | [] => 0
  | type :: types => type.words + totalWords types

end

/-! ## Written form -/

mutual

/-- The written form of a type. -/
def ValueType.text : ValueType → String
  | .int bits => s!"i{bits}"
  | .float bits => s!"f{bits}"
  | .bool => "bool"
  | .str => "str"
  | .ptr => "ptr"
  | .none => "none"
  | .array element length => "[" ++ element.text ++ "; " ++ toString length ++ "]"
  | .tuple elements => "(" ++ ", ".intercalate (typeTexts elements) ++ ")"
  | .function params result =>
    "fn(" ++ ", ".intercalate (typeTexts params) ++ ") -> " ++ result.text
  | .vector lane width => "<" ++ toString width ++ " x " ++ lane.text ++ ">"

/-- The written forms of several types. -/
def typeTexts : List ValueType → List String
  | [] => []
  | type :: types => type.text :: typeTexts types

end

/-! ## Reading -/

/-- Why a text is not a type. -/
inductive TypeFault where
  | trailing (rest : String)
  | expected (token text : String)
  | expectedNumber (text : String)
  | widthTooLarge (text : String)
  | unknown (text : String)
deriving DecidableEq, Repr, Inhabited

/-- The message of a type fault. -/
def TypeFault.message : TypeFault → String
  | trailing rest => s!"trailing `{rest}` after type"
  | expected token text => s!"expected `{token}` in type `{text}`"
  | expectedNumber text => s!"expected number in type `{text}`"
  | widthTooLarge text => s!"bit width too large in `{text}`"
  | unknown text => s!"unknown type `{text}`"

/-- Reads a part of a type from the text still to come. -/
abbrev TypeReader := StateT (List Char) (Except TypeFault)

namespace TypeReader

/-- Takes a token if it comes next. -/
def eat (token : String) : TypeReader Bool := fun text =>
  match Text.after? token.toList text with
  | some rest => .ok (true, rest)
  | none => .ok (false, text)

/-- Takes a token that has to come next; `whole` is the text of the whole type. -/
def expect (whole token : String) : TypeReader Unit := do
  unless ← eat token do throw (.expected token whole)

/-- Takes an unsigned 64-bit number. -/
def number (whole : String) : TypeReader Nat := fun text =>
  match Text.nat64? (text.takeWhile Char.isDigit) with
  | some n => .ok (n, text.dropWhile Char.isDigit)
  | none => .error (.expectedNumber whole)

/-- Takes an unsigned 32-bit number. -/
def width (whole : String) : TypeReader Nat := do
  let n ← number whole
  if n < twoPow 32 then return n else throw (.widthTooLarge whole)

mutual

/--
Takes a type. The second argument bounds how deeply types nest; each level takes a character, so
that the length of the text is always enough.
-/
def type (whole : String) : Nat → TypeReader ValueType
  | 0 => throw (.unknown whole)
  | bound + 1 => do
    if ← eat "bool" then return .bool
    if ← eat "str" then return .str
    if ← eat "ptr" then return .ptr
    if ← eat "none" then return .none
    if ← eat "fn(" then
      let params ← types whole bound
      expect whole " -> "
      let result ← type whole bound
      return .function params result
    if ← eat "i" then return .int (← width whole)
    if ← eat "f" then return .float (← width whole)
    if ← eat "[" then
      let element ← type whole bound
      expect whole "; "
      let length ← number whole
      expect whole "]"
      return .array element length
    if ← eat "(" then return .tuple (← types whole bound)
    if ← eat "<" then
      let width ← width whole
      expect whole " x "
      let lane ← type whole bound
      expect whole ">"
      return .vector lane width
    throw (.unknown whole)

/-- Takes types up to a closing parenthesis. -/
def types (whole : String) : Nat → TypeReader (List ValueType)
  | 0 => throw (.unknown whole)
  | bound + 1 => do
    if ← eat ")" then return []
    let first ← type whole bound
    let rest ← moreTypes whole bound
    return first :: rest

/-- Takes the remaining types up to a closing parenthesis, each after a comma. -/
def moreTypes (whole : String) : Nat → TypeReader (List ValueType)
  | 0 => throw (.unknown whole)
  | bound + 1 => do
    if ← eat ")" then return []
    expect whole ", "
    let next ← type whole bound
    let rest ← moreTypes whole bound
    return next :: rest

end

end TypeReader

/-- Reads the written form of a type. -/
def ValueType.ofText (text : String) : Except TypeFault ValueType := do
  let (type, rest) ← (TypeReader.type text (2 * text.length + 2)).run text.toList
  if rest.isEmpty then return type else throw (.trailing (String.ofList rest))

end FormCompiler.Flow
