import FormCompiler.Word.Basic

/-!
# Types

A `Ty` is a type of the language. Array lengths and types may be variables; a declaration whose
types have variables is generic. `Ty.resolve` takes a type as it is written to the one it stands
for: 64 bits is the width of the types without one.
-/

namespace FormCompiler

/-- The length of an array. -/
inductive ArrayLength where
  | fixed (length : Nat)
  | var (name : String)
deriving DecidableEq, Repr, Inhabited

/-- A type. -/
inductive Ty where
  | int
  | frac
  | bool
  | str
  | ptr
  | none
  /-- An integer of a given number of bits. -/
  | sizedInt (bits : Nat)
  /-- A fraction of a given number of bits. -/
  | sizedFrac (bits : Nat)
  | array (element : Ty) (length : ArrayLength)
  | tuple (elements : List Ty)
  | function (params : List Ty) (result : Ty)
  | var (name : String)
deriving Repr, Inhabited

namespace ArrayLength

/-- Whether a length is a variable. -/
def isGeneric : ArrayLength → Bool
  | fixed _ => false
  | var _ => true

/-- The variables in a length. -/
def vars : ArrayLength → List String
  | fixed _ => []
  | var name => [name]

/-- The written form of a length. -/
def text : ArrayLength → String
  | fixed n => toString n
  | var name => name

end ArrayLength

/-! ## Equality -/

mutual

/-- Whether two types are the same. -/
def Ty.same : Ty → Ty → Bool
  | .int, .int => true
  | .frac, .frac => true
  | .bool, .bool => true
  | .str, .str => true
  | .ptr, .ptr => true
  | .none, .none => true
  | .sizedInt m, .sizedInt n => m == n
  | .sizedFrac m, .sizedFrac n => m == n
  | .array s m, .array t n => s.same t && m == n
  | .tuple ss, .tuple ts => sameTypes ss ts
  | .function ss s, .function ts t => sameTypes ss ts && s.same t
  | .var a, .var b => a == b
  | _, _ => false

/-- Whether two lists of types are the same. -/
def sameTypes : List Ty → List Ty → Bool
  | [], [] => true
  | s :: ss, t :: ts => s.same t && sameTypes ss ts
  | _, _ => false

end

mutual

theorem Ty.same_iff : ∀ s t : Ty, s.same t = true ↔ s = t
  | .array s m, t => by cases t <;> simp [Ty.same, Ty.same_iff s]
  | .tuple ss, t => by cases t <;> simp [Ty.same, sameTypes_iff ss]
  | .function ss s, t => by cases t <;> simp [Ty.same, sameTypes_iff ss, Ty.same_iff s]
  | .int, t | .frac, t | .bool, t | .str, t | .ptr, t | .none, t => by cases t <;> simp [Ty.same]
  | .sizedInt _, t | .sizedFrac _, t | .var _, t => by cases t <;> simp [Ty.same]

theorem sameTypes_iff : ∀ ss ts : List Ty, sameTypes ss ts = true ↔ ss = ts
  | [], [] => by simp [sameTypes]
  | s :: ss, t :: ts => by simp [sameTypes, Ty.same_iff s t, sameTypes_iff ss ts]
  | [], _ :: _ => by simp [sameTypes]
  | _ :: _, [] => by simp [sameTypes]

end

instance : DecidableEq Ty := fun s t =>
  decidable_of_iff (s.same t = true) (Ty.same_iff s t)

/-! ## Variables -/

mutual

/-- Whether a type has variables. -/
def Ty.isGeneric : Ty → Bool
  | .var _ => true
  | .array element length => length.isGeneric || element.isGeneric
  | .tuple elements => anyGeneric elements
  | .function params result => anyGeneric params || result.isGeneric
  | .int | .frac | .bool | .str | .ptr | .none | .sizedInt _ | .sizedFrac _ => false

/-- Whether one of several types has variables. -/
def anyGeneric : List Ty → Bool
  | [] => false
  | type :: types => type.isGeneric || anyGeneric types

end

mutual

/-- Every occurrence of a variable in a type, from left to right. -/
def Ty.varOccurrences : Ty → List String
  | .var name => [name]
  | .array element length => element.varOccurrences ++ length.vars
  | .tuple elements => varOccurrencesIn elements
  | .function params result => varOccurrencesIn params ++ result.varOccurrences
  | .int | .frac | .bool | .str | .ptr | .none | .sizedInt _ | .sizedFrac _ => []

/-- Every occurrence of a variable in a list of types, from left to right. -/
def varOccurrencesIn : List Ty → List String
  | [] => []
  | type :: types => type.varOccurrences ++ varOccurrencesIn types

end

/-- The variables of several types, each once, in the order in which they first occur. -/
def distinctVars (types : List Ty) : List String := (varOccurrencesIn types).eraseDups

/-! ## Resolution -/

mutual

/-- The type that a written type stands for. -/
def Ty.resolve : Ty → Ty
  | .sizedInt bits => if bits = 64 then .int else .sizedInt bits
  | .sizedFrac bits => if bits = 64 then .frac else .sizedFrac bits
  | .array element length => .array element.resolve length
  | .tuple elements => .tuple (resolveTypes elements)
  | .function params result => .function (resolveTypes params) result.resolve
  | .int => .int
  | .frac => .frac
  | .bool => .bool
  | .str => .str
  | .ptr => .ptr
  | .none => .none
  | .var name => .var name

/-- The types that written types stand for. -/
def resolveTypes : List Ty → List Ty
  | [] => []
  | type :: types => type.resolve :: resolveTypes types

end

/-! ## Classes of types -/

namespace Ty

/-- Whether a type is one of integers. -/
def isInteger : Ty → Bool
  | int | sizedInt _ => true
  | _ => false

/-- Whether a type is one of fractions. -/
def isFraction : Ty → Bool
  | frac | sizedFrac _ => true
  | _ => false

/-- Whether a type is a type variable. -/
def isVar : Ty → Bool
  | var _ => true
  | _ => false

/-- Whether a type may be calculated with. A variable may, because instantiation decides. -/
def isNumeric (t : Ty) : Bool := t.isInteger || t.isFraction || t.isVar

/-- Whether the values of a type fit in one register. -/
def isPrimitive : Ty → Bool
  | int | frac | bool | ptr | sizedInt _ | sizedFrac _ => true
  | _ => false

/-- Whether an integer literal can be given a type. -/
def fitsLiteral (value : Int) : Ty → Bool
  | int => true
  | sizedInt bits => Word.fits value bits
  | _ => false

end Ty

/-! ## Written forms -/

mutual

/-- The written form of a type. -/
def Ty.text : Ty → String
  | .int => "!int"
  | .frac => "!frac"
  | .bool => "!bool"
  | .str => "!str"
  | .ptr => "!ptr"
  | .none => "!none"
  | .sizedInt bits => s!"!int<{bits}>"
  | .sizedFrac bits => s!"!frac<{bits}>"
  | .array element length => "!array<" ++ element.text ++ "," ++ length.text ++ ">"
  | .tuple elements => "!tuple<" ++ ",".intercalate (typeTexts elements) ++ ">"
  | .function params result =>
    "!fn<" ++ ",".intercalate (typeTexts params) ++ "->" ++ result.text ++ ">"
  | .var name => "!" ++ name

/-- The written forms of several types. -/
def typeTexts : List Ty → List String
  | [] => []
  | type :: types => type.text :: typeTexts types

end

mutual

/-- The part of an instance's name that stands for a type. -/
def Ty.mangle : Ty → String
  | .int => "int"
  | .frac => "frac"
  | .bool => "bool"
  | .str => "str"
  | .ptr => "ptr"
  | .none => "none"
  | .sizedInt bits => s!"int{bits}"
  | .sizedFrac bits => s!"frac{bits}"
  | .array element length => "array_" ++ element.mangle ++ "_" ++ length.text
  | .tuple elements => "tuple_" ++ "_".intercalate (mangledTypes elements)
  | .function params result =>
    "fn_" ++ "_".intercalate (mangledTypes params) ++ "_" ++ result.mangle
  | .var name => name

/-- The parts of an instance's name that stand for several types. -/
def mangledTypes : List Ty → List String
  | [] => []
  | type :: types => type.mangle :: mangledTypes types

end

end FormCompiler
