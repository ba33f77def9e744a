import FormCompiler.Diagnostic.Basic
import FormCompiler.Flow.Print

/-!
# What lowering reports

Lowering relies on what the checker found out. Where that is not enough, it gives up on the function
with a `LowerProblem`; the other functions are not affected. A `ReleaseWarning` is about an
allocation that the program never frees.
-/

namespace FormCompiler

open FormCompiler.Flow

/-- Why a function cannot be lowered. -/
inductive LowerFault where
  | resultUnknown
  | notConcrete
  | untyped
  | noValue
  | unknownName (name : String)
  | unboundTarget (name : String)
  | notIndexable (type : ValueType)
  | unnamedTarget
  | notArray (type : ValueType)
  | lengthRange
  | noSignature (name : String)
  | foreignGeneric (name : String)
  | noInstantiation
  | openInstantiation
  | tupleRange
  | tupleIndex
  | branchValue
  | outsideLoop (form : String)
  | returnValue
  | globalType
deriving DecidableEq, Repr, Inhabited

/-- The wording of a fault. -/
def LowerFault.message : LowerFault → String
  | resultUnknown => "return type was never inferred"
  | notConcrete => "type is not concrete after substitution"
  | untyped => "expression was never typed"
  | noValue => "operand has no value"
  | unknownName name => s!"`{name}` is neither local nor global"
  | unboundTarget name => s!"assignment to unbound `{name}`"
  | notIndexable type => s!"cannot index a value of type {type.text}"
  | unnamedTarget => "element assignment needs a named array"
  | notArray type => s!"expected an array, found {type.text}"
  | lengthRange => "array length exceeds the integer range"
  | noSignature name => s!"no signature for `{name}`"
  | foreignGeneric name => s!"generic `{name}` is defined in another unit"
  | noInstantiation => "generic call without an instantiation"
  | openInstantiation => "instantiation is not concrete"
  | tupleRange => "tuple index out of range"
  | tupleIndex => "tuple index must be a literal"
  | branchValue => "branch of a valued `if` has no value"
  | outsideLoop form => s!"`{form}` outside of a loop"
  | returnValue => "`return` without a value"
  | globalType => "global constant has no concrete type"

/-- A fault at a place. -/
structure LowerError where
  span : Span
  fault : LowerFault
deriving DecidableEq, Repr, Inhabited

/-- A function, or a global constant, that could not be lowered. -/
structure LowerProblem where
  name : String
  fault : LowerFault
  span : Span
deriving DecidableEq, Repr, Inhabited

namespace LowerProblem

/-- The code of a problem. -/
def code (_ : LowerProblem) : Code := .internalError

/-- The wording of a problem. -/
def message (p : LowerProblem) : String :=
  s!"internal error lowering `{p.name}`: {p.fault.message}"

/-- The diagnostic of a problem. -/
def diagnostic (p : LowerProblem) : Diagnostic :=
  (Diagnostic.ofCode p.code p.message).withLabel p.span "while lowering this"

end LowerProblem

/-- An allocation that is never freed, so that it is released when its scope ends. -/
structure ReleaseWarning where
  span : Span
  /-- The local that holds the allocation. -/
  name : Option String
deriving DecidableEq, Repr, Inhabited

namespace ReleaseWarning

/-- The code of a warning. -/
def code (_ : ReleaseWarning) : Code := .implicitRelease

/-- The wording of a warning. -/
def message (w : ReleaseWarning) : String :=
  match w.name with
  | some name => s!"`{name}` is never freed; it is released when its scope ends"
  | none => "allocation is never freed; it is released when its scope ends"

/-- The diagnostic of a warning. -/
def diagnostic (w : ReleaseWarning) : Diagnostic :=
  ((Diagnostic.ofCode w.code w.message).withLabel w.span "allocated here").withNote
    "release it with `free` before the scope ends"

end ReleaseWarning

end FormCompiler
