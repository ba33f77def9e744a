import FormCompiler.Diagnostic.Basic
import FormCompiler.Ty.Substitution
import FormCompiler.Typing.Constant

/-!
# Problems found by the checker

A `TypeProblem` stops the form it is found in; a `TypeWarning` does not. `ProblemKind` lists what
can be wrong, and `ProblemKind.message` words it.
-/

namespace FormCompiler

/-- What was expected where another type was found. -/
inductive Expectation where
  | type (type : Ty)
  | anArray
  | anArrayOrTuple
  | anInteger
  | aNumber
  | aScalar
deriving DecidableEq, Repr, Inhabited

/-- The written form of an expectation. -/
def Expectation.text : Expectation → String
  | type t => t.text
  | anArray => "!array"
  | anArrayOrTuple => "!array or !tuple"
  | anInteger => "an integer type"
  | aNumber => "a numeric type"
  | aScalar => "a scalar type"

/-- What cannot be inferred. -/
inductive Unknown where
  /-- A variable that no parameter type mentions. -/
  | resultVar (name : String)
  /-- The result type of a function whose body comes later. -/
  | resultType (callee : String)
  | bindingType (name : String)
  | elementType
deriving DecidableEq, Repr, Inhabited

/-- The written form of something that cannot be inferred. -/
def Unknown.text : Unknown → String
  | resultVar name => s!"`{name}`: it appears only in the return type"
  | resultType callee =>
    s!"the return type of `{callee}` here; annotate it with `-> !type`"
  | bindingType name => s!"the type of `{name}`: its initialiser has no value"
  | elementType => "the element type of an empty array"

/-- A jump that has nothing to leave. -/
inductive StrayJump where
  | breakLoop
  | continueLoop
  | ret
deriving DecidableEq, Repr, Inhabited

/-- The message for a stray jump. -/
def StrayJump.message : StrayJump → String
  | breakLoop => "`break` outside of a loop"
  | continueLoop => "`continue` outside of a loop"
  | ret => "`return` outside of a function"

/-- A wrong use of a resource. -/
inductive ResourceFault where
  | freed (name : String)
  | notAllocation (name : String) (found : Ty)
deriving DecidableEq, Repr, Inhabited

/-- The message for a wrong use of a resource. -/
def ResourceFault.message : ResourceFault → String
  | freed name =>
    s!"`{name}` is released by `with-resources` and cannot be freed explicitly"
  | notAllocation name found =>
    s!"resource `{name}` must be an allocation, found `{found.text}`"

/-- A form that has no type for another reason. -/
inductive Misuse where
  | genericForeign
  | constant (fault : ConstFault)
  | unknownVar (name : String)
  | functionAsValue (name : String)
  | notFunction (name : String)
  | noSignature (name : String)
  | unnamedArray
  | tupleAssignment
  | tupleIndex
  | noHandle
deriving DecidableEq, Repr, Inhabited

/-- The message for a misuse. -/
def Misuse.message : Misuse → String
  | genericForeign => "extern functions cannot be generic"
  | constant fault => fault.message
  | unknownVar name => s!"unknown type variable `{name}`"
  | functionAsValue name => s!"`{name}` is a function; call it with `[{name} ...]`"
  | notFunction name => s!"`{name}` is not a function"
  | noSignature name => s!"`{name}` has no signature"
  | unnamedArray => "element assignment needs a named array"
  | tupleAssignment => "tuple elements cannot be assigned"
  | tupleIndex => "tuple index must be an integer literal"
  | noHandle => "mutex operation needs a handle"

/-- What is wrong with a form. -/
inductive ProblemKind where
  | unboundName (name : String)
  | redeclaration (name : String) (previous : Span)
  | mutation (name : String) (declared : Span)
  | mismatch (expected : Expectation) (found : Ty)
  | arity (callee : String) (expected found : Nat)
  | unification (name : String) (first second : Binding)
  | bounds (index : Int) (type : Ty)
  | cannotInfer (what : Unknown)
  | strayJump (jump : StrayJump)
  | resource (fault : ResourceFault)
  | misuse (what : Misuse)
deriving DecidableEq, Repr, Inhabited

namespace ProblemKind

/-- The message of a problem. -/
def message : ProblemKind → String
  | unboundName name => s!"cannot find `{name}` in this scope"
  | redeclaration name _ => s!"`{name}` is already declared in this scope"
  | mutation name _ => s!"cannot assign to constant `{name}`"
  | mismatch expected found =>
    s!"type mismatch: expected `{expected.text}`, found `{found.text}`"
  | arity callee expected found =>
    s!"`{callee}` takes {expected} argument(s) but {found} were supplied"
  | unification name first second =>
    s!"`{name}` is bound to both `{first.text}` and `{second.text}`"
  | bounds index type => s!"index {index} is out of bounds for `{type.text}`"
  | cannotInfer what => s!"cannot infer {what.text}"
  | strayJump jump => jump.message
  | resource fault => fault.message
  | misuse what => what.message

/-- The code of a problem. -/
def code : ProblemKind → Code
  | unboundName _ => .unboundName
  | redeclaration .. => .redeclaration
  | mutation .. => .assignmentToConstant
  | mismatch .. | misuse _ => .typeMismatch
  | arity .. => .argumentCount
  | unification .. => .unificationFailure
  | bounds .. => .indexOutOfBounds
  | cannotInfer _ => .uninferable
  | strayJump _ => .misplacedJump
  | resource _ => .resourceMisuse

end ProblemKind

/-- A problem and the text it is about. -/
structure TypeProblem where
  span : Span
  kind : ProblemKind
deriving DecidableEq, Repr, Inhabited

namespace TypeProblem

/-- The problem of a type where another one was expected. -/
def mismatch (span : Span) (expected found : Ty) : TypeProblem :=
  ⟨span, .mismatch (.type expected) found⟩

/-- The diagnostic of a problem. -/
def diagnostic (p : TypeProblem) : Diagnostic :=
  let d := Diagnostic.ofCode p.kind.code p.kind.message
  match p.kind with
  | .redeclaration _ previous =>
    ((d.withLabel p.span "redeclared here").withContext previous "first declared here").withNote
      "a nested `scope` may shadow an outer binding"
  | .mutation _ declared =>
    ((d.withLabel p.span "cannot assign").withContext declared "declared as `const` here").withNote
      "declare it with `var` to make it mutable"
  | .unboundName _ => d.withLabel p.span "not found"
  | .mismatch expected _ => d.withLabel p.span s!"expected `{expected.text}`"
  | _ => d.withLabel p.span "here"

end TypeProblem

/-- What the checker warns of. -/
inductive WarningKind where
  /-- Forms after a jump in the same body. -/
  | unreachable
  | unused (name : String)
  | shadowed (name : String) (outer : Span)
deriving DecidableEq, Repr, Inhabited

/-- A warning and the text it is about. -/
structure TypeWarning where
  span : Span
  kind : WarningKind
deriving DecidableEq, Repr, Inhabited

namespace TypeWarning

/-- The code of a warning. -/
def code (w : TypeWarning) : Code :=
  match w.kind with
  | .unreachable => .unreachableCode
  | .unused _ => .unusedBinding
  | .shadowed .. => .shadowedBinding

/-- The message of a warning. -/
def message (w : TypeWarning) : String :=
  match w.kind with
  | .unreachable => "unreachable code"
  | .unused name => s!"unused binding `{name}`"
  | .shadowed name _ => s!"`{name}` shadows a binding from an enclosing scope"

/-- The diagnostic of a warning. -/
def diagnostic (w : TypeWarning) : Diagnostic :=
  let d := Diagnostic.ofCode w.code w.message
  match w.kind with
  | .shadowed _ outer =>
    (d.withLabel w.span "shadowing binding").withContext outer "outer binding"
  | .unreachable => d.withLabel w.span "never executed"
  | .unused _ => d.withLabel w.span "never read"

end TypeWarning

end FormCompiler
