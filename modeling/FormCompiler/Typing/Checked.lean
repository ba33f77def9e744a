import FormCompiler.Typing.Problem

/-!
# What checking finds out

The types of expressions, the signatures of functions, and everything else that the checker learns
about a unit and that making instructions needs.
-/

namespace FormCompiler

/-! ## Signatures -/

/-- What declares a signature. -/
inductive FunctionKind where
  | function
  | operator
  | foreign (library : String)
deriving DecidableEq, Repr, Inhabited

/-- The signature of a function, a declared operator or a foreign function. -/
structure FunctionSig where
  name : String
  params : List (String × Ty)
  /-- The result type; there is none as long as it has to be inferred. -/
  result : Option Ty
  /-- The variables of the parameter types, in the order in which they first occur. -/
  typeVars : List String
  kind : FunctionKind
  /-- Whether the function calls itself in tail position. -/
  isTailRecursive : Bool
  span : Span
deriving DecidableEq, Repr, Inhabited

namespace FunctionSig

/-- Whether a signature has type variables. -/
def isGeneric (sig : FunctionSig) : Bool := !sig.typeVars.isEmpty

/-- The types of the parameters. -/
def paramTypes (sig : FunctionSig) : List Ty := sig.params.map (·.2)

/-- The type of the function, once its result type is known. -/
def type? (sig : FunctionSig) : Option Ty := sig.result.map (.function sig.paramTypes)

end FunctionSig

/-! ## Types of expressions -/

/-- The types of the expressions of a unit, by identifier. -/
abbrev ExprTypes := List (Option Ty)

namespace ExprTypes

/-- The types of so many expressions before any is known. -/
def unknown (count : Nat) : ExprTypes := List.replicate count none

/-- The type of an expression. -/
def type? (types : ExprTypes) (id : Nat) : Option Ty := (types[id]?).join

/-- Gives an expression a type. -/
def record (types : ExprTypes) (id : Nat) (type : Ty) : ExprTypes := types.set id (some type)

end ExprTypes

/-! ## Checked units -/

/-- A call of a generic function: what it binds the variables of the callee to. -/
structure Instantiation where
  callee : String
  bindings : Substitution
deriving DecidableEq, Repr, Inhabited

/-- A global constant with its value. -/
structure GlobalConst where
  name : String
  type : Ty
  value : ConstValue
  span : Span
deriving Repr, Inhabited

/-- Everything that checking finds out about a unit. -/
structure CheckedModule where
  exprTypes : ExprTypes
  /-- The signatures, in the order of their declaration. -/
  signatures : List FunctionSig
  /-- The generic calls, by expression. -/
  instantiations : List (Nat × Instantiation)
  /-- The calls of the enclosing function in tail position. -/
  tailCalls : List Nat
  /-- The element accesses whose index has to be compared with the length when they run. -/
  dynamicIndices : List Nat
  globals : List GlobalConst
  /-- The signatures of other units that are called. -/
  imported : List FunctionSig
  problems : List TypeProblem
  warnings : List TypeWarning
deriving Repr, Inhabited

namespace CheckedModule

/-- The result before anything is checked, for a unit with so many expressions. -/
def initial (exprCount : Nat) : CheckedModule :=
  ⟨.unknown exprCount, [], [], [], [], [], [], [], []⟩

/-- The type of an expression. -/
def type? (checked : CheckedModule) (id : Nat) : Option Ty := checked.exprTypes.type? id

/-- A signature that the unit declares. -/
def declared? (checked : CheckedModule) (name : String) : Option FunctionSig :=
  checked.signatures.find? (·.name == name)

/-- A signature that the unit declares or takes from another unit. -/
def signature? (checked : CheckedModule) (name : String) : Option FunctionSig :=
  (checked.signatures ++ checked.imported).find? (·.name == name)

/-- A global constant. -/
def global? (checked : CheckedModule) (name : String) : Option GlobalConst :=
  checked.globals.find? (·.name == name)

/-- What a generic call binds. -/
def instantiation? (checked : CheckedModule) (id : Nat) : Option Instantiation :=
  checked.instantiations.lookup id

/-- Whether an expression is a call of the enclosing function in tail position. -/
def isTailCall (checked : CheckedModule) (id : Nat) : Bool := checked.tailCalls.contains id

/-- Whether the index of an element access has to be compared with the length when it runs. -/
def isDynamicIndex (checked : CheckedModule) (id : Nat) : Bool :=
  checked.dynamicIndices.contains id

end CheckedModule

end FormCompiler
