import FormCompiler.Scope.Symbols
import FormCompiler.Typing.Checked

/-!
# The state of the checker

A check reads and changes a `CheckState` and may end with a `TypeProblem`. The first problem of a
top-level form ends the check of that form only.
-/

namespace FormCompiler

/-- The function whose body is being checked. -/
structure FunctionContext where
  name : String
  /-- The written result type. -/
  declared : Option Ty
  /-- The type of the first returned value, where no result type is written. -/
  inferred : Option Ty
  typeVars : List String
deriving DecidableEq, Repr, Inhabited

/-- The state of the checker. -/
structure CheckState where
  /-- The signatures that other units offer. -/
  imports : List FunctionSig
  symbols : SymbolTable
  context : Option FunctionContext
  /-- The number of loops around the current form. -/
  loopDepth : Nat
  checked : CheckedModule
deriving Repr, Inhabited

/-- A check that may end with a problem. -/
abbrev Check := ExceptT TypeProblem (StateM CheckState)

namespace Check

/-- Changes what has been found out. -/
def learn (f : CheckedModule → CheckedModule) : Check Unit :=
  modify fun s => { s with checked := f s.checked }

/-- Gives an expression a type. -/
def record (id : Nat) (type : Ty) : Check Unit :=
  learn fun c => { c with exprTypes := c.exprTypes.record id type }

/-- Adds a warning. -/
def warn (span : Span) (kind : WarningKind) : Check Unit :=
  learn fun c => { c with warnings := c.warnings ++ [⟨span, kind⟩] }

/-- Ends with a problem. -/
def fail (span : Span) (kind : ProblemKind) : Check α := throw ⟨span, kind⟩

/-! ## Names -/

/-- The problem that a symbol error is at a place. -/
def symbolProblem (name : String) (span : Span) : SymbolError → TypeProblem
  | .unbound => ⟨span, .unboundName name⟩
  | .redeclared previous => ⟨span, .redeclaration name previous⟩
  | .constant declared => ⟨span, .mutation name declared⟩

/-- Binds a name in the current scope, with a warning if a local hides another binding. -/
def declare (symbol : Symbol) : Check Unit := do
  match (← get).symbols.declare symbol with
  | .error e => throw (symbolProblem symbol.name symbol.span e)
  | .ok (hidden, symbols) =>
    modify fun s => { s with symbols := symbols }
    match hidden with
    | some outer =>
      if symbol.storage = .stack then warn symbol.span (.shadowed symbol.name outer)
    | none => pure ()

/-- Whether a binding should have been read: a local whose name does not start with `_`. -/
def isUnread (symbol : Symbol) : Bool :=
  symbol.storage == .stack && !symbol.isUsed && !symbol.name.startsWith "_"

/-- Leaves the current scope, with a warning for each local that was not read. -/
def leaveScope : Check Unit := do
  let (released, symbols) := (← get).symbols.leave
  modify fun s => { s with symbols := symbols }
  learn fun c =>
    { c with
      warnings := c.warnings ++
        (released.filter isUnread).map fun s => ⟨s.span, .unused s.name⟩ }

/-- Runs a check in a scope of its own. -/
def inScope (check : Check α) : Check α := do
  modify fun s => { s with symbols := s.symbols.enter }
  let result ← check
  leaveScope
  return result

/-- Runs a check inside a loop. -/
def inLoop (check : Check α) : Check α := do
  modify fun s => { s with loopDepth := s.loopDepth + 1 }
  let result ← check
  modify fun s => { s with loopDepth := s.loopDepth - 1 }
  return result

/-! ## Written types -/

/-- The type that a written type stands for; its variables have to be those of the function. -/
def annotated (type : Ty) (span : Span) : Check Ty := do
  let known := ((← get).context.map (·.typeVars)).getD []
  match (distinctVars [type]).find? fun name => !known.contains name with
  | some name => fail span (.misuse (.unknownVar name))
  | none => return type.resolve

end Check

/-! ## Literals -/

mutual

/--
Gives a literal, or an array or tuple of literals, an expected type if it fits. The answer is
whether it does. What has been recorded about the parts stays even if it does not.
-/
def coerceLiteral (expected : Ty) : Expr → StateM ExprTypes Bool
  | .node id _ shape => do
    let fits ← coerceShape expected shape
    if fits then modify (·.record id expected)
    return fits

/-- Gives the parts of a form the types that an expected type needs. -/
def coerceShape (expected : Ty) : Shape Expr → StateM ExprTypes Bool
  | .literal (.int n) => return expected.fitsLiteral n
  | .literal (.frac _) => return expected.isFraction
  | .array items =>
    match expected with
    | .array element (.fixed n) =>
      if items.length = n then coerceAll element items else return false
    | _ => return false
  | .tuple items =>
    match expected with
    | .tuple elements =>
      if items.length = elements.length then coerceEach elements items else return false
    | _ => return false
  | _ => return false

/-- Gives all items one type. -/
def coerceAll (expected : Ty) : List Expr → StateM ExprTypes Bool
  | [] => return true
  | item :: items => do
    let fits ←
      if (← get).type? item.id = some expected then pure true else coerceLiteral expected item
    if fits then coerceAll expected items else return false

/-- Gives each item its own type. -/
def coerceEach : List Ty → List Expr → StateM ExprTypes Bool
  | expected :: types, item :: items => do
    let fits ←
      if (← get).type? item.id = some expected then pure true else coerceLiteral expected item
    if fits then coerceEach types items else return false
  | _, _ => return true

end

namespace Check

/-- Gives an expression an expected type if it is a literal that fits. -/
def coerce (expected : Ty) (e : Expr) : Check Bool := do
  let (fits, types) := (coerceLiteral expected e).run (← get).checked.exprTypes
  learn fun c => { c with exprTypes := types }
  return fits

/-- Requires an expression of a found type to be of an expected one. -/
def expectAssignable (expected : Ty) (e : Expr) (found : Ty) : Check Unit := do
  if expected = found then return
  unless ← coerce expected e do throw (.mismatch e.span expected found)

end Check

end FormCompiler
