import FormCompiler.Ast.Item
import FormCompiler.Typing.Expr

/-!
# Checking units

A unit is checked in three rounds: first the signatures and then the global constants are declared,
next the bodies are checked in the order of the text, and last the expressions outside of
functions, in a scope that they share. A problem ends the form in which it is found, and the others
are checked all the same.
-/

namespace FormCompiler

/-- The binding of a kind of function. -/
def FunctionKind.storage : FunctionKind → Storage
  | function => .function
  | operator => .operator
  | foreign library => .foreign library

/--
The signature of a declaration. A parameter without a type is an integer. The variables of the
result type have to occur in the parameter types, and a foreign function has no variables at all.
-/
def FunctionSig.ofDecl (kind : FunctionKind) (name : String) (params : List Param)
    (result : Option Ty) (span : Span) : Except TypeProblem FunctionSig :=
  let params := params.map fun p => (p.name, (p.type.getD .int).resolve)
  let vars := distinctVars (params.map (·.2))
  let unbound := (distinctVars result.toList).find? fun name => !vars.contains name
  match unbound, kind with
  | some name, _ => .error ⟨span, .cannotInfer (.resultVar name)⟩
  | none, .foreign _ =>
    if vars.isEmpty then .ok ⟨name, params, some (result.getD .none).resolve, vars, kind, false, span⟩
    else .error ⟨span, .misuse .genericForeign⟩
  | none, _ => .ok ⟨name, params, result.map Ty.resolve, vars, kind, false, span⟩

namespace Check

/-! ## Declarations -/

/-- Declares a signature. -/
def signature (kind : FunctionKind) (name : String) (params : List Param) (result : Option Ty)
    (span : Span) : Check Unit := do
  let sig ← FunctionSig.ofDecl kind name params result span
  let type := sig.type?.getD (.function sig.paramTypes .none)
  declare (.ofStorage kind.storage false name type span)
  learn fun c => { c with signatures := c.signatures ++ [sig] }

/-- Declares the signatures of an item. -/
def itemSignatures : Item → Check Unit
  | .function decl => signature .function decl.name decl.params decl.result decl.span
  | .operator decl => signature .operator decl.symbol decl.params decl.result decl.span
  | .foreign decl =>
    decl.functions.forM fun f => signature (.foreign decl.library) f.name f.params f.result f.span
  | .group .. | .const _ | .expr _ => return

/-- Evaluates and declares a global constant. -/
def constant (decl : ConstDecl) : Check Unit := do
  let found ← expr false decl.init
  let type ←
    match decl.type with
    | some written => do
      let expected ← annotated written decl.span
      expectAssignable expected decl.init found
      pure expected
    | none => pure found
  let checked := (← get).checked
  match decl.init.constant fun name => (checked.global? name).map (·.value) with
  | .error fault => fail decl.init.span (.misuse (.constant fault))
  | .ok value =>
    declare (.ofStorage .constant false decl.name type decl.span)
    learn fun c => { c with globals := c.globals ++ [⟨decl.name, type, value, decl.span⟩] }

/-! ## Bodies -/

/-- Declares parameters, which can be assigned to. -/
def parameters : List ((String × Ty) × Param) → Check Unit
  | [] => return
  | ((name, type), param) :: rest => do
    declare (.ofStorage .stack true name type param.span)
    parameters rest

/-- Whether an expression is a loop without a test. -/
def isLoop (e : Expr) : Bool :=
  match e.shape with
  | .loop _ => true
  | _ => false

/-- Sets the result type of a function that was declared without one. -/
def inferResult (sig : FunctionSig) (result : Ty) : Check Unit := do
  modify fun s =>
    { s with
      symbols := s.symbols.setGlobalType sig.name (.function sig.paramTypes result) }
  learn fun c =>
    { c with
      signatures := c.signatures.map fun other =>
        if other.name = sig.name then { other with result := some result } else other }

/--
Checks the body of a function. The last form gives the result, unless control does not come out of
it or the function has no result.
-/
def function (sig : FunctionSig) (params : List Param) (items : List Expr) : Check Unit := do
  parameters (sig.params.zip params)
  let type ← body true false items
  let last := items.getLast?
  let endsInJump := last.any fun e => e.diverges || isLoop e
  match sig.result with
  | some result =>
    unless endsInJump || result = .none do
      match last with
      | some e => expectAssignable result e type
      | none => throw (.mismatch sig.span result .none)
  | none =>
    match (← get).context.bind (·.inferred) with
    | some result =>
      match last with
      | some e => unless endsInJump do expectAssignable result e type
      | none => pure ()
      inferResult sig result
    | none => inferResult sig (if endsInJump then .none else type)

end Check

/-! ## Rounds -/

namespace CheckState

/-- The state before anything is checked. -/
def initial (imports : List FunctionSig) (exprCount : Nat) : CheckState :=
  ⟨imports, .empty, none, 0, .initial exprCount⟩

/-- Checks a form; after a problem, the scopes inside a depth are left. -/
def attempt (depth : Nat) (check : Check Unit) (s : CheckState) : CheckState :=
  match check.run.run s with
  | (.ok _, s) => s
  | (.error problem, s) =>
    { s with
      symbols := s.symbols.truncate depth
      context := none
      loopDepth := 0
      checked := { s.checked with problems := s.checked.problems ++ [problem] } }

/-- Declares the signatures of an item. -/
def declareSignatures (s : CheckState) (item : Item) : CheckState :=
  s.attempt 0 (Check.itemSignatures item)

/-- Declares the constant that an item is. -/
def declareConstant (s : CheckState) : Item → CheckState
  | .const decl => s.attempt 0 (Check.constant decl)
  | _ => s

/-- Checks the body of a function; one that could not be declared is passed over. -/
def checkFunction (s : CheckState) (name : String) (params : List Param) (body : List Expr)
    (span : Span) : CheckState :=
  match s.checked.declared? name with
  | none => s
  | some sig =>
    if sig.span = span then
      let context : FunctionContext := ⟨name, sig.result, none, sig.typeVars⟩
      let s := { s with context := some context, loopDepth := 0 }
      { s.attempt s.symbols.depth (Check.inScope (Check.function sig params body)) with
        context := none }
    else s

/-- Checks the body that an item has. -/
def checkBody (s : CheckState) : Item → CheckState
  | .function decl => s.checkFunction decl.name decl.params decl.body decl.span
  | .operator decl => s.checkFunction decl.symbol decl.params decl.body decl.span
  | _ => s

/-- Checks the expression that an item is, in the shared scope of a depth. -/
def checkTopLevel (depth : Nat) (s : CheckState) : Item → CheckState
  | .expr e => { s with loopDepth := 0 }.attempt depth (discard (Check.expr false e))
  | _ => s

end CheckState

/-- Checks a unit that may call functions of other units. -/
def checkModule (m : Module) (imports : List FunctionSig) : CheckedModule :=
  let items := m.flatItems
  let s := CheckState.initial imports m.exprCount
  let s := items.foldl CheckState.declareSignatures s
  let s := items.foldl CheckState.declareConstant s
  let s := items.foldl CheckState.checkBody s
  let s := { s with symbols := s.symbols.enter }
  let s := items.foldl (CheckState.checkTopLevel s.symbols.depth) s
  (s.attempt 0 Check.leaveScope).checked

/-- The signatures that a unit declares, found without looking at bodies. -/
def Module.signatures (m : Module) : List FunctionSig :=
  (m.flatItems.foldl CheckState.declareSignatures (.initial [] m.exprCount)).checked.signatures

end FormCompiler
