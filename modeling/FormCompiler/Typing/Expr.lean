import FormCompiler.Typing.Basic

/-!
# Types of expressions

`Check.expr` finds the type of an expression and records it. Its first argument says whether the
expression stands in tail position: its value is what the function returns, and nothing is left to
do after it.
-/

namespace FormCompiler

/-! ## Shapes of expressions -/

mutual

/-- Whether control never comes out of an expression. -/
def Expr.diverges : Expr → Bool
  | .node _ _ shape => shapeDiverges shape

/-- Whether control never comes out of a form. -/
def shapeDiverges : Shape Expr → Bool
  | .breakLoop | .continueLoop | .ret _ => true
  | .scope body => lastDiverges body
  | .cond _ _ thenBranch (some elseBranch) => thenBranch.diverges && elseBranch.diverges
  | _ => false

/-- Whether control never comes out of the last of several expressions. -/
def lastDiverges : List Expr → Bool
  | [] => false
  | e :: rest => if rest.isEmpty then e.diverges else lastDiverges rest

end

/-- An expression, and if it accesses an element, the expressions that it accesses it through. -/
def Expr.accessPath : Expr → List Expr
  | .node id span (.element target index) =>
    .node id span (.element target index) :: target.accessPath
  | e => [e]

/-- The type of a literal that nothing is expected of. -/
def Literal.type : Literal → Ty
  | .int _ => .int
  | .frac _ => .frac
  | .bool _ => .bool
  | .str _ => .str

namespace Check

/-! ## Names and calls -/

/-- The type of a name. -/
def name (name : String) (span : Span) : Check Ty := do
  match (← get).symbols.lookup name with
  | .error e => throw (symbolProblem name span e)
  | .ok (symbol, symbols) =>
    modify fun s => { s with symbols := symbols }
    if symbol.isCallable then fail span (.misuse (.functionAsValue name))
    return symbol.type

/-- The signature of a callee, of this unit or of another one. -/
def callee (name : String) (span : Span) : Check FunctionSig := do
  let state ← get
  match state.symbols.lookup name with
  | .ok (symbol, symbols) =>
    set { state with symbols := symbols }
    unless symbol.isCallable do fail span (.misuse (.notFunction name))
    match state.checked.declared? name with
    | some sig => return sig
    | none => fail span (.misuse (.noSignature name))
  | .error e =>
    match state.imports.find? (·.name == name) with
    | none => throw (symbolProblem name span e)
    | some sig =>
      unless state.checked.imported.any (·.name == name) do
        learn fun c => { c with imported := c.imported ++ [sig] }
      return sig

/-- Matches an argument of a found type with a parameter. -/
def argument (σ : Substitution) (param : Ty) (arg : Expr) (found : Ty) : Check Substitution := do
  if param.isGeneric then
    let attempt := σ.unify param found
    match attempt.error with
    | none => return attempt.bindings
    | some .mismatch => throw (.mismatch arg.span param found)
    | some (.conflict name first second) => fail arg.span (.unification name first second)
  else
    expectAssignable param arg found
    return σ

/-- Marks a function as one that calls itself in tail position. -/
def markTailRecursive (name : String) : Check Unit :=
  learn fun c =>
    { c with
      signatures := c.signatures.map fun sig =>
        if sig.name = name then { sig with isTailRecursive := true } else sig }

/-- The type of a call whose arguments have been matched. -/
def call (tail : Bool) (id : Nat) (span : Span) (name : String) (sig : FunctionSig)
    (σ : Substitution) : Check Ty := do
  match sig.result with
  | none => fail span (.cannotInfer (.resultType name))
  | some result =>
    if sig.isGeneric then
      learn fun c => { c with instantiations := c.instantiations ++ [(id, ⟨name, σ⟩)] }
    if tail && (← get).context.any (·.name == name) then
      learn fun c => { c with tailCalls := c.tailCalls ++ [id] }
      markTailRecursive name
    return if sig.isGeneric then σ.apply result else result

/-! ## Operators -/

/-- The type of two operands, where a literal may take the type of the other operand. -/
def operands (lhs rhs : Expr) (left right : Ty) : Check Ty := do
  if left = right then return left
  if ← coerce left rhs then return left
  if ← coerce right lhs then return right
  throw (.mismatch rhs.span left right)

/-- What an operator takes, and whether a type is of that kind. -/
def operandKind (type : Ty) : BinaryOp → Bool × Expectation
  | .mod | .bitAnd | .bitOr | .bitXor | .shl | .shr => (type.isInteger || type.isVar, .anInteger)
  | .add | .sub | .mul | .div | .lt | .le | .gt | .ge => (type.isNumeric, .aNumber)
  | .eq | .ne => (type.isPrimitive || type = .str || type.isVar, .aScalar)
  | .and | .or => (type = .bool, .type .bool)

/-- The type of an operation on operands of a type. -/
def binary (op : BinaryOp) (span : Span) (type : Ty) : Check Ty := do
  let (ok, expected) := operandKind type op
  unless ok do fail span (.mismatch expected type)
  return if op.isComparison then .bool else type

/-- The type of an operation on an operand of a type. -/
def unary (op : UnaryOp) (span : Span) (type : Ty) : Check Ty := do
  let (ok, expected) : Bool × Expectation :=
    match op with
    | .neg => (type.isNumeric, .aNumber)
    | .not => (type = .bool, .type .bool)
    | .bitNot => (type.isInteger, .anInteger)
  unless ok do fail span (.mismatch expected type)
  return type

/-! ## Elements -/

/--
The type of an element. A literal index is compared with the length here; any other access of an
array is recorded, for a comparison when it runs.
-/
def element (id : Nat) (target index : Expr) (targetType indexType : Ty) : Check Ty := do
  unless indexType.isInteger do throw (.mismatch index.span .int indexType)
  match targetType with
  | .array element length =>
    match index.intLiteral?, length with
    | some i, .fixed n =>
      if i < 0 ∨ (n : Int) ≤ i then fail index.span (.bounds i targetType)
    | _, _ => learn fun c => { c with dynamicIndices := c.dynamicIndices ++ [id] }
    return element
  | .tuple elements =>
    match index.intLiteral? with
    | none => fail index.span (.misuse .tupleIndex)
    | some i =>
      if i < 0 then fail index.span (.bounds i targetType)
      match elements[i.toNat]? with
      | some element => return element
      | none => fail index.span (.bounds i targetType)
  | other => fail target.span (.mismatch .anArrayOrTuple other)

/-- Requires that the array an element of which is assigned to is a variable. -/
def elementTarget (target : Expr) : Check Unit := do
  match target.accessPath.getLast? with
  | some (.node _ span (.name name)) =>
    match (← get).symbols.assignTarget name with
    | .ok _ => return
    | .error e => throw (symbolProblem name span e)
  | _ => fail target.span (.misuse .unnamedArray)

/-- Requires that no tuple is on the way to an element that is assigned to. -/
def noTuples (target : Expr) : Check Unit := do
  let types := (← get).checked.exprTypes
  let isTuple (e : Expr) : Bool :=
    match types.type? e.id with
    | some (.tuple _) => true
    | _ => false
  if target.accessPath.any isTuple then fail target.span (.misuse .tupleAssignment)

/-! ## Declarations, conditionals and jumps -/

/-- Declares a local whose initialiser is of a found type. -/
def bindLocal (isMutable : Bool) (name : String) (span : Span) (type : Option Ty) (init : Expr)
    (found : Ty) : Check Ty := do
  let type ←
    match type with
    | some written => do
      let expected ← annotated written span
      expectAssignable expected init found
      pure expected
    | none =>
      if found = .none then fail init.span (.cannotInfer (.bindingType name)) else pure found
  declare (.ofStorage .stack isMutable name type span)
  return .none

/-- Declares a resource whose initialiser is of a found type. -/
def resource (name : String) (span : Span) (init : Expr) (found : Ty) : Check Unit := do
  if found ≠ .ptr then fail init.span (.resource (.notAllocation name found))
  declare { Symbol.ofStorage .stack false name .ptr span with isResource := true }

/-- The type of a conditional from the types of its branches. -/
def branches (thenBranch elseBranch : Expr) (thenType elseType : Ty) : Check Ty := do
  if thenBranch.diverges then return elseType
  if elseBranch.diverges ∨ thenType = elseType then return thenType
  if ← coerce thenType elseBranch then return thenType
  if ← coerce elseType thenBranch then return elseType
  throw (.mismatch elseBranch.span thenType elseType)

/-- Requires that a jump stands in a loop. -/
def loopJump (jump : StrayJump) (span : Span) : Check Ty := do
  if (← get).loopDepth = 0 then fail span (.strayJump jump)
  return .none

/-- The function around a form that returns. -/
def returning (span : Span) : Check FunctionContext := do
  match (← get).context with
  | some context => return context
  | none => fail span (.strayJump .ret)

/-- Requires that a returned value has the type that is expected of it. -/
def returned (span : Span) (value : Option Expr) (expected found : Ty) : Check Unit :=
  match value with
  | some e => expectAssignable expected e found
  | none => if expected = .none then pure () else throw (.mismatch span expected found)

/-- Matches a returned value with the result type; without one, the first value gives it. -/
def ret (span : Span) (declared : Option Ty) (value : Option Expr) (found : Ty) : Check Ty := do
  match declared with
  | some result => returned span value result found
  | none =>
    match (← get).context.bind (·.inferred) with
    | some previous => returned span value previous found
    | none =>
      modify fun s =>
        { s with context := s.context.map fun c => { c with inferred := some found } }
  return .none

/-- Requires that a test is a truth value. -/
def condition (span : Span) (found : Ty) : Check Unit :=
  if found = .bool then pure () else throw (.mismatch span .bool found)

/-- Refuses to free what is released anyway. -/
def freeable (pointer : Expr) : Check Unit := do
  match pointer.shape with
  | .name name =>
    if ((← get).symbols.peek? name).any (·.isResource) then
      fail pointer.span (.resource (.freed name))
  | _ => return

/-! ## Expressions -/

mutual

/-- Finds the type of an expression and records it. -/
def expr (tail : Bool) : Expr → Check Ty
  | .node id span shape => do
    let type ← form tail id span shape
    record id type
    return type

/-- Finds the type of a form. -/
def form (tail : Bool) (id : Nat) (span : Span) : Shape Expr → Check Ty
  | .literal value => return value.type
  | .name text => name text span
  | .call text args => do
    let sig ← callee text span
    if sig.params.length ≠ args.length then
      fail span (.arity text sig.params.length args.length)
    let σ ← arguments .empty sig.paramTypes args
    call tail id span text sig σ
  | .binary op lhs rhs => do
    let left ← expr false lhs
    let right ← expr false rhs
    let type ← operands lhs rhs left right
    binary op (lhs.span.merge rhs.span) type
  | .unary op operand => do
    let type ← expr false operand
    unary op operand.span type
  | .declare isMutable text type init => do
    let found ← expr false init
    bindLocal isMutable text span type init found
  | .assign text value => do
    match (← get).symbols.assignTarget text with
    | .error e => throw (symbolProblem text span e)
    | .ok target =>
      let found ← expr false value
      expectAssignable target.type value found
      return .none
  | .assignElement target index value => do
    elementTarget target
    let targetType ← expr false target
    let indexType ← expr false index
    let type ← element id target index targetType indexType
    noTuples target
    let found ← expr false value
    expectAssignable type value found
    return .none
  | .scope items => inScope (body tail false items)
  | .cond _ test thenBranch none => do
    condition test.span (← expr false test)
    let _ ← inScope (expr false thenBranch)
    return .none
  | .cond _ test thenBranch (some elseBranch) => do
    condition test.span (← expr false test)
    let thenType ← inScope (expr tail thenBranch)
    let elseType ← inScope (expr tail elseBranch)
    branches thenBranch elseBranch thenType elseType
  | .whileLoop _ test items => do
    condition test.span (← expr false test)
    let _ ← inLoop (inScope (body false false items))
    return .none
  | .forLoop init test step items =>
    inScope do
      let _ ← expr false init
      condition test.span (← expr false test)
      let _ ← inLoop do
        let _ ← inScope (body false false items)
        expr false step
      return .none
  | .loop items => do
    let _ ← inLoop (inScope (body false false items))
    return .none
  | .breakLoop => loopJump .breakLoop span
  | .continueLoop => loopJump .continueLoop span
  | .ret none => do
    let context ← returning span
    ret span context.declared none .none
  | .ret (some value) => do
    let context ← returning span
    let found ← expr true value
    ret span context.declared (some value) found
  | .element target index => do
    let targetType ← expr false target
    let indexType ← expr false index
    element id target index targetType indexType
  | .array [] => fail span (.cannotInfer .elementType)
  | .array (first :: rest) => do
    let type ← expr false first
    elements type rest
    return .array type (.fixed (rest.length + 1))
  | .tuple items => return .tuple (← exprs items)
  | .length target => do
    match ← expr false target with
    | .array _ _ => return .int
    | other => fail target.span (.mismatch .anArray other)
  | .alloc size => do
    let type ← expr false size
    unless type.isInteger do throw (.mismatch size.span .int type)
    return .ptr
  | .free pointer => do
    freeable pointer
    let found ← expr false pointer
    expectAssignable .ptr pointer found
    return .none
  | .withResources bindings items =>
    inScope do
      resources bindings
      body false false items
  | .atomic items => inScope (body false false items)
  | .mutex .create _ => return .ptr
  | .mutex .lock (some handle) | .mutex .unlock (some handle) => do
    let found ← expr false handle
    expectAssignable .ptr handle found
    return .none
  | .mutex .lock none | .mutex .unlock none => fail span (.misuse .noHandle)

/--
Checks a body; its type is that of the last form. `jumped` says that control does not come out of
the form before.
-/
def body (tail jumped : Bool) : List Expr → Check Ty
  | [] => return .none
  | e :: rest => do
    if jumped then warn e.span .unreachable
    let type ← expr (tail && rest.isEmpty) e
    if rest.isEmpty then return type
    body tail e.diverges rest

/-- Checks several expressions. -/
def exprs : List Expr → Check (List Ty)
  | [] => return []
  | e :: rest => do
    let type ← expr false e
    return type :: (← exprs rest)

/-- Checks that all of several expressions have a type. -/
def elements (type : Ty) : List Expr → Check Unit
  | [] => return
  | e :: rest => do
    let found ← expr false e
    expectAssignable type e found
    elements type rest

/-- Checks arguments and matches them with the parameters. -/
def arguments (σ : Substitution) : List Ty → List Expr → Check Substitution
  | param :: params, arg :: args => do
    let found ← expr false arg
    let σ ← argument σ param arg found
    arguments σ params args
  | _, _ => return σ

/-- Checks and declares resources. -/
def resources : List (Resource Expr) → Check Unit
  | [] => return
  | ⟨text, init, span⟩ :: rest => do
    let found ← expr false init
    resource text span init found
    resources rest

end

end Check

end FormCompiler
