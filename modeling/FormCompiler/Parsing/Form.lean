import FormCompiler.Parsing.Conditional

/-!
# Forms

What the groups of a unit mean. `[head operand…]` is a special form, a call or an operator in front
of its operands. In parentheses it may also be an operator chain, a pattern conditional, or an
expression in parentheses.
-/

namespace FormCompiler

/-- The names that start a special form. -/
def specialHeads : List String :=
  ["module", "func", "operator", "extern", "const", "var", "set", "scope", "if", "check", "while",
    "for", "loop", "async-loop", "break", "continue", "return", "index", "array", "tuple", "len",
    "alloc", "mem-alloc", "free", "mem-free", "with-resources", "atomic", "mutex_create",
    "mutex_lock", "mutex_unlock"]

namespace FormParser

/-- A name, or a group of a name and a type. -/
def binding : FormParser (String × Option Ty) := do
  match (← get).parts with
  | .atom ⟨.ident name, _⟩ _ :: _ =>
    skip
    return (name, none)
  | .group opening parts closing _ :: _ =>
    skip
    let (name, type, _) ← within parts closing (typedName opening "binding name")
    return (name, some type)
  | _ => unexpected "binding name"

/-- A local binding. -/
def declaration (isMutable : Bool) : FormParser (Shape Expr) := do
  let (name, type) ← binding
  return .declare isMutable name type (← expr)

/-- An assignment to a name or to an element of an array. -/
def assignment (head : Token) : FormParser (Shape Expr) := do
  let target ← expr
  let value ← expr
  match target.shape with
  | .name name => return .assign name value
  | .element array index => return .assignElement array index value
  | _ => throw (.form (head.span.merge target.span) .assignmentTarget)

/-- A conditional; the second branch may be missing unless it is a `check`. -/
def conditionalForm (isCheck : Bool) : FormParser (Shape Expr) := do
  let test ← expr
  let thenBranch ← expr
  if isCheck || !(← atEnd) then
    return .cond isCheck test thenBranch (some (← expr))
  else return .cond isCheck test thenBranch none

/-- A counting loop, which starts with a mutable binding. -/
def forForm : FormParser (Shape Expr) := do
  let init ← expr
  match init.shape with
  | .declare true _ _ _ =>
    let test ← expr
    let step ← expr
    return .forLoop init test step (← body)
  | _ => throw (.form init.span .loopStart)

/-- One resource: a group of a name and an expression. -/
def resource (part : Part) : Parser (Resource Expr) :=
  match part with
  | .group opening parts closing _ =>
    within parts closing do
      let name ← name "resource name"
      let init ← expr
      let stop ← close opening
      return ⟨name, init, opening.span.merge stop⟩
  | .atom token _ => throw (.unexpected token "`(name init)` binding")

/-- A group of resources and a body that uses them. -/
def resourceForm : FormParser (Shape Expr) := do
  match (← get).parts with
  | .group opening parts closing _ :: _ =>
    skip
    let resources ← within parts closing do
      let r ← get
      let resources ← r.parts.mapM fun part => (resource part : FormParser (Resource Expr))
      set { r with parts := [] }
      let _ ← close opening
      return resources
    return .withResources resources (← body)
  | _ => unexpected "resource binding list"

/-- The operands of a special form. -/
def special (head : Token) : String → FormParser (Shape Expr)
  | "const" => declaration false
  | "var" => declaration true
  | "set" => assignment head
  | "scope" => return .scope (← body)
  | "if" => conditionalForm false
  | "check" => conditionalForm true
  | "while" => return .whileLoop false (← expr) (← body)
  | "async-loop" => return .whileLoop true (← expr) (← body)
  | "for" => forForm
  | "loop" => return .loop (← body)
  | "break" => return .breakLoop
  | "continue" => return .continueLoop
  | "return" => do
    if ← atEnd then return .ret none
    else return .ret (some (← expr))
  | "index" => return .element (← expr) (← expr)
  | "array" => return .array (← body)
  | "tuple" => return .tuple (← body)
  | "len" => return .length (← expr)
  | "alloc" | "mem-alloc" => return .alloc (← expr)
  | "free" | "mem-free" => return .free (← expr)
  | "with-resources" => resourceForm
  | "atomic" => return .atomic (← body)
  | "mutex_create" => return .mutex .create none
  | "mutex_lock" => return .mutex .lock (some (← expr))
  | "mutex_unlock" => return .mutex .unlock (some (← expr))
  | name => throw (.form head.span (.onlyTopLevel name))

/-- A special form after its head. -/
def specialForm (opening head : Token) (name : String) : FormParser Expr := do
  let shape ← special head name
  unless ← atEnd do
    throw (.form (← current).span (.tooManyOperands name))
  let stop ← close opening
  makeExpr (opening.span.merge stop) shape

/-- A call of a function, after its name. -/
def call (opening : Token) (callee : String) : FormParser Expr := do
  let args ← body
  let stop ← close opening
  makeExpr (opening.span.merge stop) (.call callee args)

/-- A group that starts with a head. -/
def headForm (opening : Token) : FormParser Expr := do
  let head ← current
  match head.kind with
  | .ident name =>
    skip
    if name ∈ specialHeads then specialForm opening head name else call opening name
  | .symbol symbol =>
    skip
    let operands ← body
    let stop ← close opening
    applyOperator symbol operands (opening.span.merge stop)
  | .stop => throw ⟨.unclosedDelimiter, opening.span⟩
  | .invalid => unexpected "form head"
  | .closeBracket | .closeParen => throw (.form (opening.span.merge head.span) .empty)
  | _ => throw (.form head.span .badHead)

/-- Whether a group in parentheses starts with a head rather than with an operand. -/
def startsWithHead : FormParser Bool := do
  match (← current).kind with
  | .symbol _ => return true
  | .ident name =>
    match ← second with
    | .symbol _ | .colon => return false
    | _ => return decide (name ∈ specialHeads)
  | _ => return false

/-- A group in parentheses. -/
def parenForm (opening : Token) : FormParser Expr := do
  if ← startsWithHead then headForm opening
  else
    let first ← expr
    let token ← current
    match token.kind, first.shape with
    | .colon, _ =>
      skip
      conditional first opening
    | .symbol _, _ =>
      let chained ← operatorChain first
      let stop ← close opening
      return chained.withSpan (opening.span.merge stop)
    | .closeParen, _ => return first.withSpan (opening.span.merge token.span)
    | _, .name callee => call opening callee
    | _, _ => unexpected "operator, `:` or `)`"

end FormParser

/-- The expression of a group. -/
def parseGroup (opening : Token) (parts : List Part) (closing : Token) : Parser Expr :=
  FormParser.within parts closing <|
    if opening.kind = .openParen then FormParser.parenForm opening else FormParser.headForm opening

/-- The expression of a single token. -/
def parseAtom (token : Token) : Parser Expr :=
  match token.kind with
  | .int value => makeExpr token.span (.literal (.int value))
  | .frac bits => makeExpr token.span (.literal (.frac bits))
  | .bool value => makeExpr token.span (.literal (.bool value))
  | .str value => makeExpr token.span (.literal (.str value))
  | .ident name => makeExpr token.span (.name name)
  | _ => throw (.unexpected token "expression")

mutual

/-- A tree of tokens with the parser of its expression. -/
def TokenTree.toPart : TokenTree → Part
  | .atom token => .atom token (parseAtom token)
  | .group opening trees closing =>
    let parts := toParts trees
    .group opening parts closing (parseGroup opening parts closing)

/-- Trees of tokens with the parsers of their expressions. -/
def toParts : List TokenTree → List Part
  | [] => []
  | tree :: trees => tree.toPart :: toParts trees

end

end FormCompiler
