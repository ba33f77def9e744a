import FormCompiler.Parsing.Climbing

/-!
# Pattern conditionals

`(value : predicate result … default)` compares a value with predicates in turn and is the result
behind the first that holds. It is parsed into nested conditionals. A predicate `[op rest…]` stands
for `[op value rest…]`, and any other expression `e` for `[== value e]`. A value that is no name or
literal is bound to a hidden name first, so that it is evaluated once.
-/

namespace FormCompiler

/-- A condition on a value. -/
inductive Predicate where
  /-- The operator applied to the value and the operands. -/
  | partly (symbol : String) (operands : List Expr) (span : Span)
  /-- Equality with the value. -/
  | equals (expr : Expr)
deriving Repr, Inhabited

namespace Predicate

/-- Parses a predicate. -/
def ofPart : Part → Parser Predicate
  | .group opening (.atom ⟨.symbol symbol, _⟩ _ :: parts) closing _ =>
    FormParser.within parts closing do
      let operands ← FormParser.body
      let stop ← FormParser.close opening
      return .partly symbol operands (opening.span.merge stop)
  | part => return .equals (← part.expr)

/-- The test that a predicate makes on a value. -/
def test (subject : Expr) : Predicate → Parser Expr
  | equals e => do
    let subject ← makeExpr subject.span subject.shape
    makeExpr e.span (.binary .eq subject e)
  | partly symbol operands span => do
    let subject ← makeExpr subject.span subject.shape
    applyOperator symbol (subject :: operands) span

end Predicate

/-- The clauses of a pattern conditional, and its default if it has one. -/
def parseClauses : List Part → Parser (List (Predicate × Expr) × Option Expr)
  | [] => return ([], none)
  | [last] => do
    match ← Predicate.ofPart last with
    | .equals default => return ([], some default)
    | .partly _ _ span => throw ⟨.missingDefault, span⟩
  | first :: second :: rest => do
    let predicate ← Predicate.ofPart first
    let result ← second.expr
    let (clauses, default) ← parseClauses rest
    return ((predicate, result) :: clauses, default)

/-- The nested conditionals of a list of clauses, made from the last clause to the first. -/
def nestClauses (subject default : Expr) : List (Predicate × Expr) → Parser Expr
  | [] => return default
  | (predicate, result) :: clauses => do
    let otherwise ← nestClauses subject default clauses
    let test ← predicate.test subject
    makeExpr (test.span.merge otherwise.span) (.cond true test result (some otherwise))

/-- Whether an expression can be repeated without being evaluated twice. -/
def Expr.isAtomic (e : Expr) : Bool :=
  match e.shape with
  | .name _ | .literal _ => true
  | _ => false

/-- The clauses after the value and colon of a pattern conditional, as an expression. -/
def FormParser.conditional (value : Expr) (opening : Token) : FormParser Expr := do
  let r ← get
  let (clauses, default?) ← parseClauses r.parts
  set { r with parts := [] }
  let span := opening.span.merge (← close opening)
  let some default := default? | throw ⟨.missingDefault, span⟩
  if value.isAtomic then
    return (← nestClauses value default clauses).withSpan span
  else
    let hidden ← hiddenName
    let binding ← makeExpr value.span (.declare false hidden none value)
    let subject ← makeExpr value.span (.name hidden)
    let choice := (← nestClauses subject default clauses).withSpan span
    makeExpr span (.scope [binding, choice])

end FormCompiler
