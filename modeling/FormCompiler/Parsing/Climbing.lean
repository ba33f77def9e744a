import FormCompiler.Parsing.Basic

/-!
# Operator chains

Infix notation `(a + b * c)` is parsed by precedence climbing: `FormParser.climb` extends a left
operand by the operators that bind at least as tightly as a given precedence, and before it does so
lets the right operand take those that bind tighter, or equally tight and to the right.

Prefix notation `[+ a b c]` needs no precedence; `applyOperator` makes its expression.
-/

namespace FormCompiler

/-- Combines operands by a binary operator, from left to right. -/
def chain (op : BinaryOp) (first : Expr) : List Expr → Parser Expr
  | [] => return first
  | next :: rest => do
    let both ← makeExpr (first.span.merge next.span) (.binary op first next)
    chain op both rest

/--
The expression of an operator in front of its operands. A unary operator takes one operand, a
builtin binary one takes two or more; any other symbol is called like a function.
-/
def applyOperator (symbol : String) (operands : List Expr) (span : Span) : Parser Expr :=
  match UnaryOp.ofSymbol? symbol, BinaryOp.ofSymbol? symbol, operands with
  | some op, _, [operand] => makeExpr span (.unary op operand)
  | _, some op, first :: second :: rest => do
    return (← chain op first (second :: rest)).withSpan span
  | _, some _, _ => throw (.form span (.tooFewOperands symbol))
  | _, none, _ => makeExpr span (.call symbol operands)

namespace FormParser

/-- The operator that comes next, if the table knows it. -/
def peekOperator : FormParser (Option (String × OperatorInfo)) := do
  match (← current).kind with
  | .symbol symbol => return ((← getThe ParserState).operators.lookup symbol).map ((symbol, ·))
  | _ => return none

/-- The expression of an operator between its operands. -/
def applyBetween (symbol : String) (info : OperatorInfo) (lhs rhs : Expr) : Parser Expr :=
  makeExpr (lhs.span.merge rhs.span) <|
    match info.builtin with
    | some op => .binary op lhs rhs
    | none => .call symbol [lhs, rhs]

/--
The least precedence that the right operand of `info` may take `next` with, if it may: it takes
what binds tighter, and what binds equally tight to the right.
-/
def rightPrecedence? (info next : OperatorInfo) : Option Nat :=
  if info.precedence < next.precedence then some (info.precedence + 1)
  else if next.assoc = .right ∧ next.precedence = info.precedence then some info.precedence
  else none

mutual

/--
Extends a left operand by the operators of precedence `least` or more that follow. The first
argument bounds the number of steps; the number of parts still to come is enough.
-/
def climb : Nat → Expr → Nat → FormParser Expr
  | 0, lhs, _ => return lhs
  | bound + 1, lhs, least => do
    let token ← current
    match token.kind, ← peekOperator with
    | _, some (symbol, info) =>
      if info.precedence < least then return lhs
      else
        skip
        let rhs ← climbRight bound info (← expr)
        let both ← applyBetween symbol info lhs rhs
        climb bound both least
    | .symbol symbol, none => throw (.form token.span (.unknownSymbol symbol))
    | _, none => return lhs

/-- Extends a right operand of `info` by the operators that follow and belong to it. -/
def climbRight : Nat → OperatorInfo → Expr → FormParser Expr
  | 0, _, rhs => return rhs
  | bound + 1, info, rhs => do
    match (← peekOperator).bind fun next => rightPrecedence? info next.2 with
    | some least => climbRight bound info (← climb bound rhs least)
    | none => return rhs

end

/-- The chain of operators that follows a left operand. -/
def operatorChain (lhs : Expr) : FormParser Expr := do
  climb (2 * (← get).parts.length + 2) lhs 0

end FormParser

end FormCompiler
