import FormCompiler.Ast.Item
import FormCompiler.Parsing.TokenTree
import FormCompiler.Parsing.TypeText

/-!
# Parsing forms

A `Parser` makes syntax from trees of tokens. Its state is what goes on from one form to the next,
also past a form that cannot be parsed: the next expression identifier, the number of hidden names,
the operators declared so far and the errors.

Every expression is one tree of tokens. A `Part` is such a tree together with the parser of the
expression it stands for, and so are the trees in it. A `FormParser` works through the parts of one
group, from left to right, up to the token that ends the group.
-/

namespace FormCompiler

/-- What parsing one form leaves for the next. -/
structure ParserState where
  nextId : Nat
  hiddenNames : Nat
  operators : OperatorTable
  errors : List ParseError
deriving Repr, Inhabited

/-- The state before the first form. -/
def ParserState.initial : ParserState := ⟨0, 0, .builtins, []⟩

/-- Makes something, or fails and keeps the state reached so far. -/
abbrev Parser := ExceptT ParseError (StateM ParserState)

/-- A tree of tokens, with the parser of the expression it stands for. -/
inductive Part where
  | atom (token : Token) (expr : Parser Expr)
  | group (opening : Token) (parts : List Part) (closing : Token) (expr : Parser Expr)

namespace Part

/-- The first token of a part. -/
def lead : Part → Token
  | atom token _ => token
  | group opening _ _ _ => opening

/-- The parser of the expression a part stands for. -/
def expr : Part → Parser Expr
  | atom _ expr => expr
  | group _ _ _ expr => expr

end Part

/-- Makes an expression with a new identifier. -/
def makeExpr (span : Span) (shape : Shape Expr) : Parser Expr := do
  let s ← get
  set { s with nextId := s.nextId + 1 }
  return .node s.nextId span shape

/-- A name that source text does not use. -/
def hiddenName : Parser String := do
  let s ← get
  set { s with hiddenNames := s.hiddenNames + 1 }
  return s!"__pat{s.hiddenNames}"

/-- The parts of a group still to come, and the token that ends the group. -/
structure Remaining where
  parts : List Part
  closing : Token

/-- Works through the parts of a group. -/
abbrev FormParser := StateT Remaining Parser

namespace FormParser

/-- Works through the parts of a group from the first one. -/
def within (parts : List Part) (closing : Token) (p : FormParser α) : Parser α := do
  let (value, _) ← StateT.run p ⟨parts, closing⟩
  return value

/-- The next token, which may be the one that ends the group. -/
def current : FormParser Token := do
  let r ← get
  return match r.parts with
    | part :: _ => part.lead
    | [] => r.closing

/-- The kind of the token after the next one, if both start parts of the group. -/
def second : FormParser TokenKind := do
  let r ← get
  return match r.parts with
    | _ :: part :: _ => part.lead.kind
    | _ => r.closing.kind

/-- Whether all parts have been taken. -/
def atEnd : FormParser Bool := do
  return (← get).parts.isEmpty

/-- Moves past the next part. -/
def skip : FormParser Unit :=
  modify fun r => { r with parts := r.parts.drop 1 }

/-- Fails at the next token. -/
def unexpected (expected : String) : FormParser α := do
  throw (.unexpected (← current) expected)

/-- Takes the next part as an expression. -/
def expr : FormParser Expr := do
  match (← get).parts with
  | part :: _ =>
    skip
    part.expr
  | [] => unexpected "expression"

/-- Takes all remaining parts as expressions. -/
def body : FormParser (List Expr) := do
  let r ← get
  set { r with parts := [] }
  r.parts.mapM fun part => (part.expr : FormParser Expr)

/-- Takes a name. -/
def name (expected : String) : FormParser String := do
  match (← current).kind with
  | .ident name =>
    skip
    return name
  | _ => unexpected expected

/-- The span of the closing delimiter that has to come next, to match an opening one. -/
def close (opening : Token) : FormParser Span := do
  let isParen := opening.kind == .openParen
  let token ← current
  if token.kind = (if isParen then .closeParen else .closeBracket) then return token.span
  else if token.kind = .stop then throw ⟨.unclosedDelimiter, opening.span⟩
  else unexpected (if isParen then "`)`" else "`]`")

/-- Takes a type. -/
def type : FormParser Ty := do
  let token ← current
  match token.kind with
  | .typeText text =>
    skip
    match Ty.ofText text with
    | .ok type => return type
    | .error fault => throw ⟨.malformedType fault, token.span⟩
  | _ => unexpected "type annotation"

/-- Takes an arrow and a type, if there is an arrow. -/
def resultType : FormParser (Option Ty) := do
  if (← current).kind = .arrow then
    skip
    return some (← type)
  else return none

/-- A name with a type, as the contents of a group. -/
def typedName (opening : Token) (expected : String) : FormParser (String × Ty × Span) := do
  let name ← name expected
  let type ← type
  let stop ← close opening
  return (name, type, opening.span.merge stop)

end FormParser

end FormCompiler
