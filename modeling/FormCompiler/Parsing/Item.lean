import FormCompiler.Parsing.Form
import FormCompiler.Token.Lexer

/-!
# Items and units

Parsing goes on after an error: the form with the error is left out, and the next form of the same
group or unit is parsed. `parseUnit` gives the items of a source text together with the lexical
errors and the parse errors.
-/

namespace FormCompiler

namespace FormParser

/-- One parameter: a name, or a group of a name and a type. -/
def param (part : Part) : Parser Param :=
  match part with
  | .atom ⟨.ident name, span⟩ _ => return ⟨name, none, span⟩
  | .group opening parts closing _ => do
    let (name, type, span) ← within parts closing (typedName opening "parameter name")
    return ⟨name, some type, span⟩
  | .atom token _ => throw (.unexpected token "parameter")

/-- A group of parameters. -/
def params : FormParser (List Param) := do
  match (← get).parts with
  | .group opening parts closing _ :: _ =>
    skip
    within parts closing do
      let r ← get
      let params ← r.parts.mapM fun part => (param part : FormParser Param)
      set { r with parts := [] }
      let _ ← close opening
      return params
  | _ => unexpected "parameter list"

/-- A global constant, after its head. -/
def constDecl (opening : Token) : FormParser ConstDecl := do
  let (name, type) ← binding
  let init ← expr
  let stop ← close opening
  return { name, type, init, span := opening.span.merge stop }

/-- A function, after its head. -/
def functionDecl (opening : Token) : FormParser FunctionDecl := do
  let name ← name "function name"
  let params ← params
  let result ← resultType
  let body ← body
  let stop ← close opening
  return { name, params, result, body, span := opening.span.merge stop }

/-- The precedence of a declared operator. -/
def precedence : FormParser Nat := do
  let token ← current
  match token.kind with
  | .int value =>
    if 1 ≤ value ∧ value ≤ 255 then
      skip
      return value.toNat
    else throw (.operator token.span .precedence)
  | _ => unexpected "operator precedence"

/-- The side on which a declared operator nests. -/
def associativity : FormParser Assoc := do
  let token ← current
  match ← name "associativity" with
  | "left" => return .left
  | "right" => return .right
  | found => throw (.operator token.span (.associativity found))

/--
An operator, after its head. It is known to all forms that follow its associativity, its own body
included, even if the rest of the declaration is wrong.
-/
def operatorDecl (opening : Token) : FormParser OperatorDecl := do
  let token ← current
  let .symbol symbol := token.kind | unexpected "operator symbol"
  skip
  let precedence ← precedence
  let assoc ← associativity
  match (← getThe ParserState).operators.register? symbol precedence assoc with
  | none => throw (.operator token.span (.builtin symbol))
  | some operators => modifyThe ParserState fun s => { s with operators }
  let params ← params
  if params.length ≠ 2 then throw (.operator token.span .parameterCount)
  let result ← resultType
  let body ← body
  let stop ← close opening
  return { symbol, precedence, assoc, params, result, body, span := opening.span.merge stop }

/-- The signature of a foreign function. -/
def foreignFunction (part : Part) : Parser ForeignFunction :=
  match part with
  | .group opening (.atom ⟨.ident "func", _⟩ _ :: parts) closing _ =>
    within parts closing do
      let name ← name "function name"
      let params ← params
      let result ← resultType
      let stop ← close opening
      return { name, params, result, span := opening.span.merge stop }
  | part => throw (.form part.lead.span .foreignContents)

/-- The foreign functions of a library, after the head. -/
def foreignDecl (opening : Token) : FormParser ForeignDecl := do
  match (← current).kind with
  | .str library =>
    skip
    let r ← get
    let functions ← r.parts.mapM fun part => (foreignFunction part : FormParser ForeignFunction)
    set { r with parts := [] }
    let stop ← close opening
    return { library, functions, span := opening.span.merge stop }
  | _ => unexpected "library name string"

end FormParser

/-- Parses an item; an error is recorded, unless the lexer has reported it, and there is no item. -/
def recovering (p : Parser Item) : StateM ParserState (Option Item) := do
  match ← p.run with
  | .ok item => return some item
  | .error e =>
    unless e.isLexical do
      modify fun s => { s with errors := s.errors ++ [e] }
    return none

mutual

/-- Parses a form outside all expressions. -/
def parseItem : Part → Parser Item
  | .atom token expr => do
    if token.kind.isClose then throw ⟨.unmatchedClose, token.span⟩
    return .expr (← expr)
  | .group opening (.atom ⟨.ident "module", _⟩ _ :: parts) closing _ => do
    match parts with
    | .atom ⟨.ident name, _⟩ _ :: parts =>
      let items ← parseItems parts
      let stop ← FormParser.within [] closing (FormParser.close opening)
      return .group name items (opening.span.merge stop)
    | parts => FormParser.within parts closing (FormParser.unexpected "module name")
  | .group opening (.atom ⟨.ident "const", _⟩ _ :: parts) closing _ =>
    return .const (← FormParser.within parts closing (FormParser.constDecl opening))
  | .group opening (.atom ⟨.ident "func", _⟩ _ :: parts) closing _ =>
    return .function (← FormParser.within parts closing (FormParser.functionDecl opening))
  | .group opening (.atom ⟨.ident "operator", _⟩ _ :: parts) closing _ =>
    return .operator (← FormParser.within parts closing (FormParser.operatorDecl opening))
  | .group opening (.atom ⟨.ident "extern", _⟩ _ :: parts) closing _ =>
    return .foreign (← FormParser.within parts closing (FormParser.foreignDecl opening))
  | .group _ _ _ expr => return .expr (← expr)

/-- Parses forms outside all expressions, leaving out those with an error. -/
def parseItems : List Part → StateM ParserState (List Item)
  | [] => return []
  | part :: parts => do
    let item ← recovering (parseItem part)
    let items ← parseItems parts
    return item.toList ++ items

end

/-- The name of the first module group in a list of items. -/
def groupName? (items : List Item) : Option String :=
  items.findSome? fun
    | .group name _ _ => some name
    | _ => none

/-- A parsed unit and the errors in it. -/
structure Parsed where
  module : Module
  lexErrors : List LexError
  errors : List ParseError
deriving Repr, Inhabited

/-- Parses a source text. -/
def parseUnit (source : String) : Parsed :=
  let lexed := Token.lex source
  let (items, state) := (parseItems (toParts (TokenTree.ofTokens lexed.tokens))).run .initial
  { module := ⟨groupName? items, items, state.nextId⟩
    lexErrors := lexed.errors
    errors := state.errors }

end FormCompiler
