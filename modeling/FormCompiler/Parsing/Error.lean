import FormCompiler.Token.Basic

/-!
# Parse errors

The ways in which a form can be wrong, and the messages that report them.
-/

namespace FormCompiler

/-- What is wrong with a written type. -/
inductive TypeFault where
  | expectedChar (char : Char) (offset : Nat)
  | missingName
  | widthTooLarge
  | unsupportedWidth (base : String) (bits : Nat)
  | missingArrow
  | unknown (name : String)
  | expectedNumber (found : String)
  | expectedLength
  | trailing (text : String)
deriving DecidableEq, Repr, Inhabited

/-- The message of a wrong type. -/
def TypeFault.message : TypeFault → String
  | expectedChar char offset => s!"expected `{char}` at offset {offset}"
  | missingName => "missing type name"
  | widthTooLarge => "bit width too large"
  | unsupportedWidth base bits => s!"unsupported size `{bits}` for `{base}`"
  | missingArrow => "expected `->` in function type"
  | unknown name => s!"unknown type `{name}`"
  | expectedNumber found => s!"expected a number, found `{found}`"
  | expectedLength => "expected array length"
  | trailing text => s!"unexpected `{text}`"

/-- What is wrong with a form that has the right delimiters. -/
inductive FormFault where
  | empty
  | badHead
  | tooFewOperands (symbol : String)
  | tooManyOperands (head : String)
  | unknownSymbol (symbol : String)
  | onlyTopLevel (head : String)
  | loopStart
  | assignmentTarget
  | foreignContents
deriving DecidableEq, Repr, Inhabited

/-- The message of a wrong form. -/
def FormFault.message : FormFault → String
  | empty => "empty form"
  | badHead => "form head must be an identifier or operator"
  | tooFewOperands symbol => s!"operator `{symbol}` needs at least two operands"
  | tooManyOperands head => s!"too many operands for `{head}`"
  | unknownSymbol symbol => s!"unknown infix operator `{symbol}`"
  | onlyTopLevel head => s!"`{head}` is only allowed at top level"
  | loopStart => "`for` initialiser must be a `var` form"
  | assignmentTarget => "`set` target must be a name or an `index` form"
  | foreignContents => "extern blocks may only contain `func` signatures"

/-- What is wrong with the declaration of an operator. -/
inductive OperatorFault where
  | precedence
  | associativity (found : String)
  | builtin (symbol : String)
  | parameterCount
deriving DecidableEq, Repr, Inhabited

/-- The message of a wrong operator declaration. -/
def OperatorFault.message : OperatorFault → String
  | precedence => "precedence must be in 1..=255"
  | associativity found => s!"associativity must be `left` or `right`, found `{found}`"
  | builtin symbol => s!"cannot redefine builtin operator `{symbol}`"
  | parameterCount => "operators take exactly two parameters"

/-- Why a form cannot be parsed. -/
inductive ParseErrorKind where
  | unexpectedToken (expected : String) (found : TokenKind)
  | unclosedDelimiter
  | unmatchedClose
  | malformedForm (fault : FormFault)
  | missingDefault
  | malformedType (fault : TypeFault)
  | malformedOperator (fault : OperatorFault)
  /-- The form contains a token that the lexer has reported already. -/
  | invalidToken
deriving DecidableEq, Repr, Inhabited

/-- The message of a parse error. -/
def ParseErrorKind.message : ParseErrorKind → String
  | unexpectedToken expected found => s!"expected {expected}, found {found.describe}"
  | unclosedDelimiter => "unclosed delimiter"
  | unmatchedClose => "unmatched closing delimiter"
  | malformedForm fault => fault.message
  | missingDefault => "pattern conditional requires a default result"
  | malformedType fault => s!"invalid type annotation: {fault.message}"
  | malformedOperator fault => s!"invalid operator declaration: {fault.message}"
  | invalidToken => "invalid token"

/-- A parse error and the text it is about. -/
structure ParseError where
  kind : ParseErrorKind
  span : Span
deriving DecidableEq, Repr, Inhabited

namespace ParseError

/-- The error at a token that should have been something else. -/
def unexpected (token : Token) (expected : String) : ParseError :=
  match token.kind with
  | .invalid => ⟨.invalidToken, token.span⟩
  | found => ⟨.unexpectedToken expected found, token.span⟩

/-- A wrong form. -/
def form (span : Span) (fault : FormFault) : ParseError := ⟨.malformedForm fault, span⟩

/-- A wrong operator declaration. -/
def operator (span : Span) (fault : OperatorFault) : ParseError := ⟨.malformedOperator fault, span⟩

/-- Whether the lexer has reported the error already. -/
def isLexical (e : ParseError) : Bool := e.kind == .invalidToken

end ParseError

end FormCompiler
