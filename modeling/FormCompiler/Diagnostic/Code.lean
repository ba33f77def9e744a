/-!
# Diagnostic codes

Every diagnostic has a `Code`. Its text is a stable identifier: an `E` with four digits for an
error, the first digit naming the stage that reports it, or a `W` with three for a warning.
-/

namespace FormCompiler

/-- What a diagnostic reports. -/
inductive Code where
  | unterminatedString
  | unterminatedComment
  | invalidLiteral
  | integerOverflow
  | invalidEscape
  | unexpectedCharacter
  | unexpectedToken
  | unclosedDelimiter
  | unmatchedClose
  | malformedForm
  | missingDefault
  | malformedType
  | malformedOperator
  | unboundName
  | redeclaration
  | assignmentToConstant
  | typeMismatch
  | argumentCount
  | unificationFailure
  | indexOutOfBounds
  | uninferable
  | misplacedJump
  | resourceMisuse
  | unsupportedOperation
  | internalError
  | tooManyErrors
  | implicitRelease
  | unreachableCode
  | unusedBinding
  | shadowedBinding
deriving DecidableEq, Repr, Inhabited

/-- The part of the compiler a code belongs to. -/
inductive Code.Family where
  | lexer
  | parser
  | typing
  | codegen
  | internal
  | warning
deriving DecidableEq, Repr, Inhabited

namespace Code

/-- Every code, errors first. -/
def all : List Code :=
  [ unterminatedString, unterminatedComment, invalidLiteral, integerOverflow, invalidEscape,
    unexpectedCharacter, unexpectedToken, unclosedDelimiter, unmatchedClose, malformedForm,
    missingDefault, malformedType, malformedOperator, unboundName, redeclaration,
    assignmentToConstant, typeMismatch, argumentCount, unificationFailure, indexOutOfBounds,
    uninferable, misplacedJump, resourceMisuse, unsupportedOperation, internalError,
    tooManyErrors, implicitRelease, unreachableCode, unusedBinding, shadowedBinding ]

/-- The identifier of a code. -/
def text : Code → String
  | unterminatedString => "E0001"
  | unterminatedComment => "E0002"
  | invalidLiteral => "E0003"
  | integerOverflow => "E0004"
  | invalidEscape => "E0005"
  | unexpectedCharacter => "E0006"
  | unexpectedToken => "E1001"
  | unclosedDelimiter => "E1002"
  | unmatchedClose => "E1003"
  | malformedForm => "E1004"
  | missingDefault => "E1005"
  | malformedType => "E1006"
  | malformedOperator => "E1007"
  | unboundName => "E2001"
  | redeclaration => "E2002"
  | assignmentToConstant => "E2003"
  | typeMismatch => "E2004"
  | argumentCount => "E2005"
  | unificationFailure => "E2006"
  | indexOutOfBounds => "E2007"
  | uninferable => "E2008"
  | misplacedJump => "E2009"
  | resourceMisuse => "E2010"
  | unsupportedOperation => "E5001"
  | internalError => "E9001"
  | tooManyErrors => "E9002"
  | implicitRelease => "W005"
  | unreachableCode => "W006"
  | unusedBinding => "W007"
  | shadowedBinding => "W008"

/-- The code with a given identifier. -/
def ofText? (s : String) : Option Code :=
  all.find? (·.text == s)

/-- The part of the compiler that reports a code. -/
def family : Code → Family
  | unterminatedString | unterminatedComment | invalidLiteral | integerOverflow
  | invalidEscape | unexpectedCharacter => .lexer
  | unexpectedToken | unclosedDelimiter | unmatchedClose | malformedForm | missingDefault
  | malformedType | malformedOperator => .parser
  | unboundName | redeclaration | assignmentToConstant | typeMismatch | argumentCount
  | unificationFailure | indexOutOfBounds | uninferable | misplacedJump
  | resourceMisuse => .typing
  | unsupportedOperation => .codegen
  | internalError | tooManyErrors => .internal
  | implicitRelease | unreachableCode | unusedBinding | shadowedBinding => .warning

end Code

end FormCompiler
