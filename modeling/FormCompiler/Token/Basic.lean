import FormCompiler.Source.Span

/-!
# Tokens

Source text is a sequence of tokens. Names, symbols, type annotations and string literals carry
their text, numbers and truth values carry what they denote.
-/

namespace FormCompiler

/-- What a token is. -/
inductive TokenKind where
  | openBracket
  | closeBracket
  | openParen
  | closeParen
  | ident (name : String)
  | int (value : Int)
  /-- A fraction, as the bits of a double. -/
  | frac (bits : UInt64)
  /-- A string literal, with its escapes resolved. -/
  | str (value : String)
  | bool (value : Bool)
  /-- A type annotation, without its leading `!`. -/
  | typeText (text : String)
  | symbol (text : String)
  | arrow
  | colon
  | comma
  /-- Text that is no token; the lexer reports it. -/
  | invalid
  /-- The end of the source text. -/
  | stop
deriving DecidableEq, Repr, Inhabited

namespace TokenKind

/-- How error messages name a token. -/
def describe : TokenKind → String
  | openBracket => "`[`"
  | closeBracket => "`]`"
  | openParen => "`(`"
  | closeParen => "`)`"
  | ident _ => "identifier"
  | int _ => "integer literal"
  | frac _ => "fraction literal"
  | str _ => "string literal"
  | bool _ => "boolean literal"
  | typeText _ => "type annotation"
  | symbol _ => "operator"
  | arrow => "`->`"
  | colon => "`:`"
  | comma => "`,`"
  | invalid => "invalid token"
  | stop => "end of input"

/-- Whether a token opens a form. -/
def isOpen : TokenKind → Bool
  | openBracket | openParen => true
  | _ => false

/-- Whether a token closes a form. -/
def isClose : TokenKind → Bool
  | closeBracket | closeParen => true
  | _ => false

end TokenKind

/-- A token and the text it covers. -/
structure Token where
  kind : TokenKind
  span : Span
deriving DecidableEq, Repr, Inhabited

/-- Why a piece of source text is no token. -/
inductive LexErrorKind where
  | unterminatedString
  | unterminatedComment
  | invalidDigit (digit : Char) (radix : Nat)
  | missingDigits (radix : Nat)
  | integerOverflow
  | invalidFraction
  | invalidEscape (escaped : Char)
  | unexpectedChar (char : Char)
deriving DecidableEq, Repr, Inhabited

/-- The message of a lexical error. -/
def LexErrorKind.message : LexErrorKind → String
  | unterminatedString => "unterminated string literal"
  | unterminatedComment => "unterminated block comment"
  | invalidDigit digit radix => s!"invalid digit `{digit}` in base-{radix} literal"
  | missingDigits radix => s!"base-{radix} literal has no digits"
  | integerOverflow => "integer literal does not fit in 64 bits"
  | invalidFraction => "invalid fraction literal"
  | invalidEscape escaped => s!"invalid escape sequence `\\{escaped}`"
  | unexpectedChar char => s!"unexpected character `{char}`"

/-- A lexical error and the text it is about. -/
structure LexError where
  kind : LexErrorKind
  span : Span
deriving DecidableEq, Repr, Inhabited

/-! ## Interned texts

An `Interner` numbers texts in the order in which they are first seen. The empty text has number
zero from the start.
-/

/-- The texts seen so far; the position of a text is its number. -/
structure Interner where
  texts : List String
deriving DecidableEq, Repr, Inhabited

namespace Interner

/-- The interner that knows the empty text only. -/
def empty : Interner := ⟨[""]⟩

/-- The number of a text, which is new if the text is. -/
def intern (i : Interner) (text : String) : Nat × Interner :=
  match i.texts.idxOf? text with
  | some n => (n, i)
  | none => (i.texts.length, ⟨i.texts ++ [text]⟩)

/-- The text with a number; empty if no text has it. -/
def lookup (i : Interner) (n : Nat) : String := i.texts.getD n ""

/-- The number of texts. -/
def size (i : Interner) : Nat := i.texts.length

/-- Whether only the empty text is known. -/
def isEmpty (i : Interner) : Bool := i.size ≤ 1

end Interner

end FormCompiler
