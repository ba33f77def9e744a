import FormCompiler.Token.Literal

/-!
# The lexer

At each position of the source text the lexer takes the longest text that one of the `Pattern`s
matches; between equally long matches the earlier pattern of `Pattern.all` wins. Some patterns only
find the start of a token: a block comment goes on to its `*/`, a string literal to its closing
quote, and a type annotation over its argument list. A character that starts no token is an error
of its own.

`Token.lex` gives all tokens of a text, the last of them `TokenKind.stop`, and the errors. A `Lexer`
scans for one token at a time and gives the same ones.
-/

namespace FormCompiler

/-! ## Patterns -/

/-- The kinds of text that can start at a position. -/
inductive Pattern where
  | blank
  | lineComment
  | blockComment
  | delimiter
  | arrow
  | word
  | marked
  | integer
  | fraction
  | quote
  | annotated
  | symbol
  | ident
deriving DecidableEq, Repr, Inhabited

/-- Whether a character only separates tokens. -/
def isBlank (c : Char) : Bool :=
  c == ' ' || c == '\t' || c == '\r' || c == '\n' || c == '\x0c'

/-- Whether a character can stand in an operator symbol. -/
def isSymbolChar (c : Char) : Bool :=
  "+-*/%<>=!&|^~?@$".toList.contains c

/-- Whether a character can start a name. -/
def isNameStart (c : Char) : Bool := c.isAlpha || c == '_'

/-- Whether a character can continue the name of a type. -/
def isTypeChar (c : Char) : Bool := c.isAlphanum || c == '_'

/-- Whether a character can continue a name. -/
def isNameChar (c : Char) : Bool := isTypeChar c || c == '-'

/-- Whether a character can continue a decimal literal. -/
def isDigitChar (c : Char) : Bool := c.isDigit || c == '_'

namespace Pattern

/-- The number of leading characters of a kind. -/
def run (p : Char → Bool) (text : List Char) : Nat := (text.takeWhile p).length

/-- The length of a decimal number at the start of a text; zero if there is none. -/
def decimalRun : List Char → Nat
  | c :: text => if c.isDigit then 1 + run isDigitChar text else 0
  | [] => 0

/-- The length of an exponent at the start of a text; zero if there is none. -/
def exponentRun : List Char → Nat
  | e :: text =>
    if e = 'e' ∨ e = 'E' then
      let (sign, digits) :=
        match text with
        | '+' :: digits | '-' :: digits => (1, digits)
        | digits => (0, digits)
      match run Char.isDigit digits with
      | 0 => 0
      | n => 1 + sign + n
    else 0
  | [] => 0

/--
The length of an integer with the mark of its base, without a sign; zero if there is none. Which
digits the base has is seen to later, so that a wrong digit does not split the literal.
-/
def markedRun : List Char → Nat
  | '0' :: mark :: text =>
    if mark ∈ ['x', 'X', 'o', 'O', 'b', 'B'] then 2 + run isTypeChar text else 0
  | _ => 0

/-- The length of a fraction without a sign; zero if there is none. -/
def fractionRun (text : List Char) : Nat :=
  match decimalRun text with
  | 0 => 0
  | whole =>
    match text.drop whole with
    | '.' :: rest =>
      match decimalRun rest with
      | 0 => 0
      | part => whole + 1 + part + exponentRun (rest.drop part)
    | _ => 0

/-- A length that counts an optional minus sign. -/
def signed (length : List Char → Nat) : List Char → Nat
  | '-' :: text =>
    match length text with
    | 0 => 0
    | n => n + 1
  | text => length text

/-- Every pattern; of equally long matches the first counts. -/
def all : List Pattern :=
  [blank, lineComment, blockComment, delimiter, arrow, word, marked, integer, fraction, quote,
    annotated, symbol, ident]

/-- The length of the text at a position that a pattern matches; zero if it matches none. -/
def length : Pattern → List Char → Nat
  | blank, text => run isBlank text
  | lineComment, '/' :: '/' :: text => 2 + run (· != '\n') text
  | blockComment, '/' :: '*' :: _ => 2
  | delimiter, c :: _ => if c ∈ ['[', ']', '(', ')', ':', ','] then 1 else 0
  | arrow, '-' :: '>' :: _ => 2
  | word, 't' :: 'r' :: 'u' :: 'e' :: _ => 4
  | word, 'f' :: 'a' :: 'l' :: 's' :: 'e' :: _ => 5
  | marked, text => signed markedRun text
  | integer, text => signed decimalRun text
  | fraction, text => signed fractionRun text
  | quote, '"' :: _ => 1
  | annotated, '!' :: c :: text => if isNameStart c then 2 + run isTypeChar text else 0
  | symbol, text => run isSymbolChar text
  | ident, c :: text => if isNameStart c then 1 + run isNameChar text else 0
  | _, _ => 0

/-- The better of two matches: the longer one, the first of two equally long ones. -/
def better (best next : Pattern × Nat) : Pattern × Nat :=
  if best.2 < next.2 then next else best

/-- The pattern with the longest match and its length; the length is zero if none matches. -/
def longest (text : List Char) : Pattern × Nat :=
  (all.map fun p => (p, p.length text)).foldl better (blank, 0)

end Pattern

/-! ## Tokens -/

/-- What stands at a position. -/
inductive Scanned where
  | skipped
  | token (kind : TokenKind)
  | wrong (kind : LexErrorKind)
deriving DecidableEq, Repr, Inhabited

/-- The number of characters up to the end of a block comment, from just after its start. -/
def commentEnd? : List Char → Option Nat
  | '*' :: '/' :: _ => some 2
  | _ :: text => (commentEnd? text).map (· + 1)
  | [] => none

/--
The length of a balanced argument list `<…>` of a type annotation, for a text `depth` levels into
it; zero if the list does not close. The list may not contain blanks, brackets or parentheses, and
the `>` of an arrow closes nothing.
-/
def typeArguments (depth count : Nat) : List Char → Nat
  | '<' :: text => typeArguments (depth + 1) (count + 1) text
  | '-' :: '>' :: text => typeArguments depth (count + 2) text
  | '>' :: text => if depth = 1 then count + 1 else typeArguments (depth - 1) (count + 1) text
  | c :: text =>
    if isBlank c || c ∈ ['[', ']', '(', ')'] then 0 else typeArguments depth (count + 1) text
  | [] => 0

/-- The token of a delimiter. -/
def delimiterKind : Char → TokenKind
  | '[' => .openBracket
  | ']' => .closeBracket
  | '(' => .openParen
  | ')' => .closeParen
  | ':' => .colon
  | _ => .comma

/-- A token, or the reason why there is none. -/
def Scanned.ofExcept (make : α → TokenKind) : Except LexErrorKind α → Scanned
  | .ok value => .token (make value)
  | .error kind => .wrong kind

/-- What stands at the start of the text `c :: text`, and how many characters it takes. -/
def scan (c : Char) (text : List Char) : Nat × Scanned :=
  let (pattern, n) := Pattern.longest (c :: text)
  let lexeme := (c :: text).take n
  let rest := (c :: text).drop n
  if n = 0 then (1, .wrong (.unexpectedChar c))
  else
    match pattern with
    | .blank | .lineComment => (n, .skipped)
    | .blockComment =>
      match commentEnd? rest with
      | some m => (n + m, .skipped)
      | none => (n + rest.length, .wrong .unterminatedComment)
    | .delimiter => (n, .token (delimiterKind c))
    | .arrow => (n, .token .arrow)
    | .word => (n, .token (.bool (c == 't')))
    | .marked => (n, .ofExcept .int (Literal.parseMarked lexeme))
    | .integer => (n, .ofExcept .int (Literal.parseDecimal lexeme))
    | .fraction => (n, .ofExcept .frac (Literal.parseFraction lexeme))
    | .quote =>
      let (m, value) := Literal.scanString [] none 0 rest
      (n + m, .ofExcept .str value)
    | .annotated =>
      let m := if rest.head? = some '<' then typeArguments 0 0 rest else 0
      (n + m, .token (.typeText (String.ofList (lexeme.drop 1 ++ rest.take m))))
    | .symbol => (n, .token (.symbol (String.ofList lexeme)))
    | .ident => (n, .token (.ident (String.ofList lexeme)))

/-- A token, or an error in its place. -/
inductive Piece where
  | token (token : Token)
  | error (error : LexError)
deriving DecidableEq, Repr, Inhabited

/-- The token of a piece; an error stands in the text as an invalid token. -/
def Piece.toToken : Piece → Token
  | .token t => t
  | .error e => ⟨.invalid, e.span⟩

/-- The error of a piece, if it is one. -/
def Piece.error? : Piece → Option LexError
  | .token _ => none
  | .error e => some e

/-- The piece that a scan gives for the text of a span. -/
def Scanned.piece? (span : Span) : Scanned → Option Piece
  | .skipped => none
  | .token kind => some (.token ⟨kind, span⟩)
  | .wrong kind => some (.error ⟨kind, span⟩)

/--
The pieces of a text that starts at `offset`; its first `taken` characters belong to a piece that
has been given already.
-/
def pieces (offset taken : Nat) : List Char → List Piece
  | [] => []
  | c :: text =>
    match taken with
    | taken + 1 => pieces (offset + c.utf8Size) taken text
    | 0 =>
      let (n, scanned) := scan c text
      let span : Span := ⟨offset, offset + byteLength ((c :: text).take n)⟩
      (scanned.piece? span).toList ++ pieces (offset + c.utf8Size) (n - 1) text

/-- The pieces of a source text, the end of the text included. -/
def Piece.ofSource (source : String) : List Piece :=
  let text := source.toList
  pieces 0 0 text ++ [.token ⟨.stop, .point (byteLength text)⟩]

/-- All tokens of a source text, and its lexical errors. -/
structure Lexed where
  tokens : List Token
  errors : List LexError
deriving DecidableEq, Repr, Inhabited

/-- Splits a source text into tokens. -/
def Token.lex (source : String) : Lexed :=
  let all := Piece.ofSource source
  ⟨all.map Piece.toToken, all.filterMap Piece.error?⟩

/-! ## One token at a time -/

/--
The first piece of a text that starts at `offset`, with the offset and the text behind it. The first
`taken` characters belong to something that has been skipped already.
-/
def firstPiece? (offset taken : Nat) : List Char → Option (Piece × Nat × List Char)
  | [] => none
  | c :: text =>
    match taken with
    | taken + 1 => firstPiece? (offset + c.utf8Size) taken text
    | 0 =>
      let (n, scanned) := scan c text
      let stop := offset + byteLength ((c :: text).take n)
      match scanned.piece? ⟨offset, stop⟩ with
      | some piece => some (piece, stop, (c :: text).drop n)
      | none => firstPiece? (offset + c.utf8Size) (n - 1) text

/-- A position between the tokens of a source text. -/
structure Lexer where
  source : String
  /-- The offset behind the last token. -/
  offset : Nat
  /-- The text behind the last token. -/
  rest : List Char
  /-- The errors found so far. -/
  errors : List LexError
  /-- Whether the end of the text has been given. -/
  isFinished : Bool
deriving DecidableEq, Repr, Inhabited

namespace Lexer

/-- A lexer at the start of a source text. -/
def ofSource (source : String) : Lexer := ⟨source, 0, source.toList, [], false⟩

/-- The next token, nothing after the last one, and the lexer behind it. -/
def next (l : Lexer) : Option Token × Lexer :=
  if l.isFinished then (none, l)
  else
    match firstPiece? l.offset 0 l.rest with
    | some (piece, offset, rest) =>
      (some piece.toToken, { l with offset, rest, errors := l.errors ++ piece.error?.toList })
    | none => (some ⟨.stop, .point (byteLength l.source.toList)⟩, { l with isFinished := true })

/-- Goes back to the start of the source text and forgets the errors. -/
def restart (l : Lexer) : Lexer := ofSource l.source

end Lexer

end FormCompiler
