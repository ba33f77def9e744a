import FormCompiler.Token.Basic

/-!
# Cursors

A `Cursor` is a position in a list of tokens that ends in `TokenKind.stop`. It never moves past
the last token. `Cursor.skipForm` moves it over one balanced form.
-/

namespace FormCompiler

/-- A position in a list of tokens. -/
structure Cursor where
  tokens : List Token
  position : Nat
deriving DecidableEq, Repr, Inhabited

/--
The number of tokens of the form at the start of a list, for a list `depth` levels into the form:
an atom alone, or an opening delimiter with everything up to the matching closing one. The kinds
of delimiters are not told apart, and a form that is not closed ends before `TokenKind.stop`.
-/
def formLength (depth : Nat) : List Token → Nat
  | [] => 0
  | token :: tokens =>
    if token.kind = .stop then 0
    else
      let depth :=
        if token.kind.isOpen then depth + 1
        else if token.kind.isClose then depth - 1
        else depth
      if depth = 0 then 1 else 1 + formLength depth tokens

namespace Cursor

/-- The cursor at the first token. -/
def ofTokens (tokens : List Token) : Cursor := ⟨tokens, 0⟩

/-- The position of the last token. -/
def last (c : Cursor) : Nat := c.tokens.length - 1

/-- The token at the cursor. -/
def current (c : Cursor) : Token :=
  c.tokens.getD c.position ⟨.stop, .nowhere⟩

/-- Moves to a position, at most to the last token. -/
def moveTo (c : Cursor) (position : Nat) : Cursor :=
  { c with position := min position c.last }

/-- Moves to the next token; stays on the last one. -/
def advance (c : Cursor) : Cursor := c.moveTo (c.position + 1)

/-- The kind of the token `n` tokens ahead. -/
def peek (c : Cursor) (n : Nat) : TokenKind :=
  ((c.tokens[c.position + n]?).map (·.kind)).getD .stop

/-- The span of the token before the cursor. -/
def previousSpan (c : Cursor) : Span :=
  if c.position = 0 then .nowhere
  else ((c.tokens[c.position - 1]?).map (·.span)).getD .nowhere

/-- Whether the cursor is at the end of the source text. -/
def atEnd (c : Cursor) : Bool := c.current.kind == .stop

/-- Moves over the form at the cursor. -/
def skipForm (c : Cursor) : Cursor :=
  c.moveTo (c.position + formLength 0 (c.tokens.drop c.position))

end Cursor

end FormCompiler
