import FormCompiler.Token.Basic

/-!
# Token trees

Delimiters give a list of tokens the structure of a tree. A `TokenTree` is a token that is no
delimiter, or a group: an opening delimiter, the trees up to the matching closing one, and the token
that ends the group. The kinds of delimiters are not told apart here; a group that is not closed
ends at `TokenKind.stop`. A closing delimiter that closes nothing is an atom of its own.
-/

namespace FormCompiler

/-- A token, or a group of trees between two delimiters. -/
inductive TokenTree where
  | atom (token : Token)
  | group (opening : Token) (parts : List TokenTree) (closing : Token)
deriving Repr, Inhabited

namespace TokenTree

/-- The first token of a tree. -/
def lead : TokenTree → Token
  | atom token => token
  | group opening _ _ => opening

/-- The trees read so far: those that are complete, and the open groups, innermost first. -/
structure Building where
  /-- The complete trees outside all groups, last first. -/
  complete : List TokenTree
  /-- The opening delimiters of the open groups, each with the trees in it, last first. -/
  pending : List (Token × List TokenTree)
deriving Repr, Inhabited

namespace Building

/-- Adds a complete tree to the innermost open group. -/
def add (b : Building) (tree : TokenTree) : Building :=
  match b.pending with
  | [] => { b with complete := tree :: b.complete }
  | (opening, parts) :: rest => { b with pending := (opening, tree :: parts) :: rest }

/-- Ends the innermost open group, if there is one. -/
def close (b : Building) (closing : Token) : Building :=
  match b.pending with
  | [] => b.add (atom closing)
  | (opening, parts) :: rest =>
    { b with pending := rest : Building }.add (group opening parts.reverse closing)

/-- Ends every open group. -/
def closeAll (b : Building) (closing : Token) : Building :=
  b.pending.foldl (fun b _ => b.close closing) b

/-- Adds a token. -/
def push (b : Building) (token : Token) : Building :=
  if token.kind.isOpen then { b with pending := (token, []) :: b.pending }
  else if token.kind.isClose then b.close token
  else if token.kind = .stop then b.closeAll token
  else b.add (atom token)

end Building

/-- The tokens up to the first `TokenKind.stop`, behind which nothing is read. -/
def upToStop : List Token → List Token
  | [] => []
  | token :: tokens => if token.kind = .stop then [token] else token :: upToStop tokens

/-- The trees of a list of tokens that ends in `TokenKind.stop`. -/
def ofTokens (tokens : List Token) : List TokenTree :=
  ((upToStop tokens).foldl Building.push ⟨[], []⟩).complete.reverse

end TokenTree

end FormCompiler
