/-!
# Operators

The builtin binary and unary operators. Each has a symbol, with which source text writes it,
and a mnemonic, with which instruction text writes it.

Infix notation needs to know how tightly operators bind. An `OperatorTable` answers this for the
builtin operators and for those that a unit declares. A unit may declare a symbol again, and the
last declaration counts, but it cannot redefine a builtin operator.
-/

namespace FormCompiler

/-- A builtin binary operator. -/
inductive BinaryOp where
  | add
  | sub
  | mul
  | div
  | mod
  | eq
  | ne
  | lt
  | le
  | gt
  | ge
  | and
  | or
  | bitAnd
  | bitOr
  | bitXor
  | shl
  | shr
deriving DecidableEq, Repr, Inhabited

/-- A builtin unary operator. -/
inductive UnaryOp where
  | neg
  | not
  | bitNot
deriving DecidableEq, Repr, Inhabited

namespace BinaryOp

/-- Every binary operator. -/
def all : List BinaryOp :=
  [add, sub, mul, div, mod, eq, ne, lt, le, gt, ge, and, or, bitAnd, bitOr, bitXor, shl, shr]

/-- The symbol that writes an operator in source text. -/
def symbol : BinaryOp → String
  | add => "+"
  | sub => "-"
  | mul => "*"
  | div => "/"
  | mod => "%"
  | eq => "=="
  | ne => "!="
  | lt => "<"
  | le => "<="
  | gt => ">"
  | ge => ">="
  | and => "&&"
  | or => "||"
  | bitAnd => "&"
  | bitOr => "|"
  | bitXor => "^"
  | shl => "<<"
  | shr => ">>"

/-- The word that writes an operator in instruction text. -/
def mnemonic : BinaryOp → String
  | add => "add"
  | sub => "sub"
  | mul => "mul"
  | div => "div"
  | mod => "mod"
  | eq => "eq"
  | ne => "ne"
  | lt => "lt"
  | le => "le"
  | gt => "gt"
  | ge => "ge"
  | and => "and"
  | or => "or"
  | bitAnd => "band"
  | bitOr => "bor"
  | bitXor => "bxor"
  | shl => "shl"
  | shr => "shr"

/-- The operator with a given symbol. -/
def ofSymbol? (s : String) : Option BinaryOp := all.find? (·.symbol == s)

/-- The operator with a given mnemonic. -/
def ofMnemonic? (s : String) : Option BinaryOp := all.find? (·.mnemonic == s)

/-- How tightly an operator binds in infix notation; all are left associative. -/
def precedence : BinaryOp → Nat
  | or => 1
  | and => 2
  | bitOr => 3
  | bitXor => 4
  | bitAnd => 5
  | eq | ne => 6
  | lt | le | gt | ge => 7
  | shl | shr => 8
  | add | sub => 9
  | mul | div | mod => 10

/-- Whether an operator compares its operands. -/
def isComparison : BinaryOp → Bool
  | eq | ne | lt | le | gt | ge => true
  | _ => false

/-- Whether an operator combines truth values. -/
def isLogical : BinaryOp → Bool
  | and | or => true
  | _ => false

/-- Whether an operator works on the bits of integers. -/
def isBitwise : BinaryOp → Bool
  | bitAnd | bitOr | bitXor | shl | shr => true
  | _ => false

/-- Whether evaluating an operator can trap, as division by zero does. -/
def mayTrap : BinaryOp → Bool
  | div | mod => true
  | _ => false

end BinaryOp

namespace UnaryOp

/-- Every unary operator. -/
def all : List UnaryOp := [neg, not, bitNot]

/-- The symbol that writes an operator in source text. -/
def symbol : UnaryOp → String
  | neg => "-"
  | not => "!"
  | bitNot => "~"

/-- The word that writes an operator in instruction text. -/
def mnemonic : UnaryOp → String
  | neg => "neg"
  | not => "not"
  | bitNot => "bnot"

/-- The operator with a given symbol. -/
def ofSymbol? (s : String) : Option UnaryOp := all.find? (·.symbol == s)

/-- The operator with a given mnemonic. -/
def ofMnemonic? (s : String) : Option UnaryOp := all.find? (·.mnemonic == s)

end UnaryOp

/-! ## The operator table -/

/-- On which side a chain of equally binding operators nests. -/
inductive Assoc where
  | left
  | right
deriving DecidableEq, Repr, Inhabited

/-- What the infix notation needs to know about an operator. -/
structure OperatorInfo where
  precedence : Nat
  assoc : Assoc
  /-- The builtin operator, or nothing for one that the unit declares. -/
  builtin : Option BinaryOp
deriving DecidableEq, Repr, Inhabited

/-- The operators that infix notation knows; the first entry of a symbol counts. -/
structure OperatorTable where
  entries : List (String × OperatorInfo)
deriving DecidableEq, Repr, Inhabited

namespace OperatorTable

/-- The table of the builtin operators. -/
def builtins : OperatorTable :=
  ⟨BinaryOp.all.map fun op => (op.symbol, ⟨op.precedence, .left, some op⟩)⟩

/-- What the table says about a symbol. -/
def lookup (t : OperatorTable) (symbol : String) : Option OperatorInfo :=
  t.entries.lookup symbol

/-- Declares an operator; nothing for the symbol of a builtin operator. -/
def register? (t : OperatorTable) (symbol : String) (precedence : Nat) (assoc : Assoc) :
    Option OperatorTable :=
  match t.lookup symbol with
  | some ⟨_, _, some _⟩ => none
  | _ => some ⟨(symbol, ⟨precedence, assoc, none⟩) :: t.entries⟩

end OperatorTable

end FormCompiler
