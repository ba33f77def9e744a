import FormCompiler.Double.Arithmetic
import FormCompiler.Flow.Basic

/-!
# Operations on constants

What an operation on constants gives, if it does not trap and the result is a value of the type it
should have. Floating-point operations are folded on finite numbers only.
-/

namespace FormCompiler.Flow.Const

/-- Whether an ordering is what a comparison asks for. -/
def comparison? (ordering : Ordering) : BinaryOp → Option Bool
  | .eq => some (ordering == .eq)
  | .ne => some (ordering != .eq)
  | .lt => some (ordering == .lt)
  | .le => some (ordering != .gt)
  | .gt => some (ordering == .gt)
  | .ge => some (ordering != .lt)
  | _ => none

/-- An integer constant of so many bits. -/
def ofInt? (bits : Nat) (n : Int) : Option Const :=
  if Word.fits n bits then some (int n) else none

/-- A number shifted left by less than its width, if no bits are lost. -/
def shiftLeft? (bits : Nat) (a b : Int) : Option Int := do
  let amount ← Word.shiftAmount? (min bits 64) b
  let shifted := Word.shiftLeft a amount
  if Word.shiftRight shifted amount = a then return shifted else none

/-- An operation on integers of so many bits, before the result is compared with their range. -/
def arithmetic? (bits : Nat) (a b : Int) : BinaryOp → Option Int
  | .add => Word.checked? (a + b)
  | .sub => Word.checked? (a - b)
  | .mul => Word.checked? (a * b)
  | .div => Word.div? a b
  | .mod => Word.mod? a b
  | .bitAnd => some (Word.bitAnd a b)
  | .bitOr => some (Word.bitOr a b)
  | .bitXor => some (Word.bitXor a b)
  | .shl => shiftLeft? bits a b
  | .shr => (Word.shiftAmount? (min bits 64) b).map (Word.shiftRight a)
  | _ => none

/-- An operation on integers. -/
def binaryInt? (op : BinaryOp) (a b : Int) (type : ValueType) : Option Const :=
  if op.isComparison then (comparison? (compare a b) op).map bool
  else
    match type with
    | .int bits => (arithmetic? bits a b op).bind (ofInt? bits)
    | _ => none

/-- A floating-point constant, rounded to the precision of its type; infinities are none. -/
def ofDouble? (x : UInt64) : ValueType → Option Const
  | .float 32 => (Double.toSingle? x).map float
  | .float _ => if Double.isFinite x then some (float x) else none
  | _ => none

/-- An operation on floating-point numbers. -/
def binaryFloat? (op : BinaryOp) (a b : UInt64) (type : ValueType) : Option Const :=
  if Double.isFinite a && Double.isFinite b then
    if op.isComparison then
      (Double.compare? a b).bind fun ordering => (comparison? ordering op).map bool
    else
      match op with
      | .add => ofDouble? (Double.add a b) type
      | .sub => ofDouble? (Double.sub a b) type
      | .mul => ofDouble? (Double.mul a b) type
      | .div => if Double.isZero b then none else ofDouble? (Double.div a b) type
      | .mod => (Double.remainder? a b).bind (ofDouble? · type)
      | _ => none
  else none

/-- A binary operation whose result has a type. -/
def binary? (op : BinaryOp) (lhs rhs : Const) (type : ValueType) : Option Const :=
  match lhs, rhs with
  | int a, int b => binaryInt? op a b type
  | float a, float b => binaryFloat? op a b type
  | bool a, bool b =>
    match op with
    | .and => some (bool (a && b))
    | .or => some (bool (a || b))
    | .eq => some (bool (a == b))
    | .ne => some (bool (a != b))
    | _ => none
  | str a, str b =>
    match op with
    | .eq => some (bool (a == b))
    | .ne => some (bool (a != b))
    | _ => none
  | _, _ => none

/-- A unary operation whose result has a type. -/
def unary? (op : UnaryOp) (operand : Const) (type : ValueType) : Option Const :=
  match op, operand, type with
  | .neg, int n, .int bits => (Word.checked? (-n)).bind (ofInt? bits)
  | .neg, float x, type => ofDouble? (Double.neg x) type
  | .not, bool b, _ => some (bool !b)
  | .bitNot, int n, _ => some (int (Word.bitNot n))
  | _, _, _ => none

/-- Whether an integer is well inside the range of 64 bits, so that converting to it is exact. -/
def isConvertible (n : Int) : Bool := -9000000000000000000 ≤ n && n < 9000000000000000000

/-- The conversion of a number to a type, if it is exact or gives a floating-point number. -/
def cast? (operand : Const) (type : ValueType) : Option Const :=
  match operand, type with
  | int n, .int bits => ofInt? bits n
  | int n, .float _ => ofDouble? (Double.ofInt n) type
  | float x, .float _ => ofDouble? x type
  | float x, .int bits =>
    ((Double.toInt? x).filter isConvertible).bind (ofInt? bits)
  | _, _ => none

end FormCompiler.Flow.Const
