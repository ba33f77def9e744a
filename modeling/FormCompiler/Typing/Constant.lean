import FormCompiler.Ast.Expr
import FormCompiler.Double.Arithmetic
import FormCompiler.Word.Basic

/-!
# Constant values

The initialiser of a global constant is evaluated while the program is checked. It consists of
literals, other global constants, builtin operators, and arrays and tuples of these. An operation
that overflows or divides by zero has no value.
-/

namespace FormCompiler

/-- The value of a global constant. -/
inductive ConstValue where
  | int (value : Int)
  /-- A fraction, as the bits of a double. -/
  | frac (bits : UInt64)
  | bool (value : Bool)
  | str (value : String)
  | array (items : List ConstValue)
  | tuple (items : List ConstValue)
deriving Repr, Inhabited

/-- Why an initialiser has no value. -/
inductive ConstFault where
  | notGlobal
  | unaryOverflow
  | binaryOverflow (op : BinaryOp)
  | notConstant
deriving DecidableEq, Repr, Inhabited

/-- The message of a constant fault. -/
def ConstFault.message : ConstFault → String
  | notGlobal => "only global constants may be referenced"
  | unaryOverflow => "constant operation overflows"
  | binaryOverflow op => s!"constant `{op.symbol}` overflows or divides by zero"
  | notConstant => "global constant initialiser must be a compile-time constant"

namespace ConstValue

/-- The value of a literal. -/
def ofLiteral : Literal → ConstValue
  | .int n => int n
  | .frac bits => frac bits
  | .bool b => bool b
  | .str s => str s

/-- The value of a unary operation. -/
def unary? : UnaryOp → ConstValue → Option ConstValue
  | .neg, int n => (Word.checked? (-n)).map int
  | .neg, frac x => some (frac (Double.neg x))
  | .not, bool b => some (bool !b)
  | .bitNot, int n => some (int (Word.bitNot n))
  | _, _ => none

/-- The value of an operation on integers. -/
def integerBinary? (a b : Int) : BinaryOp → Option ConstValue
  | .add => (Word.checked? (a + b)).map int
  | .sub => (Word.checked? (a - b)).map int
  | .mul => (Word.checked? (a * b)).map int
  | .div => (Word.div? a b).map int
  | .mod => (Word.mod? a b).map int
  | .bitAnd => some (int (Word.bitAnd a b))
  | .bitOr => some (int (Word.bitOr a b))
  | .bitXor => some (int (Word.bitXor a b))
  | .shl => (Word.shiftAmount? 64 b).map fun n => int (Word.shiftLeft a n)
  | .shr => (Word.shiftAmount? 64 b).map fun n => int (Word.shiftRight a n)
  | .eq => some (bool (a == b))
  | .ne => some (bool (a != b))
  | .lt => some (bool (a < b))
  | .le => some (bool (a ≤ b))
  | .gt => some (bool (a > b))
  | .ge => some (bool (a ≥ b))
  | .and | .or => none

/-- The value of an operation on fractions. -/
def fractionBinary? (a b : UInt64) : BinaryOp → Option ConstValue
  | .add => some (frac (Double.add a b))
  | .sub => some (frac (Double.sub a b))
  | .mul => some (frac (Double.mul a b))
  | .div => if Double.isZero b then none else some (frac (Double.div a b))
  | .eq => some (bool (Double.comparesAs [.eq] a b))
  | .ne => some (bool !(Double.comparesAs [.eq] a b))
  | .lt => some (bool (Double.comparesAs [.lt] a b))
  | .le => some (bool (Double.comparesAs [.lt, .eq] a b))
  | .gt => some (bool (Double.comparesAs [.gt] a b))
  | .ge => some (bool (Double.comparesAs [.gt, .eq] a b))
  | .mod | .and | .or | .bitAnd | .bitOr | .bitXor | .shl | .shr => none

/-- The value of a binary operation. -/
def binary? (op : BinaryOp) : ConstValue → ConstValue → Option ConstValue
  | int a, int b => integerBinary? a b op
  | frac a, frac b => fractionBinary? a b op
  | bool a, bool b =>
    match op with
    | .and => some (bool (a && b))
    | .or => some (bool (a || b))
    | .eq => some (bool (a == b))
    | .ne => some (bool (a != b))
    | _ => none
  | str a, str b =>
    match op with
    | .eq => some (bool (a == b))
    | .ne => some (bool (a != b))
    | _ => none
  | _, _ => none

end ConstValue

mutual

/-- The value of an initialiser, given the values of the constants before it. -/
def Expr.constant (globals : String → Option ConstValue) : Expr → Except ConstFault ConstValue
  | .node _ _ shape => shapeConstant globals shape

/-- The value of a form, given the values of the constants before it. -/
def shapeConstant (globals : String → Option ConstValue) :
    Shape Expr → Except ConstFault ConstValue
  | .literal value => .ok (.ofLiteral value)
  | .name name =>
    match globals name with
    | some value => .ok value
    | none => .error .notGlobal
  | .unary op operand => do
    let value ← operand.constant globals
    match ConstValue.unary? op value with
    | some result => return result
    | none => throw .unaryOverflow
  | .binary op lhs rhs => do
    let left ← lhs.constant globals
    let right ← rhs.constant globals
    match ConstValue.binary? op left right with
    | some result => return result
    | none => throw (.binaryOverflow op)
  | .array items => return .array (← constants globals items)
  | .tuple items => return .tuple (← constants globals items)
  | _ => .error .notConstant

/-- The values of several initialisers. -/
def constants (globals : String → Option ConstValue) :
    List Expr → Except ConstFault (List ConstValue)
  | [] => .ok []
  | e :: rest => do
    let value ← e.constant globals
    return value :: (← constants globals rest)

end

end FormCompiler
