import FormCompiler.Flow.Graph
import FormCompiler.Machine.Basic

/-!
# Values that need no register

Two kinds of variables are never computed into a register. An integer or truth constant is
*immediate* if every instruction that reads it can have the number in its place. A comparison is
*fused* if nothing but the branch at the end of its block reads it, which then compares itself.
-/

namespace FormCompiler.Machine

open FormCompiler.Flow

/-- Whether the operands of an operator can be exchanged. -/
def isCommutative : BinaryOp → Bool
  | .add | .mul | .eq | .ne | .and | .or | .bitAnd | .bitOr | .bitXor => true
  | .sub | .div | .mod | .lt | .le | .gt | .ge | .shl | .shr => false

/-- The number that an integer or truth constant is. -/
def immediateValue? : Const → Option Int
  | .int n => some n
  | .bool b => some b.toInt
  | .float _ | .str _ => none

/-- The variables that are set to an integer or truth constant. -/
def numberConstants (f : Flow.Function) : List (VarId × Int) :=
  (f.blocks.flatMap (·.instrs)).filterMap fun
    | .set dst (.const c) => (immediateValue? c).map (dst, ·)
    | _ => none

/--
The variables that an instruction reads in places where a number can stand. An operation takes a
number on the right; if its operands can be exchanged, also on the left, unless the right operand
may be a number as well.
-/
def immediateUses (isNumber : VarId → Bool) : Flow.Instr → List VarId
  | .set _ (.binary op lhs rhs) =>
    if lhs = rhs then []
    else if isCommutative op && !isNumber rhs then [lhs, rhs]
    else [rhs]
  | .set _ (.copy v) | .store _ v | .loadElement _ _ v | .boundsCheck v _ => [v]
  | .storeElement _ index value => [index, value]
  | .makeArray _ elements | .makeTuple _ elements => elements
  | _ => []

/-- The variables that an instruction of a block, or its terminator, needs in a register. -/
def registerUses (isNumber : VarId → Bool) (b : Flow.Block) : List VarId :=
  (b.instrs.flatMap fun instr =>
    instr.uses.filter fun v => !(immediateUses isNumber instr).contains v) ++ b.terminator.uses

/-- The immediate variables, with their values. -/
def immediates (f : Flow.Function) : List (VarId × Int) :=
  let numbers := numberConstants f
  let isNumber (v : VarId) : Bool := (numbers.lookup v).isSome
  let blocked := f.blocks.flatMap (registerUses isNumber)
  numbers.filter fun (v, _) => !blocked.contains v

/-- A comparison of two variables. -/
structure Comparison where
  op : BinaryOp
  lhs : VarId
  rhs : VarId
deriving DecidableEq, Repr, Inhabited

/-- The comparison that a block sets a variable to. -/
def comparisonIn? (b : Flow.Block) (v : VarId) : Option Comparison :=
  b.instrs.findSome? fun
    | .set dst (.binary op lhs rhs) =>
      if dst = v ∧ op.isComparison then some ⟨op, lhs, rhs⟩ else none
    | _ => none

/-- The fused comparison of a block. -/
def fusedIn? (f : Flow.Function) (b : Flow.Block) : Option (VarId × Comparison) :=
  match b.terminator with
  | .branch test _ _ =>
    if f.useCount test = 1 then (comparisonIn? b test).map (test, ·) else none
  | _ => none

/-- The fused comparisons. -/
def fusedComparisons (f : Flow.Function) : List (VarId × Comparison) :=
  f.blocks.filterMap (fusedIn? f)

end FormCompiler.Machine
