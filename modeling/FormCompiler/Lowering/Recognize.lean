import FormCompiler.Ast.Expr
import FormCompiler.Flow.Basic
import FormCompiler.Word.Basic

/-!
# Forms that lowering recognizes

Two questions about the text of a program that lowering asks: whether an allocation is given up
later on in its body, and whether a loop counts.
-/

namespace FormCompiler

open FormCompiler.Flow

/-! ## Allocations -/

/-- Whether a form frees what a name holds, returns it, or gives it to another name. -/
def Expr.givesUp (name : String) (e : Expr) : Bool :=
  match e.shape with
  | .free value | .ret (some value) | .assign _ value | .declare _ _ _ value => value.isName name
  | _ => false

/-- Whether an allocation that a name holds is given up in the rest of the body. -/
def isGivenUp (name : String) (rest : List Expr) : Bool :=
  rest.getLast?.any (·.isName name) || rest.any fun e => e.any (·.givesUp name)

/-! ## Counted loops -/

/-- Whether a form, or one in it, assigns to a name. -/
def Expr.assigns (name : String) (e : Expr) : Bool :=
  e.any fun part =>
    match part.shape with
    | .assign target _ => target == name
    | _ => false

/-- The amount by which a step changes a counter. -/
def stepOf? (name : String) (step : Expr) : Option Int := do
  let .assign target value := step.shape | none
  let .binary op lhs rhs := value.shape | none
  guard (target == name && lhs.isName name)
  let amount ← rhs.intLiteral?
  match op with
  | .add => return amount
  | .sub => Word.checked? (-amount)
  | _ => none

/-- The comparison of a counter with a number that a loop tests. -/
def boundOf? (name : String) (test : Expr) : Option (BinaryOp × Int) := do
  let .binary cmp lhs rhs := test.shape | none
  guard ([.lt, .le, .gt, .ge, .ne].contains cmp && lhs.isName name)
  return (cmp, ← rhs.intLiteral?)

/--
The counter of a loop: it starts at a literal, is compared with a literal, changes by a literal in
each step, and is assigned nowhere else.
-/
def inductionOf? (slot : SlotId) (name : String) (start test step : Expr) (body : List Expr) :
    Option Induction := do
  let init ← start.intLiteral?
  let (cmp, bound) ← boundOf? name test
  let amount ← stepOf? name step
  guard (!body.any (·.assigns name))
  return ⟨slot, init, bound, amount, cmp⟩

end FormCompiler
