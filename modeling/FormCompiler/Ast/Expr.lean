import FormCompiler.Ty.Basic
import FormCompiler.Operator.Basic
import FormCompiler.Source.Span

/-!
# Expressions

An expression is a node with an identifier, unique in its unit, a span and a `Shape`: the form of
the node, with the expressions in it. A `Shape` is generic in what stands for the expressions, so
that `Shape.children` can be said once for all forms.
-/

namespace FormCompiler

/-- A literal value. -/
inductive Literal where
  | int (value : Int)
  /-- A fraction, as the bits of a double. -/
  | frac (bits : UInt64)
  | bool (value : Bool)
  | str (value : String)
deriving DecidableEq, Repr, Inhabited

/-- An operation on a mutex. -/
inductive MutexOp where
  | create
  | lock
  | unlock
deriving DecidableEq, Repr, Inhabited

/-- The runtime function that performs a mutex operation. -/
def MutexOp.runtimeName : MutexOp → String
  | create => "rt_mutex_create"
  | lock => "rt_mutex_lock"
  | unlock => "rt_mutex_unlock"

/-- A resource that a form acquires under a name. -/
structure Resource (α : Type) where
  name : String
  init : α
  span : Span
deriving Repr, Inhabited

/-- The form of an expression whose parts are of type `α`. -/
inductive Shape (α : Type) where
  | literal (value : Literal)
  | name (name : String)
  /-- A call of a function or of a declared operator. -/
  | call (callee : String) (args : List α)
  | binary (op : BinaryOp) (lhs rhs : α)
  | unary (op : UnaryOp) (operand : α)
  /-- A local binding, which can be assigned to if it is mutable. -/
  | declare (isMutable : Bool) (name : String) (type : Option Ty) (init : α)
  | assign (name : String) (value : α)
  | assignElement (target index value : α)
  | scope (body : List α)
  /-- A conditional; `isCheck` marks the form that needs both branches. -/
  | cond (isCheck : Bool) (test thenBranch : α) (elseBranch : Option α)
  /-- A loop that runs while a test holds, and yields after each round if it is asynchronous. -/
  | whileLoop (isAsync : Bool) (test : α) (body : List α)
  | forLoop (init test step : α) (body : List α)
  | loop (body : List α)
  | breakLoop
  | continueLoop
  | ret (value : Option α)
  | element (target index : α)
  | array (items : List α)
  | tuple (items : List α)
  | length (target : α)
  | alloc (size : α)
  | free (pointer : α)
  | withResources (resources : List (Resource α)) (body : List α)
  | atomic (body : List α)
  | mutex (op : MutexOp) (handle : Option α)
deriving Repr, Inhabited

/-- The parts of a form, in the order in which they are evaluated. -/
def Shape.children : Shape α → List α
  | literal _ | name _ | breakLoop | continueLoop => []
  | call _ items | scope items | loop items | array items | tuple items | atomic items => items
  | binary _ lhs rhs => [lhs, rhs]
  | unary _ part | declare _ _ _ part | assign _ part | length part | alloc part | free part =>
    [part]
  | assignElement target index value => [target, index, value]
  | cond _ test thenBranch elseBranch => test :: thenBranch :: elseBranch.toList
  | whileLoop _ test body => test :: body
  | forLoop init test step body => init :: test :: body ++ [step]
  | ret value => value.toList
  | element target index => [target, index]
  | withResources resources body => resources.map (·.init) ++ body
  | mutex _ handle => handle.toList

/-- Whether a form unconditionally leaves the body it stands in. -/
def Shape.isJump : Shape α → Bool
  | breakLoop | continueLoop | ret _ => true
  | _ => false

/-- An expression. -/
inductive Expr where
  | node (id : Nat) (span : Span) (shape : Shape Expr)
deriving Repr, Inhabited

namespace Expr

/-- The identifier of an expression. -/
def id : Expr → Nat
  | node id _ _ => id

/-- The text an expression covers. -/
def span : Expr → Span
  | node _ span _ => span

/-- The form of an expression. -/
def shape : Expr → Shape Expr
  | node _ _ shape => shape

/-- The expression with another span. -/
def withSpan (span : Span) : Expr → Expr
  | node id _ shape => node id span shape

/-- Whether an expression is a given name. -/
def isName (name : String) : Expr → Bool
  | node _ _ (.name other) => other == name
  | _ => false

/-- The value of an integer literal. -/
def intLiteral? : Expr → Option Int
  | node _ _ (.literal (.int value)) => some value
  | _ => none

end Expr

mutual

/-- An expression and all expressions in it, each before its parts. -/
def Expr.preorder : Expr → List Expr
  | .node id span shape => .node id span shape :: shapePreorder shape

/-- All expressions in a form. -/
def shapePreorder : Shape Expr → List Expr
  | .literal _ | .name _ | .breakLoop | .continueLoop => []
  | .call _ items | .scope items | .loop items | .array items | .tuple items | .atomic items =>
    preorders items
  | .binary _ lhs rhs => lhs.preorder ++ rhs.preorder
  | .unary _ part | .declare _ _ _ part | .assign _ part | .length part | .alloc part
  | .free part => part.preorder
  | .assignElement target index value => target.preorder ++ index.preorder ++ value.preorder
  | .cond _ test thenBranch elseBranch =>
    test.preorder ++ thenBranch.preorder ++ optionPreorder elseBranch
  | .whileLoop _ test body => test.preorder ++ preorders body
  | .forLoop init test step body =>
    init.preorder ++ test.preorder ++ preorders body ++ step.preorder
  | .ret value => optionPreorder value
  | .element target index => target.preorder ++ index.preorder
  | .withResources resources body => resourcePreorders resources ++ preorders body
  | .mutex _ handle => optionPreorder handle

/-- All expressions in an optional expression. -/
def optionPreorder : Option Expr → List Expr
  | none => []
  | some part => part.preorder

/-- All expressions in a list of expressions. -/
def preorders : List Expr → List Expr
  | [] => []
  | part :: parts => part.preorder ++ preorders parts

/-- All expressions in the resources of a form. -/
def resourcePreorders : List (Resource Expr) → List Expr
  | [] => []
  | ⟨_, init, _⟩ :: resources => init.preorder ++ resourcePreorders resources

end

/-- Whether an expression, or one in it, satisfies a condition. -/
def Expr.any (p : Expr → Bool) (e : Expr) : Bool := e.preorder.any p

end FormCompiler
