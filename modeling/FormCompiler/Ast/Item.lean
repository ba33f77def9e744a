import FormCompiler.Ast.Expr

/-!
# Items

A unit is a list of items: declarations, groups of items under a module name, and expressions that
run when the unit is loaded.
-/

namespace FormCompiler

/-- A parameter of a function or operator. -/
structure Param where
  name : String
  type : Option Ty
  span : Span
deriving Repr, Inhabited

/-- A global constant. -/
structure ConstDecl where
  name : String
  type : Option Ty
  init : Expr
  span : Span
deriving Repr, Inhabited

/-- A function. -/
structure FunctionDecl where
  name : String
  params : List Param
  /-- The written result type; without it the result type is inferred. -/
  result : Option Ty
  body : List Expr
  span : Span
deriving Repr, Inhabited

/-- The signature of a foreign function. -/
structure ForeignFunction where
  name : String
  params : List Param
  result : Option Ty
  span : Span
deriving Repr, Inhabited

/-- The foreign functions of one library. -/
structure ForeignDecl where
  library : String
  functions : List ForeignFunction
  span : Span
deriving Repr, Inhabited

/-- A declared operator. -/
structure OperatorDecl where
  symbol : String
  precedence : Nat
  assoc : Assoc
  params : List Param
  result : Option Ty
  body : List Expr
  span : Span
deriving Repr, Inhabited

/-- A top-level form of a unit. -/
inductive Item where
  | group (name : String) (items : List Item) (span : Span)
  | const (decl : ConstDecl)
  | function (decl : FunctionDecl)
  | foreign (decl : ForeignDecl)
  | operator (decl : OperatorDecl)
  | expr (expr : Expr)
deriving Repr, Inhabited

/-- The text an item covers. -/
def Item.span : Item → Span
  | group _ _ span => span
  | const decl => decl.span
  | function decl => decl.span
  | foreign decl => decl.span
  | operator decl => decl.span
  | expr e => e.span

mutual

/-- The items that an item stands for: a group stands for the items in it. -/
def Item.flat : Item → List Item
  | .group _ items _ => flatItems items
  | .const decl => [.const decl]
  | .function decl => [.function decl]
  | .foreign decl => [.foreign decl]
  | .operator decl => [.operator decl]
  | .expr e => [.expr e]

/-- The items that a list of items stands for. -/
def flatItems : List Item → List Item
  | [] => []
  | item :: items => item.flat ++ flatItems items

end

/-- The expressions of an item, from which all others in it are reached. -/
def Item.roots : Item → List Expr
  | const decl => [decl.init]
  | function decl => decl.body
  | operator decl => decl.body
  | expr e => [e]
  | group .. | foreign _ => []

/-- The parsed form of a unit. -/
structure Module where
  /-- The name of the first module group. -/
  name : Option String
  items : List Item
  /-- The number of expression identifiers in use. -/
  exprCount : Nat
deriving Repr, Inhabited

/-- The items of a unit without the groups around them. -/
def Module.flatItems (m : Module) : List Item := FormCompiler.flatItems m.items

end FormCompiler
