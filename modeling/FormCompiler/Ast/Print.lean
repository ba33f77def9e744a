import FormCompiler.Ast.Item
import FormCompiler.Text.Quoted

/-!
# The text of a syntax tree

A tree is written in parentheses: the kind of the form, for an expression also its number, the span,
and then what the form consists of. What is left out in the program text is written as `_`.
-/

namespace FormCompiler

/-- Some parts in parentheses, with a blank between each two. -/
def parenthesized (parts : List String) : String := "(" ++ " ".intercalate parts ++ ")"

/-- The written form of an optional type. -/
def typeOrBlank (type : Option Ty) : String := (type.map Ty.text).getD "_"

/-- The bits of a double as sixteen hexadecimal digits. -/
def bitsText (bits : UInt64) : String := String.ofList (Text.Json.hexDigits 16 bits.toNat)

/-- The kind of a literal and its value. -/
def Literal.parts : Literal → List String
  | .int n => ["int", toString n]
  | .frac bits => ["frac", bitsText bits]
  | .bool b => ["bool", toString b]
  | .str s => ["str", Text.Json.write s]

/-- The kind of an operation on a mutex. -/
def MutexOp.kind : MutexOp → String
  | .create => "mutex_create"
  | .lock => "mutex_lock"
  | .unlock => "mutex_unlock"

mutual

/-- The written form of an expression. -/
def Expr.text : Expr → String
  | .node id span shape =>
    match formParts shape with
    | kind :: parts => parenthesized (kind :: s!"#{id}" :: span.text :: parts)
    | [] => ""

/-- The kind of a form and what it consists of. -/
def formParts : Shape Expr → List String
  | .literal value => value.parts
  | .name name => ["ident", name]
  | .call callee args => "call" :: callee :: exprTexts args
  | .binary op lhs rhs => ["binary", op.symbol, lhs.text, rhs.text]
  | .unary op operand => ["unary", op.symbol, operand.text]
  | .declare isMutable name type init =>
    [if isMutable then "var" else "const", name, typeOrBlank type, init.text]
  | .assign name value => ["set", name, value.text]
  | .assignElement target index value => ["set-index", target.text, index.text, value.text]
  | .scope body => "scope" :: exprTexts body
  | .cond isCheck test thenBranch elseBranch =>
    [if isCheck then "check" else "if", test.text, thenBranch.text, exprOrBlank elseBranch]
  | .whileLoop isAsync test body =>
    (if isAsync then "async-loop" else "while") :: test.text :: exprTexts body
  | .forLoop init test step body => "for" :: init.text :: test.text :: step.text :: exprTexts body
  | .loop body => "loop" :: exprTexts body
  | .breakLoop => ["break"]
  | .continueLoop => ["continue"]
  | .ret value => ["return", exprOrBlank value]
  | .element target index => ["index", target.text, index.text]
  | .array items => "array" :: exprTexts items
  | .tuple items => "tuple" :: exprTexts items
  | .length target => ["len", target.text]
  | .alloc size => ["alloc", size.text]
  | .free pointer => ["free", pointer.text]
  | .withResources resources body =>
    "with-resources" :: parenthesized (resourceTexts resources) :: exprTexts body
  | .atomic body => "atomic" :: exprTexts body
  | .mutex op none => [op.kind]
  | .mutex op (some handle) => [op.kind, handle.text]

/-- The written forms of expressions. -/
def exprTexts : List Expr → List String
  | [] => []
  | e :: rest => e.text :: exprTexts rest

/-- The written form of an optional expression. -/
def exprOrBlank : Option Expr → String
  | none => "_"
  | some e => e.text

/-- The written forms of resources. -/
def resourceTexts : List (Resource Expr) → List String
  | [] => []
  | ⟨name, init, span⟩ :: rest =>
    parenthesized [name, span.text, init.text] :: resourceTexts rest

end

/-- The written form of parameters. -/
def paramsText (params : List Param) : String :=
  parenthesized (params.map fun p => parenthesized [p.name, typeOrBlank p.type, p.span.text])

/-- The written form of a foreign function. -/
def ForeignFunction.text (f : ForeignFunction) : String :=
  parenthesized ["func", f.span.text, f.name, paramsText f.params, typeOrBlank f.result]

/-- The name of an associativity. -/
def Assoc.text : Assoc → String
  | .left => "left"
  | .right => "right"

mutual

/-- The written form of an item. -/
def Item.text : Item → String
  | .group name items span => parenthesized ("module" :: span.text :: name :: itemTexts items)
  | .const d => parenthesized ["const", d.span.text, d.name, typeOrBlank d.type, d.init.text]
  | .function d =>
    parenthesized (["func", d.span.text, d.name, paramsText d.params, typeOrBlank d.result] ++
      exprTexts d.body)
  | .foreign d =>
    parenthesized (["extern", d.span.text, Text.Json.write d.library] ++
      d.functions.map ForeignFunction.text)
  | .operator d =>
    parenthesized (["operator", d.span.text, d.symbol, toString d.precedence, d.assoc.text,
      paramsText d.params, typeOrBlank d.result] ++ exprTexts d.body)
  | .expr e => e.text

/-- The written forms of items. -/
def itemTexts : List Item → List String
  | [] => []
  | item :: items => item.text :: itemTexts items

end

end FormCompiler
