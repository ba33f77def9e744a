import FormCompiler.Parsing.Conditional
import FormCompiler.Proofs.Evaluation.Basic

/-!
# Evaluation of expressions

`Eval.expr` is what expressions mean: in which order their parts are evaluated, which scopes they open, which
bindings their names refer to and where jumps go. What values are and what operations do is left open by an
`Interpretation`. An operation may fail, and so two expressions that mean the same also perform the same
operations up to any point at which one of them could fail. The release of allocations that a program does not
free itself is no part of the meaning.

An expression means the same if there are further locals that it has no names for (`Eval.alike_expr`).
-/

namespace FormCompiler

/-- What forms do with the values of their parts. -/
inductive Primitive where
  | literal (value : Literal)
  | global (name : String)
  | call (callee : String)
  | binary (op : BinaryOp)
  | unary (op : UnaryOp)
  | element
  /-- An array with another value for the element behind some indices. -/
  | withElement
  | array
  | tuple
  | length
  | alloc
  | free
  /-- The end of a resource. -/
  | release
  | giveWay
  | enterAtomic
  | leaveAtomic
  | mutex (op : MutexOp)
deriving DecidableEq, Repr

/-- Values, and what operations do with them and with the world. -/
structure Interpretation (V W : Type) where
  /-- What an operation on some values may do in a world; without a value it fails. -/
  perform : Primitive → List V → W → Option V → W → Prop
  isTrue : V → Bool
  /-- The value of forms that have none. -/
  nothing : V

/-- The expression through which the elements of an element are accessed. -/
def Expr.root : Expr → Expr
  | .node _ _ (.element target _) => target.root
  | e => e

namespace Eval

variable {V W : Type}

/-- Performs an operation on values. -/
def perform (I : Interpretation V W) (op : Primitive) (args : List V) : Eval V W V := operation (I.perform op args)

/-- Refuses a name that is that of a local. -/
def notLocal (name : String) : Eval V W Unit := do
  if (← local? name).isSome then stuck

/-- The value of a name: that of a local, or else that of a global. -/
def name (I : Interpretation V W) (text : String) : Eval V W V := do
  match ← local? text with
  | some value => return value
  | none => perform I (.global text) []

/-- Assigns to an element of the array that a local holds. -/
def assignElement (I : Interpretation V W) (root : Expr) (value : V) (indices : List V) : Eval V W Unit :=
  match root.shape with
  | .name text => do
    match ← local? text with
    | some array => assign text (← perform I .withElement (array :: value :: indices))
    | none => stuck
  | _ => stuck

/-- One round of a loop with a test, and what is done before the next one; the answer is whether there is a next one. -/
def round (I : Interpretation V W) (test body : Eval V W V) (next : Eval V W PUnit) : Eval V W Bool := do
  if I.isTrue (← test) then
    if ← loopBody body then
      next
      return true
    else return false
  else return false

mutual

/-- Evaluates an expression. -/
def expr (I : Interpretation V W) : Expr → Eval V W V
  | .node _ _ shape => form I shape

/-- Evaluates a form. -/
def form (I : Interpretation V W) : Shape Expr → Eval V W V
  | .literal value => perform I (.literal value) []
  | .name text => name I text
  | .call callee args => do
    notLocal callee
    perform I (.call callee) (← operands I args)
  | .binary op lhs rhs => do
    let left ← expr I lhs
    perform I (.binary op) [left, ← expr I rhs]
  | .unary op operand => do perform I (.unary op) [← expr I operand]
  | .declare _ text _ init => do
    declare text (← expr I init)
    return I.nothing
  | .assign text value => do
    assign text (← expr I value)
    return I.nothing
  | .assignElement target index value => do
    let indices ← path I target
    let last ← expr I index
    assignElement I target.root (← expr I value) (indices ++ [last])
    return I.nothing
  | .scope body => inScope (statements I body)
  | .cond _ test thenBranch elseBranch => do
    if I.isTrue (← expr I test) then inScope (expr I thenBranch) else inScope (optional I elseBranch)
  | .whileLoop isAsync test body => do
    repeating <| round I (expr I test) (inScope (statements I body)) do
      if isAsync then let _ ← perform I .giveWay []
    return I.nothing
  | .forLoop init test step body => inScope do
    let _ ← expr I init
    repeating <| round I (expr I test) (inScope (statements I body)) do
      let _ ← expr I step
    return I.nothing
  | .loop body => do
    repeating (loopBody (inScope (statements I body)))
    return I.nothing
  | .breakLoop => jump .breakLoop
  | .continueLoop => jump .continueLoop
  | .ret value => do jump (.ret (← optional I value))
  | .element target index => do
    -- An element of a local is read from the local, after the index.
    if target.isAtomic then
      let position ← expr I index
      perform I .element [← expr I target, position]
    else
      let whole ← expr I target
      perform I .element [whole, ← expr I index]
  | .array items => do perform I .array (← operands I items)
  | .tuple items => do perform I .tuple (← operands I items)
  | .length target => do perform I .length [← expr I target]
  | .alloc size => do perform I .alloc [← expr I size]
  | .free pointer => do perform I .free [← expr I pointer]
  | .withResources items body => inScope (resources I items (statements I body))
  | .atomic body => do
    let _ ← perform I .enterAtomic []
    inScope (ensuring (statements I body) (perform I .leaveAtomic []))
  | .mutex op none => perform I (.mutex op) []
  | .mutex op (some handle) => do perform I (.mutex op) [← expr I handle]

/-- Evaluates an expression if there is one. -/
def optional (I : Interpretation V W) : Option Expr → Eval V W V
  | none => return I.nothing
  | some e => expr I e

/-- Evaluates the forms of a body; the value is that of the last one. -/
def statements (I : Interpretation V W) : List Expr → Eval V W V
  | [] => return I.nothing
  | e :: rest => do
    let value ← expr I e
    if rest.isEmpty then return value else statements I rest

/-- Evaluates operands. -/
def operands (I : Interpretation V W) : List Expr → Eval V W (List V)
  | [] => return []
  | e :: rest => do
    let value ← expr I e
    return value :: (← operands I rest)

/-- Evaluates the indices on the way to an element, from the root on. -/
def path (I : Interpretation V W) : Expr → Eval V W (List V)
  | .node _ _ (.element target index) => do
    let indices ← path I target
    return indices ++ [← expr I index]
  | _ => return []

/-- Acquires resources and releases them when control leaves what uses them, the latest first. -/
def resources (I : Interpretation V W) : List (Resource Expr) → Eval V W V → Eval V W V
  | [], use => use
  | ⟨text, init, _⟩ :: rest, use => do
    let value ← expr I init
    declare text value
    ensuring (resources I rest use) (perform I .release [value])

end

end Eval

/-! ## Names -/

/-- The names that a form has itself. -/
def Shape.ownNames {α : Type} : Shape α → List String
  | .name text | .call text _ | .declare _ text _ _ | .assign text _ => [text]
  | .withResources items _ => items.map (·.name)
  | _ => []

/-- The names in some expressions, with all expressions in them. -/
def namesIn (parts : List Expr) : List String := parts.flatMap (·.shape.ownNames)

/-- The names in an expression. -/
def Expr.names (e : Expr) : List String := namesIn e.preorder

/-- The names in a predicate. -/
def Predicate.names : Predicate → List String
  | .equals e => e.names
  | .partly symbol operands _ => symbol :: namesIn (preorders operands)

/-- The names in the clauses of a pattern conditional. -/
def clauseNames (clauses : List (Predicate × Expr)) : List String :=
  clauses.flatMap fun clause => clause.1.names ++ clause.2.names

theorem namesIn_append (first second : List Expr) :
  namesIn (first ++ second) = namesIn first ++ namesIn second
  := List.flatMap_append

theorem names_node (id : Nat) (span : Span) (shape : Shape Expr) :
  (Expr.node id span shape).names = shape.ownNames ++ namesIn (shapePreorder shape)
  := by
  rw [Expr.names, Expr.preorder, namesIn, List.flatMap_cons]
  rfl

namespace Eval

section

variable {V W : Type} {extra : List (String × V)} {n : Nat}

/-- No further local has one of some names. -/
def Free (extra : List (String × V)) (names : List String) : Prop := ∀ name ∈ names, name ∉ extra.map Prod.fst

theorem free_append {first second : List String} :
  Free extra (first ++ second) ↔ Free extra first ∧ Free extra second
  := List.forall_mem_append

theorem free_singleton {name : String} :
  Free extra [name] ↔ name ∉ extra.map Prod.fst
  := List.forall_mem_singleton

namespace Alike

theorem perform (I : Interpretation V W) (op : Primitive) (args : List V) :
  Alike (Inserted extra n) (perform I op args) (Eval.perform I op args)
  := operation _

theorem notLocal {text : String} (h : text ∉ extra.map Prod.fst) :
  Alike (W := W) (Inserted extra n) (notLocal text) (Eval.notLocal text)
  := (local? h).bind fun _ => .ite .stuck (.pure ())

theorem name (I : Interpretation V W) {text : String} (h : text ∉ extra.map Prod.fst) :
  Alike (Inserted extra n) (name I text) (Eval.name I text)
  := by
  refine (local? h).bind fun found => ?_
  cases found with
  | none => exact perform I _ _
  | some value => exact .pure value

theorem assignElement (I : Interpretation V W) {root : Expr} (h : Free extra root.names) (value : V)
    (indices : List V) :
  Alike (Inserted extra n) (assignElement I root value indices) (Eval.assignElement I root value indices)
  := by
  obtain ⟨id, span, shape⟩ := root
  rw [names_node, free_append] at h
  cases shape with
  | name text =>
    have htext := free_singleton.mp h.1
    refine (local? htext).bind fun found => ?_
    cases found with
    | none => exact .stuck
    | some array => exact (perform I _ _).bind fun changed => assign htext changed
  | _ => exact .stuck

theorem round {I : Interpretation V W} {test body : Eval V W V} {next : Eval V W PUnit}
    (htest : Alike (Inserted extra n) test test) (hbody : Alike (Inserted extra n) body body)
    (hnext : Alike (Inserted extra n) next next) :
  Alike (Inserted extra n) (round I test body next) (Eval.round I test body next)
  := htest.bind fun _ => .ite (hbody.loopBody.bind fun _ => .ite (hnext.bind fun _ => .pure _) (.pure _)) (.pure _)

end Alike

theorem free_root : ∀ {e : Expr}, Free extra e.names → Free extra e.root.names
  | .node _ _ shape, h => by
    cases shape with
    | element target index =>
      rw [names_node, shapePreorder, namesIn_append, free_append, free_append] at h
      rw [Expr.root]
      exact free_root h.2.1
    | _ => exact h

/-! ## Names that are not used -/

mutual

/-- An expression means the same if there are further locals that it has no names for. -/
theorem alike_expr (I : Interpretation V W) : ∀ {e : Expr}, Free extra e.names →
    Alike (Inserted extra n) (expr I e) (expr I e)
  | .node _ _ shape, h => by
    rw [names_node, free_append] at h
    rw [expr]
    exact alike_form I h.1 h.2

theorem alike_form (I : Interpretation V W) : ∀ {shape : Shape Expr}, Free extra shape.ownNames →
    Free extra (namesIn (shapePreorder shape)) → Alike (Inserted extra n) (form I shape) (form I shape)
  | .name text, hown, _ => by
    rw [form]
    exact .name I (free_singleton.mp hown)
  | .call callee args, hown, h => by
    rw [shapePreorder] at h
    rw [form]
    exact (Alike.notLocal (free_singleton.mp hown)).bind fun _ => (alike_operands I h).bind fun _ => .perform I _ _
  | .binary op lhs rhs, _, h => by
    rw [shapePreorder, namesIn_append, free_append] at h
    rw [form]
    exact (alike_expr I h.1).bind fun _ => (alike_expr I h.2).bind fun _ => .perform I _ _
  | .declare isMutable text type init, hown, h => by
    rw [shapePreorder] at h
    rw [form]
    exact (alike_expr I h).bind fun value => (Alike.declare (free_singleton.mp hown) value).bind fun _ => .pure _
  | .assign text value, hown, h => by
    rw [shapePreorder] at h
    rw [form]
    exact (alike_expr I h).bind fun value => (Alike.assign (free_singleton.mp hown) value).bind fun _ => .pure _
  | .assignElement target index value, _, h => by
    rw [shapePreorder, namesIn_append, namesIn_append, free_append, free_append] at h
    rw [form]
    exact (alike_path I h.1.1).bind fun _ => (alike_expr I h.1.2).bind fun _ => (alike_expr I h.2).bind fun _ =>
      (Alike.assignElement I (free_root h.1.1) _ _).bind fun _ => .pure _
  | .scope body, _, h => by
    rw [shapePreorder] at h
    rw [form]
    exact (alike_statements I h).inScope
  | .cond isCheck test thenBranch elseBranch, _, h => by
    rw [shapePreorder, namesIn_append, namesIn_append, free_append, free_append] at h
    rw [form]
    exact (alike_expr I h.1.1).bind fun _ => .ite (alike_expr I h.1.2).inScope (alike_optional I h.2).inScope
  | .whileLoop isAsync test body, _, h => by
    rw [shapePreorder, namesIn_append, free_append] at h
    rw [form]
    have hnext : Alike (Inserted extra n) (do if isAsync then let _ ← Eval.perform I .giveWay [])
        (do if isAsync then let _ ← Eval.perform I .giveWay []) :=
      .ite ((Alike.perform I _ _).bind fun _ => .pure _) (.pure _)
    exact ((alike_expr I h.1).round (alike_statements I h.2).inScope hnext).repeating.bind fun _ => .pure _
  | .forLoop init test step body, _, h => by
    rw [shapePreorder, namesIn_append, namesIn_append, namesIn_append, free_append, free_append, free_append] at h
    rw [form]
    have hnext : Alike (Inserted extra n) (do let _ ← expr I step) (do let _ ← expr I step) :=
      (alike_expr I h.2).bind fun _ => .pure _
    refine Alike.inScope ((alike_expr I h.1.1.1).bind fun _ => Alike.bind ?_ fun _ => .pure _)
    exact ((alike_expr I h.1.1.2).round (alike_statements I h.1.2).inScope hnext).repeating
  | .loop body, _, h => by
    rw [shapePreorder] at h
    rw [form]
    exact (alike_statements I h).inScope.loopBody.repeating.bind fun _ => .pure _
  | .breakLoop, _, _ | .continueLoop, _, _ => by
    rw [form]
    exact .jump _
  | .ret value, _, h => by
    rw [shapePreorder] at h
    rw [form]
    exact (alike_optional I h).bind fun _ => .jump _
  | .element target index, _, h => by
    rw [shapePreorder, namesIn_append, free_append] at h
    rw [form]
    refine .ite ?_ ?_
    · exact (alike_expr I h.2).bind fun _ => (alike_expr I h.1).bind fun _ => .perform I _ _
    · exact (alike_expr I h.1).bind fun _ => (alike_expr I h.2).bind fun _ => .perform I _ _
  | .array items, _, h | .tuple items, _, h => by
    rw [shapePreorder] at h
    rw [form]
    exact (alike_operands I h).bind fun _ => .perform I _ _
  | .unary op operand, _, h | .length target, _, h | .alloc size, _, h | .free pointer, _, h => by
    rw [shapePreorder] at h
    rw [form]
    exact (alike_expr I h).bind fun _ => .perform I _ _
  | .withResources items body, hown, h => by
    rw [shapePreorder, namesIn_append, free_append] at h
    rw [form]
    exact (alike_resources I hown h.1 (alike_statements I h.2)).inScope
  | .atomic body, _, h => by
    rw [shapePreorder] at h
    rw [form]
    exact (Alike.perform I _ _).bind fun _ => ((alike_statements I h).ensuring (.perform I _ _)).inScope
  | .literal _, _, _ | .mutex op none, _, _ => by
    rw [form]
    exact .perform I _ _
  | .mutex op (some handle), _, h => by
    rw [shapePreorder, optionPreorder] at h
    rw [form]
    exact (alike_expr I h).bind fun _ => .perform I _ _

theorem alike_optional (I : Interpretation V W) : ∀ {e : Option Expr}, Free extra (namesIn (optionPreorder e)) →
    Alike (Inserted extra n) (optional I e) (optional I e)
  | none, _ => by
    rw [optional]
    exact .pure _
  | some e, h => by
    rw [optionPreorder] at h
    rw [optional]
    exact alike_expr I h

theorem alike_statements (I : Interpretation V W) : ∀ {body : List Expr}, Free extra (namesIn (preorders body)) →
    Alike (Inserted extra n) (statements I body) (statements I body)
  | [], _ => by
    rw [statements]
    exact .pure _
  | e :: rest, h => by
    rw [preorders, namesIn_append, free_append] at h
    rw [statements]
    exact (alike_expr I h.1).bind fun _ => .ite (.pure _) (alike_statements I h.2)

theorem alike_operands (I : Interpretation V W) : ∀ {items : List Expr}, Free extra (namesIn (preorders items)) →
    Alike (Inserted extra n) (operands I items) (operands I items)
  | [], _ => by
    rw [operands]
    exact .pure _
  | e :: rest, h => by
    rw [preorders, namesIn_append, free_append] at h
    rw [operands]
    exact (alike_expr I h.1).bind fun _ => (alike_operands I h.2).bind fun _ => .pure _

theorem alike_path (I : Interpretation V W) : ∀ {e : Expr}, Free extra e.names →
    Alike (Inserted extra n) (path I e) (path I e)
  | .node _ _ shape, h => by
    cases shape with
    | element target index =>
      rw [names_node, shapePreorder, namesIn_append, free_append, free_append] at h
      rw [path]
      exact (alike_path I h.2.1).bind fun _ => (alike_expr I h.2.2).bind fun _ => .pure _
    | _ => exact .pure _

theorem alike_resources (I : Interpretation V W) : ∀ {items : List (Resource Expr)} {use : Eval V W V},
    Free extra (items.map (·.name)) → Free extra (namesIn (resourcePreorders items)) →
    Alike (Inserted extra n) use use → Alike (Inserted extra n) (resources I items use) (resources I items use)
  | [], _, _, _, huse => by
    rw [resources]
    exact huse
  | ⟨text, init, _⟩ :: rest, _, hown, h, huse => by
    rw [List.map_cons, ← List.singleton_append, free_append] at hown
    rw [resourcePreorders, namesIn_append, free_append] at h
    rw [resources]
    exact (alike_expr I h.1).bind fun value => (Alike.declare (free_singleton.mp hown.1) value).bind fun _ =>
      (alike_resources I hown.2 h.2 huse).ensuring (.perform I _ _)

end

end

end Eval

end FormCompiler
