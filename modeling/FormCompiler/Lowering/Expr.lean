import FormCompiler.Lowering.Basic
import FormCompiler.Lowering.Recognize
import FormCompiler.Typing.Expr

/-!
# Lowering of expressions

`Lower.expr` adds the instructions of an expression to the current block and gives the variable that
holds its value. There is none if the expression has no value, or if control does not come out of
it; then the block is no longer open.

Loops are all of one shape, which the optimiser relies on: a *preheader* that only jumps to the
*header*, where the test is; the header branches to the body and to the *exit*; the body ends in the
*latch*, which jumps back to the header.
-/

namespace FormCompiler

open FormCompiler.Flow

/-- Where an expression stands. -/
inductive Place where
  /-- Inside another form, which uses its value or ignores it. -/
  | operand
  /-- In a body, before other forms. A body that is used for its value has a last form. -/
  | statement (rest : List Expr) (isLast : Bool)
deriving Repr, Inhabited

namespace Place

/-- Whether the value of an expression is dropped, so that nothing can free an allocation. -/
def drops : Place → Bool
  | operand => false
  | statement _ isLast => !isLast

/-- Whether an allocation for a name at this place is kept until the scope ends. -/
def keeps (place : Place) (name : String) : Bool :=
  match place with
  | operand => false
  | statement rest _ => !isGivenUp name rest

end Place

/-- The constant that a literal stands for. -/
def Literal.const : Literal → Const
  | .int n => .int n
  | .frac bits => .float bits
  | .bool b => .bool b
  | .str s => .str s

/-- Whether an expression is an allocation. -/
def Expr.isAlloc (e : Expr) : Bool :=
  match e.shape with
  | .alloc _ => true
  | _ => false

/-- The name that a mutable declaration binds, and its initial value. -/
def Expr.counter? (e : Expr) : Option (String × Expr) :=
  match e.shape with
  | .declare true name _ init => some (name, init)
  | _ => none

namespace Lower

/-- The value of an operand; there is none only if control does not come out of it. -/
def need (e : Expr) (value : Option VarId) : Lower (Option VarId) := do
  if value.isNone && (← isOpen) then fail e.span .noValue
  return value

/-- The position of a tuple element. -/
def tuplePosition (index : Expr) : Lower Nat := do
  match index.intLiteral? with
  | some n => if 0 ≤ n ∧ n < twoPow 32 then return n.toNat else fail index.span .tupleRange
  | none => fail index.span .tupleIndex

/-- Reads a name: a local, or else a global constant. -/
def name (id : Nat) (span : Span) (name : String) : Lower VarId := do
  match ← slot? name with
  | some slot => load slot (some span)
  | none =>
    if ((← read).checked.global? name).isNone then fail span (.unknownName name)
    define (← typeOf id span) (some span) (.loadGlobal · name)

/-- Binds a name to a new slot that holds a value. -/
def bindValue (name : String) (type : ValueType) (value : VarId) (span : Span) : Lower SlotId := do
  let slot ← freshSlot (some name) type
  emit (.store slot value) (some span)
  bindName name slot
  return slot

/-- Compares an index with the length, unless the checker has done so. -/
def boundsCheck (id : Nat) (span : Span) (index : VarId) (length : Nat) : Lower Unit := do
  if (← read).checked.isDynamicIndex id then emit (.boundsCheck index length) (some span)

/-! ## Calls -/

/-- The types of the parameters of a signature, which has no variables. -/
def paramTypes (span : Span) (sig : FunctionSig) : Lower (List ValueType) :=
  sig.paramTypes.mapM fun type => required span .notConcrete (ValueType.ofTy? type)

/-- The name and the convention by which a function is called. -/
def callee (id : Nat) (span : Span) (sig : FunctionSig) (result : ValueType) :
    Lower (String × Convention) := do
  let checked := (← read).checked
  let isDeclared := (checked.declared? sig.name).isSome
  match sig.kind with
  | .foreign library =>
    useSymbol ⟨sig.name, some library, ← paramTypes span sig, result⟩
    return (sig.name, .foreign library)
  | _ =>
    if sig.isGeneric then
      unless isDeclared do fail span (.foreignGeneric sig.name)
      let inst ← required span .noInstantiation (checked.instantiation? id)
      let bindings := inst.bindings.compose (← read).bindings
      unless bindings.isConcrete do fail span .openInstantiation
      return (← instantiate sig.name bindings, .native)
    else
      unless isDeclared do useSymbol ⟨sig.name, none, ← paramTypes span sig, result⟩
      return (sig.name, .native)

/-- Calls a function on values. -/
def callOn (id : Nat) (span : Span) (sig : FunctionSig) (args : List VarId) :
    Lower (Option VarId) := do
  let result ← typeOf id span
  let (name, convention) ← callee id span sig result
  let isTail := (← read).checked.isTailCall id && name == (← get).function.name
  call name args convention result isTail (some span)

/-! ## Element assignment -/

/-- Copies the rows on the way to an element into new slots, from the root on. -/
def openRows (span : Option Span) (slot : SlotId) : List (Expr × VarId) → Lower (List SlotId)
  | [] => return []
  | (access, index) :: path => do
    let row ← define (← exprType access) span (.loadElement · slot index)
    let rowSlot ← spill row span
    return rowSlot :: (← openRows span rowSlot path)

/-- Writes changed rows back, the innermost first. -/
def closeRows (span : Option Span) (slot : SlotId) : List (SlotId × VarId) → Lower Unit
  | [] => return
  | (rowSlot, index) :: rows => do
    closeRows span rowSlot rows
    let row ← load rowSlot span
    emit (.storeElement slot index row) span

/-- Assigns to an element of a named array through rows. -/
def assignElement (span : Option Span) (root : SlotId) (accesses : List Expr)
    (indices : List VarId) (index value : VarId) : Lower Unit := do
  let rows ← openRows span root (accesses.zip indices)
  emit (.storeElement ((root :: rows).getLast?.getD root) index value) span
  closeRows span root (rows.zip indices)

/-! ## Conditionals and loops -/

/-- Ends a branch of a conditional by a jump to where the branches join. -/
def joinBranch (span : Span) (join : BlockId) (param : Option VarId) (value : Option VarId) :
    Lower Unit := do
  if ← isOpen then
    match param with
    | none => terminate (.jump join [])
    | some _ => terminate (.jump join [← required span .branchValue value])

/-- The blocks of a loop. -/
structure LoopBlocks where
  preheader : BlockId
  header : BlockId
  /-- The first block of the body; without a test this is the header. -/
  body : BlockId
  latch : BlockId
  exit : BlockId
  /-- The number of blocks before those that the parts of the loop make. -/
  count : Nat
deriving DecidableEq, Repr, Inhabited

/-- Makes the blocks of a loop and goes to its header. -/
def enterLoop (isTested : Bool) : Lower LoopBlocks := do
  let preheader ← freshBlock
  terminate (.jump preheader [])
  enterBlock preheader
  let header ← freshBlock
  let body ← if isTested then freshBlock else pure header
  let latch ← freshBlock
  let exit ← freshBlock
  terminate (.jump header [])
  enterBlock header
  return ⟨preheader, header, body, latch, exit, exit + 1⟩

/-- Branches to the body of a loop or out of it, and goes to the body. -/
def enterBody (blocks : LoopBlocks) (test : VarId) : Lower Unit := do
  terminate (.branch test blocks.body blocks.exit)
  enterBlock blocks.body

/-- Ends the body of a loop and goes to the latch. -/
def enterLatch (blocks : LoopBlocks) : Lower Unit := do
  if ← isOpen then terminate (.jump blocks.latch [])
  enterBlock blocks.latch

/-- Jumps back from the latch of a loop, records the loop and goes on after it. -/
def leaveLoop (blocks : LoopBlocks) (induction : Option Induction) : Lower Unit := do
  let backEdge := (← get).current
  if ← isOpen then terminate (.jump blocks.header [])
  let inner := List.range' blocks.count ((← get).function.blocks.length - blocks.count)
  let members := [blocks.header, blocks.body, blocks.latch].eraseDups ++ inner
  modifyFunction fun f =>
    { f with
      loops := f.loops ++
        [⟨blocks.preheader, blocks.header, backEdge, blocks.exit, members, induction⟩] }
  continueAt blocks.exit

/-- The counter of a `for` loop whose initial form has been lowered. -/
def inductionFor (init test step : Expr) (body : List Expr) : Lower (Option Induction) := do
  match init.counter? with
  | none => return none
  | some (name, start) =>
    match ← slot? name with
    | none => return none
    | some slot =>
      if ((← get).function.slotType slot).isInt then
        return inductionOf? slot name start test step body
      else return none

end Lower

/-! ## Expressions -/

namespace Lower

mutual

/-- Lowers an expression. -/
def expr (place : Place) : Expr → Lower (Option VarId)
  | .node id span shape => do
    if ← isOpen then form place id span shape else return none

/-- Lowers a form. -/
def form (place : Place) (id : Nat) (span : Span) : Shape Expr → Lower (Option VarId)
  | .literal value => do
    return some (← define (← typeOf id span) (some span) (.set · (.const value.const)))
  | .name n => do return some (← name id span n)
  | .call callee args => do
    let sig ← required span (.noSignature callee) ((← read).checked.signature? callee)
    let some values ← operands args | return none
    callOn id span sig values
  | .binary op lhs rhs => do
    let some left ← need lhs (← expr .operand lhs) | return none
    let some right ← need rhs (← expr .operand rhs) | return none
    return some (← define (← typeOf id span) (some span) (.set · (.binary op left right)))
  | .unary op operand => do
    let some value ← need operand (← expr .operand operand) | return none
    return some (← define (← typeOf id span) (some span) (.set · (.unary op value)))
  | .declare _ name _ init => do
    let type ← exprType init
    let some value ← need init (← expr .operand init) | return none
    let slot ← bindValue name type value span
    if init.isAlloc && place.keeps name then releaseAtExit slot init.span (some name)
    return none
  | .assign name value => do
    let slot ← required span (.unboundTarget name) (← slot? name)
    let some value ← need value (← expr .operand value) | return none
    emit (.store slot value) (some span)
    return none
  | .assignElement target index value => do
    let path := target.accessPath.reverse
    let root := path.headD target
    let .name rootName := root.shape | fail root.span .unnamedTarget
    let slot ← required root.span (.unboundTarget rootName) (← slot? rootName)
    let some indices ← rowIndices target | return none
    let some last ← need index (← expr .operand index) | return none
    boundsCheck id span last (← arrayLength target)
    let some value ← need value (← expr .operand value) | return none
    assignElement (some span) slot path.tail indices last value
    return none
  | .scope body => inScope (statements body)
  | .cond _ test thenBranch elseBranch => do
    let some test ← need test (← expr .operand test) | return none
    let type ← if elseBranch.isSome then typeOf id span else pure .none
    let thenBlock ← freshBlock
    let elseBlock ← freshBlock
    let join ← freshBlock
    let param ← if type.isNone then pure none else some <$> blockParam join type
    terminate (.branch test thenBlock elseBlock)
    enterBlock thenBlock
    joinBranch span join param (← inScope (expr (.statement [] true) thenBranch))
    enterBlock elseBlock
    joinBranch span join param (← branch elseBranch)
    continueAt join
    return if ← isOpen then param else none
  | .whileLoop isAsync test body => do
    let blocks ← enterLoop true
    let some test ← need test (← expr .operand test) | return none
    enterBody blocks test
    discard (inLoop blocks.latch blocks.exit (inScope (statements body)))
    enterLatch blocks
    if isAsync then discard (runtimeCall .giveWay [] (some span))
    leaveLoop blocks none
    return none
  | .forLoop init test step body => inScope do
    discard (expr .operand init)
    unless ← isOpen do return none
    let counter ← inductionFor init test step body
    let blocks ← enterLoop true
    let some test ← need test (← expr .operand test) | return none
    enterBody blocks test
    discard (inLoop blocks.latch blocks.exit (inScope (statements body)))
    enterLatch blocks
    discard (expr .operand step)
    leaveLoop blocks counter
    return none
  | .loop body => do
    let blocks ← enterLoop false
    discard (inLoop blocks.latch blocks.exit (inScope (statements body)))
    enterLatch blocks
    leaveLoop blocks none
    return none
  | .breakLoop => do
    let targets ← loopTargets span "break"
    jumpInLoop targets targets.exit
    return none
  | .continueLoop => do
    let targets ← loopTargets span "continue"
    jumpInLoop targets targets.latch
    return none
  | .ret none => do
    returnValue span none
    return none
  | .ret (some value) => do
    let value ← expr .operand value
    if ← isOpen then returnValue span value
    return none
  | .element target index => do
    match ← exprType target with
    | .tuple _ =>
      let some tuple ← need target (← expr .operand target) | return none
      let position ← tuplePosition index
      return some (← define (← typeOf id span) (some span) (.extract · tuple position))
    | .array _ length =>
      let some slot ← arraySlot target | return none
      let some index ← need index (← expr .operand index) | return none
      boundsCheck id span index length
      return some (← define (← typeOf id span) (some span) (.loadElement · slot index))
    | type => fail target.span (.notIndexable type)
  | .array items => do
    let some values ← operands items | return none
    return some (← define (← typeOf id span) (some span) (.makeArray · values))
  | .tuple items => do
    let some values ← operands items | return none
    return some (← define (← typeOf id span) (some span) (.makeTuple · values))
  | .length target => do
    let length ← arrayLength target
    let isNamed := match target.shape with
      | .name _ => true
      | _ => false
    unless isNamed do
      let some _ ← need target (← expr .operand target) | return none
    if twoPow 63 ≤ length then fail span .lengthRange
    return some (← define (← typeOf id span) (some span) (.set · (.const (.int length))))
  | .alloc size => do
    let some size ← need size (← expr .operand size) | return none
    let pointer ← define .ptr (some span) (.alloc · size)
    if place.drops then
      releaseAtExit (← spill pointer none) span none
      return none
    return some pointer
  | .free pointer => do
    let some pointer ← need pointer (← expr .operand pointer) | return none
    emit (.free pointer) (some span)
    return none
  | .withResources items body => inScope do
    if ← resources items then statements body else return none
  | .atomic body => do
    discard (runtimeCall .atomicBegin [] (some span))
    inScope do
      owe .endAtomic
      statements body
  | .mutex op none => runtimeCall (.mutex op) [] (some span)
  | .mutex op (some handle) => do
    let some handle ← need handle (← expr .operand handle) | return none
    runtimeCall (.mutex op) [handle] (some span)

/-- Lowers the second branch of a conditional, if there is one. -/
def branch : Option Expr → Lower (Option VarId)
  | none => return none
  | some e => inScope (expr (.statement [] true) e)

/-- Lowers the forms of a body; the value is that of the last one. -/
def statements : List Expr → Lower (Option VarId)
  | [] => return none
  | e :: rest => do
    let value ← expr (.statement rest rest.isEmpty) e
    unless ← isOpen do return none
    if rest.isEmpty then return value else statements rest

/-- Lowers operands; there are no values if control does not come out of one. -/
def operands : List Expr → Lower (Option (List VarId))
  | [] => return some []
  | e :: rest => do
    let some value ← need e (← expr .operand e) | return none
    let some values ← operands rest | return none
    return some (value :: values)

/-- The slot of an array: that of a local, or a new one that holds a copy. -/
def arraySlot : Expr → Lower (Option SlotId)
  | .node id span shape => do
    let known ← match shape with
      | .name n => slot? n
      | _ => pure none
    if known.isSome then return known
    let value ← if ← isOpen then form .operand id span shape else pure none
    let some value ← need (.node id span shape) value | return none
    return some (← spill value (some span))

/-- Lowers the indices on the way to the array whose element is assigned, from the root on. -/
def rowIndices : Expr → Lower (Option (List VarId))
  | .node id span (.element target index) => do
    let some indices ← rowIndices target | return none
    let some last ← need index (← expr .operand index) | return none
    boundsCheck id span last (← arrayLength target)
    return some (indices ++ [last])
  | _ => return some []

/-- Acquires resources, which are released when the scope is left; false if control is lost. -/
def resources : List (Resource Expr) → Lower Bool
  | [] => return true
  | ⟨name, init, span⟩ :: rest => do
    let some pointer ← need init (← expr .operand init) | return false
    let slot ← bindValue name .ptr pointer span
    owe (.release slot)
    resources rest

end

end Lower

end FormCompiler
