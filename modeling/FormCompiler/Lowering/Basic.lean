import FormCompiler.Lowering.Fault
import FormCompiler.Typing.Checked

/-!
# The state of lowering

A `Lower` action adds instructions to the function that is being made. They go to the end of the
*current* block, as long as that is open: a terminator closes it, and what comes after in the
program text is unreachable and makes no instructions. `LowerState.isOpen` says which it is.

Locals live in slots. A `Frame` holds the slots of the names of one scope, and what is owed when
control leaves the scope, on whichever way: the release of an allocation, or the end of an atomic
section. What all functions of a unit share stands in a `UnitState`, which survives the failure of
a function.
-/

namespace FormCompiler

open FormCompiler.Flow

/-! ## Functions of the runtime library -/

/-- The library with the functions that lowering itself calls. -/
def runtimeLibrary : String := "kiln_rt"

/-- A function of the runtime library. -/
inductive RuntimeFunction where
  | atomicBegin
  | atomicEnd
  /-- Lets other tasks run. -/
  | giveWay
  | mutex (op : MutexOp)
deriving DecidableEq, Repr, Inhabited

/-- The name of a function of the runtime library. -/
def RuntimeFunction.name : RuntimeFunction → String
  | atomicBegin => "rt_atomic_begin"
  | atomicEnd => "rt_atomic_end"
  | giveWay => "rt_yield"
  | mutex op => op.runtimeName

/-- A function of the runtime library, as a symbol that a program refers to. -/
def RuntimeFunction.symbol (f : RuntimeFunction) : ExternalSymbol :=
  let (params, result) : List ValueType × ValueType :=
    match f with
    | mutex .create => ([], .ptr)
    | mutex .lock | mutex .unlock => ([.ptr], .none)
    | atomicBegin | atomicEnd | giveWay => ([], .none)
  ⟨f.name, some runtimeLibrary, params, result⟩

/-! ## Scopes -/

/-- What has to be done when control leaves a scope. -/
inductive ExitAction where
  /-- Release the allocation that a slot holds. -/
  | release (slot : SlotId)
  | endAtomic
deriving DecidableEq, Repr, Inhabited

/-- One scope; in both lists the latest entry comes first. -/
structure Frame where
  names : List (String × SlotId)
  exits : List ExitAction
deriving DecidableEq, Repr, Inhabited

/-- The scope in which nothing has been declared. -/
def Frame.empty : Frame := ⟨[], []⟩

/-- The scopes around a form, the innermost first. -/
abbrev Frames := List Frame

namespace Frames

/-- The slot of a name. -/
def slot? (frames : Frames) (name : String) : Option SlotId :=
  frames.findSome? fun frame => frame.names.lookup name

/-- Changes the innermost scope. -/
def modifyInner (change : Frame → Frame) : Frames → Frames
  | [] => []
  | frame :: frames => change frame :: frames

/-- Binds a name in the innermost scope. -/
def bind (frames : Frames) (name : String) (slot : SlotId) : Frames :=
  frames.modifyInner fun frame => { frame with names := (name, slot) :: frame.names }

/-- Adds something to do when the innermost scope is left. -/
def owe (frames : Frames) (action : ExitAction) : Frames :=
  frames.modifyInner fun frame => { frame with exits := action :: frame.exits }

/-- What has to be done, in this order, to get out to where there are only so many scopes. -/
def exitsTo (frames : Frames) (depth : Nat) : List ExitAction :=
  (frames.take (frames.length - depth)).flatMap (·.exits)

end Frames

/-- Where `break` and `continue` go. -/
structure LoopTargets where
  latch : BlockId
  exit : BlockId
  /-- The number of scopes around the loop. -/
  depth : Nat
deriving DecidableEq, Repr, Inhabited

/-! ## States -/

/-- An instance of a generic function. -/
structure Instance where
  generic : String
  bindings : Substitution
  name : String
deriving DecidableEq, Repr, Inhabited

/-- What the functions of a unit share. -/
structure UnitState where
  externals : List ExternalSymbol
  /-- The names of all instances that are called. -/
  instances : List String
  /-- The instances that have not been lowered yet, in the order in which they were first called. -/
  pending : List Instance
  warnings : List ReleaseWarning
deriving Repr, Inhabited

/-- The state before any function has been lowered. -/
def UnitState.initial : UnitState := ⟨[], [], [], []⟩

/-- The state while a function is being lowered. -/
structure LowerState where
  shared : UnitState
  function : Function
  /-- The block that instructions are added to. -/
  current : BlockId
  /-- Whether the current block has no terminator yet. -/
  isOpen : Bool
  frames : Frames
  loop : Option LoopTargets
deriving Repr, Inhabited

/-- What is known before a function is lowered: the unit, and what its type variables stand for. -/
structure LowerContext where
  checked : CheckedModule
  bindings : Substitution
deriving Repr, Inhabited

/-- An action that may end with an error. -/
abbrev Lower := ReaderT LowerContext (ExceptT LowerError (StateM LowerState))

namespace Lower

/-- Ends with an error. -/
def fail (span : Span) (fault : LowerFault) : Lower α := throw ⟨span, fault⟩

/-- The value of an option that has to be there. -/
def required (span : Span) (fault : LowerFault) : Option α → Lower α
  | some value => return value
  | none => fail span fault

/-- Whether instructions can be added. -/
def isOpen : Lower Bool := return (← get).isOpen

/-- Changes what the functions of the unit share. -/
def modifyShared (change : UnitState → UnitState) : Lower Unit :=
  modify fun s => { s with shared := change s.shared }

/-- Changes the function. -/
def modifyFunction (change : Function → Function) : Lower Unit :=
  modify fun s => { s with function := change s.function }

/-! ## Types -/

/-- The type of values of a type of this instance. -/
def concrete (span : Span) (type : Ty) : Lower ValueType := do
  required span .notConcrete (ValueType.ofTy? ((← read).bindings.apply type))

/-- The type of the value of an expression. -/
def typeOf (id : Nat) (span : Span) : Lower ValueType := do
  concrete span (← required span .untyped ((← read).checked.type? id))

/-- The type of the value of an expression. -/
def exprType (e : Expr) : Lower ValueType := typeOf e.id e.span

/-- The length of the array that an expression stands for. -/
def arrayLength (e : Expr) : Lower Nat := do
  match ← exprType e with
  | .array _ length => return length
  | type => fail e.span (.notArray type)

/-! ## Parts of the function -/

/-- A new variable. -/
def freshVar (type : ValueType) : Lower VarId := do
  let (v, f) := (← get).function.freshVar type
  modifyFunction fun _ => f
  return v

/-- A new slot. -/
def freshSlot (name : Option String) (type : ValueType) : Lower SlotId := do
  let slot := (← get).function.slots.length
  modifyFunction fun f => { f with slots := f.slots ++ [⟨name, type⟩] }
  return slot

/-- A new block without parameters. -/
def freshBlock : Lower BlockId := do
  let block := (← get).function.blocks.length
  modifyFunction fun f => { f with blocks := f.blocks ++ [.empty] }
  return block

/-- A new parameter of a block. -/
def blockParam (block : BlockId) (type : ValueType) : Lower VarId := do
  let v ← freshVar type
  modifyFunction fun f => f.modifyBlock block fun b => { b with params := b.params ++ [v] }
  return v

/-- Makes a block that is still open the current one. -/
def enterBlock (block : BlockId) : Lower Unit :=
  modify fun s => { s with current := block, isOpen := true }

/-- Whether control may come to a block from what has been lowered so far. -/
def hasPredecessor (block : BlockId) : Lower Bool :=
  return (← get).function.blocks.any fun b => b.terminator.successors.contains block

/-! ## Instructions -/

/-- Adds an instruction. -/
def emit (instr : Instr) (span : Option Span) : Lower Unit := do
  let current := (← get).current
  modifyFunction fun f =>
    f.modifyBlock current fun b => { b with body := b.body ++ [⟨instr, span⟩] }

/-- Adds an instruction that defines a variable. -/
def define (type : ValueType) (span : Option Span) (instr : VarId → Instr) : Lower VarId := do
  let dst ← freshVar type
  emit (instr dst) span
  return dst

/-- Reads a slot. -/
def load (slot : SlotId) (span : Option Span) : Lower VarId := do
  define ((← get).function.slotType slot) span (.load · slot)

/-- Writes a value to a new slot without a name. -/
def spill (value : VarId) (span : Option Span) : Lower SlotId := do
  let slot ← freshSlot none ((← get).function.varType value)
  emit (.store slot value) span
  return slot

/-- Calls a function; there is a value if it has a result. -/
def call (callee : String) (args : List VarId) (convention : Convention) (result : ValueType)
    (isTail : Bool) (span : Option Span) : Lower (Option VarId) := do
  if result.isNone then
    emit (.call none callee args convention isTail) span
    return none
  else
    return some (← define result span fun dst => .call (some dst) callee args convention isTail)

/-- Closes the current block. -/
def terminate (terminator : Terminator) : Lower Unit := do
  let current := (← get).current
  modifyFunction fun f => f.modifyBlock current fun b => { b with terminator := terminator }
  modify fun s => { s with isOpen := false }

/-- Goes on in a block if control may come to it; otherwise what follows is unreachable. -/
def continueAt (block : BlockId) : Lower Unit := do
  enterBlock block
  unless ← hasPredecessor block do terminate .unreachable

/-! ## Symbols, instances and warnings -/

/-- Notes that a symbol of another unit or library is used. -/
def useSymbol (symbol : ExternalSymbol) : Lower Unit :=
  modifyShared fun u =>
    if u.externals.any (·.name == symbol.name) then u
    else { u with externals := u.externals ++ [symbol] }

/-- The name of an instance of a generic function, which has to be lowered as well. -/
def instantiate (generic : String) (bindings : Substitution) : Lower String := do
  let name := bindings.mangle generic
  modifyShared fun u =>
    if u.instances.contains name then u
    else
      { u with
        instances := u.instances ++ [name]
        pending := u.pending ++ [⟨generic, bindings, name⟩] }
  return name

/-- Adds a warning, once. -/
def warn (warning : ReleaseWarning) : Lower Unit :=
  modifyShared fun u =>
    if u.warnings.contains warning then u else { u with warnings := u.warnings ++ [warning] }

/-- Calls a function of the runtime library. -/
def runtimeCall (f : RuntimeFunction) (args : List VarId) (span : Option Span) :
    Lower (Option VarId) := do
  useSymbol f.symbol
  call f.name args (.foreign runtimeLibrary) f.symbol.result false span

/-! ## Scopes -/

/-- The slot of a local. -/
def slot? (name : String) : Lower (Option SlotId) := return (← get).frames.slot? name

/-- Binds a name in the innermost scope. -/
def bindName (name : String) (slot : SlotId) : Lower Unit :=
  modify fun s => { s with frames := s.frames.bind name slot }

/-- Adds something to do when the innermost scope is left. -/
def owe (action : ExitAction) : Lower Unit :=
  modify fun s => { s with frames := s.frames.owe action }

/-- Releases an allocation when its scope is left, with a warning. -/
def releaseAtExit (slot : SlotId) (span : Span) (name : Option String) : Lower Unit := do
  warn ⟨span, name⟩
  owe (.release slot)

/-- Does what is owed. -/
def leave : List ExitAction → Lower Unit
  | [] => return
  | .release slot :: actions => do
    let pointer ← load slot none
    emit (.release pointer) none
    leave actions
  | .endAtomic :: actions => do
    discard (runtimeCall .atomicEnd [] none)
    leave actions

/-- Runs an action in a scope of its own, and does what is owed if control comes out of it. -/
def inScope (action : Lower α) : Lower α := do
  modify fun s => { s with frames := .empty :: s.frames }
  let result ← action
  let exits := ((← get).frames.head?.map (·.exits)).getD []
  modify fun s => { s with frames := s.frames.tail }
  if ← isOpen then leave exits
  return result

/-- Runs an action with other targets of `break` and `continue`. -/
def inLoop (latch exit : BlockId) (action : Lower α) : Lower α := do
  let outer := (← get).loop
  modify fun s => { s with loop := some ⟨latch, exit, s.frames.length⟩ }
  let result ← action
  modify fun s => { s with loop := outer }
  return result

/-! ## Jumps -/

/-- Where `break` and `continue` go; the form is named in the error outside of loops. -/
def loopTargets (span : Span) (form : String) : Lower LoopTargets := do
  required span (.outsideLoop form) (← get).loop

/-- Leaves the scopes inside the loop and jumps to one of its targets. -/
def jumpInLoop (targets : LoopTargets) (target : BlockId) : Lower Unit := do
  leave ((← get).frames.exitsTo targets.depth)
  terminate (.jump target [])

/-- Leaves all scopes and returns. -/
def returnValue (span : Span) (value : Option VarId) : Lower Unit := do
  leave ((← get).frames.exitsTo 0)
  if (← get).function.result.isNone then terminate (.ret none)
  else terminate (.ret (some (← required span .returnValue value)))

end Lower

end FormCompiler
