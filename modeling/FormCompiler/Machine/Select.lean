import FormCompiler.Machine.Fault
import FormCompiler.Machine.Immediate

/-!
# Instruction selection

`select` makes code on virtual registers from a flow graph. Arrays and tuples are values of the
program, but the register of such a variable holds only an address: each instruction that makes one
copies it to a part of the frame of its own.

The frame starts with the slots that are still used; then come the parts for arrays and tuples in
the order of the instructions. An offset is at most `maxOffset`, and a size that is larger counts as
`maxOffset`.
-/

namespace FormCompiler.Machine

open FormCompiler.Flow

/-- The largest offset into a frame. -/
def maxOffset : Nat := twoPow 32 - 1

/-- Whether values of a type stay in memory. -/
def isAggregate : ValueType → Bool
  | .array _ _ | .tuple _ => true
  | _ => false

/-- The number of words that a register of a type holds. -/
def registerWords : ValueType → Nat
  | .vector _ width => width
  | _ => 1

/-- The types of the parts of an array or tuple that is made from so many values. -/
def partTypes (type : ValueType) (count : Nat) : List ValueType :=
  match type with
  | .array element _ => List.replicate count element
  | .tuple elements => elements
  | _ => []

/-! ## State -/

/-- What selection knows about a function and the program around it. -/
structure SelectContext where
  program : Program
  target : Target
  function : Flow.Function
  immediates : List (VarId × Int)
  fused : List (VarId × Comparison)
  /-- The offset of each slot. -/
  slots : List Nat
  /-- The text that the current instruction was made from. -/
  span : Option Span
deriving Repr, Inhabited

/-- What selection makes. -/
structure SelectState where
  frameSize : Nat
  /-- The number of virtual registers that stand for no variable. -/
  temporaries : Nat
  /-- The texts of strings, each once. -/
  strings : List String
  /-- The instructions of the current block. -/
  body : List (Instr VReg)
deriving Repr, Inhabited

/-- An action of selection, which may end with an error. -/
abbrev Select := ReaderT SelectContext (StateT SelectState (Except CodegenError))

namespace Select

/-- Adds an instruction. -/
def emit (instr : Instr VReg) : Select Unit :=
  modify fun s => { s with body := s.body ++ [instr] }

/-- The operand that a variable is read as. -/
def operand (v : VarId) : Select (Operand VReg) := do
  match (← read).immediates.lookup v with
  | some n => return .imm n
  | none => return .reg v

/-- The type of a variable. -/
def typeOf (v : VarId) : Select ValueType := return (← read).function.varType v

/-- Ends because the frame does not fit. -/
def tooLarge : Select α := do throw (.frameTooLarge (← read).function.name)

/-! ## The frame -/

/-- The number of bytes that so many words take. -/
def bytes (words : Nat) : Select Nat :=
  if words < twoPow 64 then return min (words * wordBytes) maxOffset else tooLarge

/-- The offset so many bytes after another one. -/
def after (offset size : Nat) : Select Nat :=
  if offset + size ≤ maxOffset then return offset + size else tooLarge

/-- A new part of the frame with so many words. -/
def frameArea (words : Nat) : Select Nat := do
  let offset := (← get).frameSize
  let next ← after offset (← bytes words)
  modify fun s => { s with frameSize := next }
  return offset

/-- The offset of a slot. -/
def slotOffset (slot : SlotId) : Select Nat := return (← read).slots.getD slot 0

/-- The type of the elements of an array in a slot. -/
def elementType (slot : SlotId) : Select ValueType := do
  match (← read).function.slotType slot with
  | .array element _ => return element
  | _ => return .none

/-- The offset of an element at a known position. -/
def elementOffset (slot : SlotId) (position : Nat) : Select Nat := do
  let scale ← bytes (← elementType slot).words
  return min ((← slotOffset slot) + scale * min position maxOffset) maxOffset

/-- The address of an element. -/
def elementAddress (slot : SlotId) (index : VarId) : Select (Address VReg) := do
  match ← operand index with
  | .imm n => return .frame (← elementOffset slot (if n < 0 then maxOffset else n.toNat))
  | _ =>
    let scale ← bytes (← elementType slot).words
    return .element (← slotOffset slot) index scale

/-! ## Loading and storing values -/

/-- Copies a value in memory to a part of the frame of its own, and locates that. -/
def copyValue (dst : VReg) (type : ValueType) (source : Address VReg) : Select Unit := do
  let area ← frameArea type.words
  emit (.copy (.frame area) source type.words)
  emit (.locate dst (.frame area))

/-- Stores a value of a type. -/
def storeValue (address : Address VReg) (type : ValueType) (value : VarId) : Select Unit := do
  if isAggregate type then emit (.copy address (.based value 0) type.words)
  else emit (.store address (← operand value))

/-- Loads the value of a variable. -/
def loadValue (dst : VarId) (address : Address VReg) : Select Unit := do
  let type ← typeOf dst
  if isAggregate type then copyValue dst type address else emit (.load dst address)

/-- Stores the parts of an array or tuple one after the other. -/
def storeParts (offset : Nat) : List (VarId × ValueType) → Select Unit
  | [] => return
  | (value, type) :: parts => do
    storeValue (.frame offset) type value
    storeParts (← after offset (← bytes type.words)) parts

/-! ## Instructions -/

/-- The label of the text of a string. -/
def stringLabel (text : String) : Select String := do
  let strings := (← get).strings
  unless strings.contains text do modify fun s => { s with strings := strings ++ [text] }
  return s!"str.{strings.idxOf text}"

/-- The number of lanes of a vector that an instruction works on. -/
def lanes (v : VarId) (instruction : String) : Select Nat := do
  let context ← read
  let width := registerWords (← typeOf v)
  unless context.target.hasLanes width do
    throw (.unsupportedOperation context.function.name instruction width context.target.name
      context.span)
  return width

/-- Requires a callee to be a function of the program or an external one. -/
def resolve (callee : String) : Select Unit := do
  let context ← read
  if (context.program.function? callee).isNone && (context.program.external? callee).isNone then
    throw (.unresolvedSymbol context.function.name callee context.span)

/-- Sets a variable. -/
def set (dst : VarId) : Value → Select Unit
  | .const (.int n) => emit (.move dst (.imm n))
  | .const (.bool b) => emit (.move dst (.imm b.toInt))
  | .const (.float bits) => emit (.move dst (.float bits))
  | .const (.str text) => do emit (.locate dst (.symbol (← stringLabel text)))
  | .copy source => do emit (.move dst (← operand source))
  | .binary op lhs rhs => do
    let lhs ← operand lhs
    let rhs ← operand rhs
    if lhs.isImmediate then emit (.binary op dst rhs lhs) else emit (.binary op dst lhs rhs)
  | .unary op source => do emit (.unary op dst (← operand source))
  | .cast source => do emit (.convert dst (← operand source) (← typeOf dst))

/-- Calls a function. An array or tuple comes back by its address and is copied. -/
def call (dst : Option VarId) (callee : String) (args : List VarId) (convention : Convention) :
    Select Unit := do
  resolve callee
  let args ← args.mapM operand
  match dst with
  | none => emit (.call callee convention args none)
  | some dst =>
    let type ← typeOf dst
    if isAggregate type then
      let returned := (← read).function.varTypes.length + (← get).temporaries
      modify fun s => { s with temporaries := s.temporaries + 1 }
      emit (.call callee convention args (some returned))
      copyValue dst type (.based returned 0)
    else emit (.call callee convention args (some dst))

/-- Makes an array or a tuple. -/
def make (dst : VarId) (elements : List VarId) : Select Unit := do
  let type ← typeOf dst
  let area ← frameArea type.words
  storeParts area (elements.zip (partTypes type elements.length))
  emit (.locate dst (.frame area))

/-- Selects the code of an instruction. -/
def instr : Flow.Instr → Select Unit
  | .set dst value => do
    let context ← read
    unless (context.immediates.lookup dst).isSome || (context.fused.lookup dst).isSome do
      set dst value
  | .call dst callee args convention _ => call dst callee args convention
  | .load dst slot => do loadValue dst (.frame (← slotOffset slot))
  | .store slot value => do
    storeValue (.frame (← slotOffset slot)) ((← read).function.slotType slot) value
  | .loadGlobal dst name => do
    if isAggregate (← typeOf dst) then emit (.locate dst (.symbol name))
    else emit (.load dst (.symbol name))
  | .loadElement dst slot index => do loadValue dst (← elementAddress slot index)
  | .storeElement slot index value => do
    storeValue (← elementAddress slot index) (← elementType slot) value
  | .boundsCheck index length => do emit (.check (← operand index) length)
  | .makeArray dst elements | .makeTuple dst elements => make dst elements
  | .extract dst tuple index => do
    let parts := partTypes (← typeOf tuple) 0
    loadValue dst (.based tuple (← bytes (totalWords (parts.take index))))
  | .alloc dst size => do emit (.alloc dst (← operand size))
  | .free pointer | .release pointer => emit (.free pointer)
  | .loadLanes dst slot start => do
    let width ← lanes dst "vload"
    emit (.loadLanes dst (.frame (← elementOffset slot start)) width)
  | .storeLanes slot start value => do
    let width ← lanes value "vstore"
    emit (.storeLanes (.frame (← elementOffset slot start)) (.reg value) width)
  | .binaryLanes dst op lhs rhs => do
    let width ← lanes dst ("v" ++ op.mnemonic)
    emit (.binaryLanes op dst lhs rhs width)

/-- The moves and the control of a terminator. -/
def terminator : Terminator → Select (List (VReg × Operand VReg) × Control VReg)
  | .ret none => return ([], .ret none)
  | .ret (some value) => do return ([], .ret (some (← operand value)))
  | .jump target args => do
    let args ← args.mapM operand
    return (((← read).function.block target).params.zip args, .jump target)
  | .branch test thenBlock elseBlock => do
    match (← read).fused.lookup test with
    | some c =>
      return ([], .compareBranch c.op (← operand c.lhs) (← operand c.rhs) thenBlock elseBlock)
    | none => return ([], .branch test thenBlock elseBlock)
  | .unreachable => return ([], .trap)

/-- Selects the code of a block. -/
def block (id : BlockId) (b : Flow.Block) : Select SelectedBlock := do
  b.body.forM fun line =>
    ReaderT.adapt (fun context => { context with span := line.span }) (instr line.instr)
  let (moves, control) ← terminator b.terminator
  let body := (← get).body
  modify fun s => { s with body := [] }
  return ⟨id, body, moves, control⟩

/-- The offset of each slot, and the size of the frame so far; an unused slot takes no space. -/
def layOutSlots (isUsed : SlotId → Bool) (id : SlotId) (offset : Nat) :
    List Slot → Select (List Nat × Nat)
  | [] => return ([], offset)
  | slot :: slots => do
    let next ← if isUsed id then after offset (← bytes slot.type.words) else pure offset
    let (offsets, size) ← layOutSlots isUsed (id + 1) next slots
    return (offset :: offsets, size)

/-- Selects the code of a function. -/
def function : Select SelectedFunction := do
  let f := (← read).function
  let instrs := f.blocks.flatMap (·.instrs)
  let used := instrs.flatMap fun i => i.readSlot?.toList ++ i.writtenSlot?.toList
  let (offsets, size) ← layOutSlots used.contains 0 0 f.slots
  modify fun s => { s with frameSize := size }
  let blocks ← ReaderT.adapt (fun context => { context with slots := offsets })
    (f.reversePostorder.mapM fun id => block id (f.block id))
  let state ← get
  return ⟨f.name, f.params, blocks, state.frameSize,
    f.varTypes.map registerWords ++ List.replicate state.temporaries 1⟩

end Select

/-- The code of a function on virtual registers, and the strings of the program so far. -/
def select (p : Program) (target : Target) (strings : List String) (f : Flow.Function) :
    Except CodegenError (SelectedFunction × List String) := do
  let context : SelectContext :=
    ⟨p, target, f, immediates f, fusedComparisons f, [], none⟩
  let (selected, state) ← (Select.function.run context).run ⟨0, 0, strings, []⟩
  return (selected, state.strings)

end FormCompiler.Machine
