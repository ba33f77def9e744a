import FormCompiler.Flow.ValueType
import FormCompiler.Operator.Basic
import FormCompiler.Source.Span
import FormCompiler.Typing.Constant

/-!
# Flow graphs

A function is a graph of blocks. A block has parameters, instructions and a terminator, which says
where control goes next. Values are variables: each is defined once, by an instruction or as a block
parameter, and a jump passes one argument for each parameter of its target. The locals of the
program text live in slots, which instructions load from and store to.

Variables, blocks and slots are numbered from zero within a function. The type of a variable stands
in the table of the function, also if no definition of the variable is left.
-/

namespace FormCompiler.Flow

/-- A variable, by its position in the table of types. -/
abbrev VarId := Nat

/-- A block, by its position in the function. -/
abbrev BlockId := Nat

/-- A slot, by its position in the function. -/
abbrev SlotId := Nat

/-! ## Instructions -/

/-- A constant operand. -/
inductive Const where
  | int (value : Int)
  /-- A floating-point number, as the bits of a double. -/
  | float (bits : UInt64)
  | bool (value : Bool)
  | str (value : String)
deriving DecidableEq, Repr, Inhabited

namespace Const

/-- The value of an integer constant. -/
def int? : Const → Option Int
  | int n => some n
  | _ => none

/-- The value of a truth constant. -/
def bool? : Const → Option Bool
  | bool b => some b
  | _ => none

end Const

/-- What a variable is set to. Nothing here has an effect, but a division may trap. -/
inductive Value where
  | const (value : Const)
  | copy (source : VarId)
  | binary (op : BinaryOp) (lhs rhs : VarId)
  | unary (op : UnaryOp) (operand : VarId)
  /-- The conversion of a number to the type of the variable. -/
  | cast (source : VarId)
deriving DecidableEq, Repr, Inhabited

/-- How a function is called. -/
inductive Convention where
  | native
  /-- As a function of the named foreign library. -/
  | foreign (library : String)
deriving DecidableEq, Repr, Inhabited

/-- An instruction. -/
inductive Instr where
  | set (dst : VarId) (value : Value)
  /-- A call; there is no destination if the callee has no result. -/
  | call (dst : Option VarId) (callee : String) (args : List VarId) (convention : Convention)
      (isTail : Bool)
  | load (dst : VarId) (slot : SlotId)
  | store (slot : SlotId) (value : VarId)
  | loadGlobal (dst : VarId) (name : String)
  | loadElement (dst : VarId) (slot : SlotId) (index : VarId)
  | storeElement (slot : SlotId) (index value : VarId)
  /-- Traps unless the index is at least zero and less than the length. -/
  | boundsCheck (index : VarId) (length : Nat)
  | makeArray (dst : VarId) (elements : List VarId)
  | makeTuple (dst : VarId) (elements : List VarId)
  | extract (dst tuple : VarId) (index : Nat)
  | alloc (dst size : VarId)
  | free (pointer : VarId)
  /-- The release of an allocation when its scope is left. -/
  | release (pointer : VarId)
  /-- Loads as many elements as the destination has lanes, from a position on. -/
  | loadLanes (dst : VarId) (slot : SlotId) (start : Nat)
  | storeLanes (slot : SlotId) (start : Nat) (value : VarId)
  | binaryLanes (dst : VarId) (op : BinaryOp) (lhs rhs : VarId)
deriving DecidableEq, Repr, Inhabited

namespace Value

/-- The variables that a value is computed from. -/
def uses : Value → List VarId
  | const _ => []
  | copy v | unary _ v | cast v => [v]
  | binary _ lhs rhs => [lhs, rhs]

/-- The value computed from other variables. -/
def mapUses (f : VarId → VarId) : Value → Value
  | const c => const c
  | copy v => copy (f v)
  | unary op v => unary op (f v)
  | cast v => cast (f v)
  | binary op lhs rhs => binary op (f lhs) (f rhs)

/-- Whether computing a value cannot trap. -/
def isPure : Value → Bool
  | binary op _ _ => !op.mayTrap
  | _ => true

end Value

namespace Instr

/-- The variable that an instruction defines. -/
def def? : Instr → Option VarId
  | set dst _ | load dst _ | loadGlobal dst _ | loadElement dst _ _ | makeArray dst _
  | makeTuple dst _ | extract dst _ _ | alloc dst _ | loadLanes dst _ _
  | binaryLanes dst _ _ _ => some dst
  | call dst _ _ _ _ => dst
  | store .. | storeElement .. | boundsCheck .. | free _ | release _ | storeLanes .. => none

/-- The variables that an instruction reads, in the order of its operands. -/
def uses : Instr → List VarId
  | set _ value => value.uses
  | call _ _ args _ _ => args
  | makeArray _ elements | makeTuple _ elements => elements
  | load .. | loadGlobal .. | loadLanes .. => []
  | store _ value | storeLanes _ _ value => [value]
  | loadElement _ _ index | boundsCheck index _ => [index]
  | storeElement _ index value => [index, value]
  | extract _ tuple _ => [tuple]
  | alloc _ size => [size]
  | free pointer | release pointer => [pointer]
  | binaryLanes _ _ lhs rhs => [lhs, rhs]

/-- The instruction that reads other variables. -/
def mapUses (f : VarId → VarId) : Instr → Instr
  | set dst value => set dst (value.mapUses f)
  | call dst callee args convention isTail => call dst callee (args.map f) convention isTail
  | makeArray dst elements => makeArray dst (elements.map f)
  | makeTuple dst elements => makeTuple dst (elements.map f)
  | load dst slot => load dst slot
  | loadGlobal dst name => loadGlobal dst name
  | loadLanes dst slot start => loadLanes dst slot start
  | store slot value => store slot (f value)
  | storeLanes slot start value => storeLanes slot start (f value)
  | loadElement dst slot index => loadElement dst slot (f index)
  | boundsCheck index length => boundsCheck (f index) length
  | storeElement slot index value => storeElement slot (f index) (f value)
  | extract dst tuple index => extract dst (f tuple) index
  | alloc dst size => alloc dst (f size)
  | free pointer => free (f pointer)
  | release pointer => release (f pointer)
  | binaryLanes dst op lhs rhs => binaryLanes dst op (f lhs) (f rhs)

/-- The instruction that defines another variable. -/
def mapDef (f : VarId → VarId) : Instr → Instr
  | set dst value => set (f dst) value
  | call dst callee args convention isTail => call (dst.map f) callee args convention isTail
  | makeArray dst elements => makeArray (f dst) elements
  | makeTuple dst elements => makeTuple (f dst) elements
  | load dst slot => load (f dst) slot
  | loadGlobal dst name => loadGlobal (f dst) name
  | loadLanes dst slot start => loadLanes (f dst) slot start
  | loadElement dst slot index => loadElement (f dst) slot index
  | extract dst tuple index => extract (f dst) tuple index
  | alloc dst size => alloc (f dst) size
  | binaryLanes dst op lhs rhs => binaryLanes (f dst) op lhs rhs
  | store slot value => store slot value
  | storeLanes slot start value => storeLanes slot start value
  | boundsCheck index length => boundsCheck index length
  | storeElement slot index value => storeElement slot index value
  | free pointer => free pointer
  | release pointer => release pointer

/-- The slot that an instruction reads. A store of some elements counts, as it keeps the others. -/
def readSlot? : Instr → Option SlotId
  | load _ slot | loadElement _ slot _ | loadLanes _ slot _ | storeElement slot _ _
  | storeLanes slot _ _ => some slot
  | _ => none

/-- The slot that an instruction writes. -/
def writtenSlot? : Instr → Option SlotId
  | store slot _ | storeElement slot _ _ | storeLanes slot _ _ => some slot
  | _ => none

/-- Whether an instruction has no effect and cannot trap, so that it may be dropped or moved. -/
def isPure : Instr → Bool
  | set _ value => value.isPure
  | binaryLanes _ op _ _ => !op.mayTrap
  | load .. | loadGlobal .. | loadElement .. | loadLanes .. | makeArray .. | makeTuple ..
  | extract .. => true
  | call .. | store .. | storeElement .. | boundsCheck .. | alloc .. | free _ | release _
  | storeLanes .. => false

/-- Whether an instruction is a call. -/
def isCall : Instr → Bool
  | call .. => true
  | _ => false

end Instr

/-- How control leaves a block. -/
inductive Terminator where
  | ret (value : Option VarId)
  | jump (target : BlockId) (args : List VarId)
  /-- The targets of a branch take no parameters. -/
  | branch (test : VarId) (thenBlock elseBlock : BlockId)
  | unreachable
deriving DecidableEq, Repr, Inhabited

namespace Terminator

/-- The blocks to which control may go. -/
def successors : Terminator → List BlockId
  | ret _ | unreachable => []
  | jump target _ => [target]
  | branch _ thenBlock elseBlock => [thenBlock, elseBlock]

/-- The variables that a terminator reads. -/
def uses : Terminator → List VarId
  | ret value => value.toList
  | jump _ args => args
  | branch test _ _ => [test]
  | unreachable => []

/-- The terminator that reads other variables. -/
def mapUses (f : VarId → VarId) : Terminator → Terminator
  | ret value => ret (value.map f)
  | jump target args => jump target (args.map f)
  | branch test thenBlock elseBlock => branch (f test) thenBlock elseBlock
  | unreachable => unreachable

/-- The terminator with other targets. -/
def mapTargets (f : BlockId → BlockId) : Terminator → Terminator
  | ret value => ret value
  | jump target args => jump (f target) args
  | branch test thenBlock elseBlock => branch test (f thenBlock) (f elseBlock)
  | unreachable => unreachable

end Terminator

/-! ## Functions -/

/-- An instruction with the text it was made from, if there is one. -/
structure Line where
  instr : Instr
  span : Option Span
deriving DecidableEq, Repr, Inhabited

/-- A block. -/
structure Block where
  params : List VarId
  body : List Line
  terminator : Terminator
deriving DecidableEq, Repr, Inhabited

namespace Block

/-- The block that does nothing and is never left. -/
def empty : Block := ⟨[], [], .unreachable⟩

/-- The instructions of a block. -/
def instrs (b : Block) : List Instr := b.body.map (·.instr)

/-- The variables that a block defines. -/
def defs (b : Block) : List VarId := b.params ++ b.instrs.filterMap Instr.def?

/-- The variables that a block reads, with repetitions. -/
def uses (b : Block) : List VarId := b.instrs.flatMap Instr.uses ++ b.terminator.uses

/-- The block with every instruction changed. -/
def mapInstrs (f : Instr → Instr) (b : Block) : Block :=
  { b with body := b.body.map fun line => { line with instr := f line.instr } }

/-- The block that reads other variables. -/
def mapUses (f : VarId → VarId) (b : Block) : Block :=
  { b.mapInstrs (Instr.mapUses f) with terminator := b.terminator.mapUses f }

end Block

/-- Memory for one local, or for a value that the compiler keeps. -/
structure Slot where
  name : Option String
  type : ValueType
deriving DecidableEq, Repr, Inhabited

/-- The counter of a counted loop, which runs while `counter cmp bound`. -/
structure Induction where
  slot : SlotId
  init : Int
  bound : Int
  step : Int
  cmp : BinaryOp
deriving DecidableEq, Repr, Inhabited

/-- The parts of a loop. -/
structure LoopInfo where
  /-- The block from which the loop is entered. -/
  preheader : BlockId
  header : BlockId
  /-- The block that jumps back to the header. -/
  latch : BlockId
  exit : BlockId
  /-- All blocks of the loop, with the header and the latch. -/
  blocks : List BlockId
  induction : Option Induction
deriving DecidableEq, Repr, Inhabited

/-- What is known of a function. -/
structure Flags where
  /-- The function calls itself in tail position. -/
  tailRecursive : Bool
  /-- The function is an instance of a generic one. -/
  genericInstance : Bool
  /-- The function holds the expressions outside of functions. -/
  topLevel : Bool
deriving DecidableEq, Repr, Inhabited

/-- No flag. -/
def Flags.none : Flags := ⟨false, false, false⟩

/-- A function. -/
structure Function where
  name : String
  /-- The parameters, which are those of the entry block. -/
  params : List VarId
  result : ValueType
  blocks : List Block
  entry : BlockId
  /-- The type of each variable. -/
  varTypes : List ValueType
  slots : List Slot
  loops : List LoopInfo
  flags : Flags
deriving DecidableEq, Repr, Inhabited

namespace Function

/-- The type of a variable. -/
def varType (f : Function) (v : VarId) : ValueType := f.varTypes.getD v .none

/-- The type of a slot. -/
def slotType (f : Function) (s : SlotId) : ValueType := ((f.slots[s]?).map (·.type)).getD .none

/-- A block. -/
def block (f : Function) (b : BlockId) : Block := f.blocks.getD b .empty

/-- The function with a block changed. -/
def modifyBlock (f : Function) (b : BlockId) (change : Block → Block) : Function :=
  { f with blocks := f.blocks.modify b change }

/-- The function with all blocks changed. -/
def mapBlocks (f : Function) (change : Block → Block) : Function :=
  { f with blocks := f.blocks.map change }

/-- The function with one more variable, and the variable. -/
def freshVar (f : Function) (type : ValueType) : VarId × Function :=
  (f.varTypes.length, { f with varTypes := f.varTypes ++ [type] })

/-- The number of instructions. -/
def instrCount (f : Function) : Nat := total (f.blocks.map (·.body.length))

/-- The called names, each with the block of the call. -/
def calls (f : Function) : List (BlockId × String) :=
  (f.blocks.zipIdx).flatMap fun (b, id) =>
    b.instrs.filterMap fun
      | .call _ callee _ _ _ => some (id, callee)
      | _ => none

end Function

/-- A global constant. -/
structure Global where
  name : String
  type : ValueType
  init : ConstValue
deriving Repr, Inhabited

/-- A function that is defined elsewhere. -/
structure ExternalSymbol where
  name : String
  /-- The foreign library; there is none for a function of another unit. -/
  library : Option String
  params : List ValueType
  result : ValueType
deriving DecidableEq, Repr, Inhabited

/-- The functions of a unit, and what they refer to. -/
structure Program where
  functions : List Function
  globals : List Global
  externals : List ExternalSymbol
deriving Repr, Inhabited

namespace Program

/-- A function by name. -/
def function? (p : Program) (name : String) : Option Function :=
  p.functions.find? (·.name == name)

/-- A global constant by name. -/
def global? (p : Program) (name : String) : Option Global := p.globals.find? (·.name == name)

/-- An external function by name. -/
def external? (p : Program) (name : String) : Option ExternalSymbol :=
  p.externals.find? (·.name == name)

end Program

/-! ## Counted loops

How often a counted loop runs, and what its counter is in each round.
-/

namespace Induction

/-- An unsigned 64-bit number. -/
def unsigned? (n : Int) : Option Nat := if 0 ≤ n ∧ n < twoPow 64 then some n.toNat else none

/-- The number of steps of a given size that a distance takes. -/
def steps? (distance magnitude : Int) : Option Nat :=
  if distance ≤ 0 then some 0 else unsigned? ((distance + magnitude - 1).tdiv magnitude)

/-- The number of rounds of a loop, if it ends and the number is an unsigned 64-bit one. -/
def tripCount? (i : Induction) : Option Nat :=
  if i.step = 0 then none
  else
    match i.cmp with
    | .lt => if 0 < i.step then steps? (i.bound - i.init) i.step else none
    | .le => if 0 < i.step then steps? (i.bound - i.init + 1) i.step else none
    | .gt => if i.step < 0 then steps? (i.init - i.bound) (-i.step) else none
    | .ge => if i.step < 0 then steps? (i.init - i.bound + 1) (-i.step) else none
    | .ne =>
      let distance := i.bound - i.init
      if distance.tmod i.step ≠ 0 then none else unsigned? (distance.tdiv i.step)
    | _ => none

/-- The counter at the start of a round, if it does not overflow. -/
def valueAt? (i : Induction) (round : Nat) : Option Int :=
  if round < twoPow 63 then
    (Word.checked? (i.step * round)).bind fun offset => Word.checked? (offset + i.init)
  else none

end Induction

end FormCompiler.Flow
