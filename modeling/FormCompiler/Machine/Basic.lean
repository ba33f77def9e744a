import FormCompiler.Flow.Basic
import FormCompiler.Machine.Target

/-!
# Machine code

Instructions work on registers, immediate numbers and memory. The type of registers is a parameter:
instruction selection makes code on as many *virtual* registers as it likes, and allocation turns it
into code on the registers of the target.

Memory is addressed in bytes, mostly relative to the frame of the running function, and every value
takes whole words of eight bytes. An array or a tuple stays in memory; a register holds its address.

A block is left in two steps. First the *moves* give values to the parameters of the next block; all
of them read before any of them writes. Then the `Control` says where to go.
-/

namespace FormCompiler.Machine

open FormCompiler.Flow

/-- A virtual register. Those below the number of variables of a function stand for these. -/
abbrev VReg := Nat

/-- The number of bytes in a word. -/
def wordBytes : Nat := 8

/-! ## Instructions -/

/-- An operand that is read. -/
inductive Operand (ρ : Type) where
  | reg (r : ρ)
  | imm (value : Int)
  /-- A floating-point number, as the bits of a double. -/
  | float (bits : UInt64)
  /-- A word of the frame. Only moves and calls read operands from memory. -/
  | frame (offset : Nat)
deriving DecidableEq, Repr, Inhabited

/-- An address in memory. -/
inductive Address (ρ : Type) where
  | frame (offset : Nat)
  /-- The place of an array element in the frame. -/
  | element (base : Nat) (index : ρ) (scale : Nat)
  | based (base : ρ) (offset : Nat)
  /-- The place of a global constant or of the text of a string. -/
  | symbol (name : String)
deriving DecidableEq, Repr, Inhabited

/-- An instruction that does not transfer control, calls apart. -/
inductive Instr (ρ : Type) where
  | move (dst : ρ) (source : Operand ρ)
  | binary (op : BinaryOp) (dst : ρ) (lhs rhs : Operand ρ)
  | unary (op : UnaryOp) (dst : ρ) (source : Operand ρ)
  | convert (dst : ρ) (source : Operand ρ) (type : ValueType)
  | load (dst : ρ) (address : Address ρ)
  | store (address : Address ρ) (source : Operand ρ)
  /-- Computes an address. -/
  | locate (dst : ρ) (address : Address ρ)
  | copy (dst source : Address ρ) (words : Nat)
  /-- Traps unless the index is at least zero and less than the length. -/
  | check (index : Operand ρ) (length : Nat)
  /-- A call, which keeps all registers but that of the result. -/
  | call (callee : String) (convention : Convention) (args : List (Operand ρ)) (dst : Option ρ)
  | alloc (dst : ρ) (size : Operand ρ)
  | free (pointer : ρ)
  | loadLanes (dst : ρ) (address : Address ρ) (width : Nat)
  | storeLanes (address : Address ρ) (source : Operand ρ) (width : Nat)
  | binaryLanes (op : BinaryOp) (dst lhs rhs : ρ) (width : Nat)
deriving DecidableEq, Repr, Inhabited

/-- Where control goes at the end of a block. -/
inductive Control (ρ : Type) where
  | jump (target : BlockId)
  | branch (test : ρ) (thenBlock elseBlock : BlockId)
  /-- A comparison and the branch on its outcome. -/
  | compareBranch (op : BinaryOp) (lhs rhs : Operand ρ) (thenBlock elseBlock : BlockId)
  | ret (value : Option (Operand ρ))
  | trap
deriving DecidableEq, Repr, Inhabited

namespace Operand

/-- The register that an operand is. -/
def reg? : Operand ρ → Option ρ
  | reg r => some r
  | _ => none

/-- Whether an operand is a number. -/
def isImmediate : Operand ρ → Bool
  | imm _ | float _ => true
  | reg _ | frame _ => false

/-- The operand on other registers. -/
def map (f : ρ → σ) : Operand ρ → Operand σ
  | reg r => reg (f r)
  | imm n => imm n
  | float bits => float bits
  | frame offset => frame offset

end Operand

namespace Address

/-- The register that an address is computed from. -/
def reg? : Address ρ → Option ρ
  | element _ index _ => some index
  | based base _ => some base
  | frame _ | symbol _ => none

/-- The address computed from other registers. -/
def map (f : ρ → σ) : Address ρ → Address σ
  | frame offset => frame offset
  | element base index scale => element base (f index) scale
  | based base offset => based (f base) offset
  | symbol name => symbol name

end Address

namespace Instr

/-- The operands that a call reads where they are, in registers or in memory. -/
def args : Instr ρ → List (Operand ρ)
  | call _ _ args _ => args
  | _ => []

/-- The registers that an instruction reads, in the order of its operands, arguments apart. -/
def operandUses : Instr ρ → List ρ
  | move _ source | unary _ _ source | convert _ source _ | alloc _ source => source.reg?.toList
  | binary _ _ lhs rhs => lhs.reg?.toList ++ rhs.reg?.toList
  | load _ address | locate _ address | loadLanes _ address _ => address.reg?.toList
  | store address source | storeLanes address source _ =>
    address.reg?.toList ++ source.reg?.toList
  | copy dst source _ => source.reg?.toList ++ dst.reg?.toList
  | check index _ => index.reg?.toList
  | call .. => []
  | free pointer => [pointer]
  | binaryLanes _ _ lhs rhs _ => [lhs, rhs]

/-- The registers that an instruction reads. -/
def uses (instr : Instr ρ) : List ρ := instr.operandUses ++ instr.args.filterMap Operand.reg?

/-- The register that an instruction writes. -/
def def? : Instr ρ → Option ρ
  | move dst _ | binary _ dst _ _ | unary _ dst _ | convert dst _ _ | load dst _ | locate dst _
  | alloc dst _ | loadLanes dst _ _ | binaryLanes _ dst _ _ _ => some dst
  | call _ _ _ dst => dst
  | store .. | copy .. | check .. | free _ | storeLanes .. => none

/-- The instruction on other registers: those it reads, its arguments, and the one it writes. -/
def map (read : ρ → σ) (arg : Operand ρ → Operand σ) (write : ρ → σ) : Instr ρ → Instr σ
  | move dst source => move (write dst) (source.map read)
  | binary op dst lhs rhs => binary op (write dst) (lhs.map read) (rhs.map read)
  | unary op dst source => unary op (write dst) (source.map read)
  | convert dst source type => convert (write dst) (source.map read) type
  | load dst address => load (write dst) (address.map read)
  | store address source => store (address.map read) (source.map read)
  | locate dst address => locate (write dst) (address.map read)
  | copy dst source words => copy (dst.map read) (source.map read) words
  | check index length => check (index.map read) length
  | call callee convention args dst => call callee convention (args.map arg) (dst.map write)
  | alloc dst size => alloc (write dst) (size.map read)
  | free pointer => free (read pointer)
  | loadLanes dst address width => loadLanes (write dst) (address.map read) width
  | storeLanes address source width => storeLanes (address.map read) (source.map read) width
  | binaryLanes op dst lhs rhs width => binaryLanes op (write dst) (read lhs) (read rhs) width

end Instr

namespace Control

/-- The registers that are read to decide where to go, in the order of the operands. -/
def uses : Control ρ → List ρ
  | branch test _ _ => [test]
  | compareBranch _ lhs rhs _ _ => lhs.reg?.toList ++ rhs.reg?.toList
  | ret (some value) => value.reg?.toList
  | jump _ | ret none | trap => []

/-- The blocks to which control may go. -/
def successors : Control ρ → List BlockId
  | jump target => [target]
  | branch _ thenBlock elseBlock | compareBranch _ _ _ thenBlock elseBlock =>
    [thenBlock, elseBlock]
  | ret _ | trap => []

/-- The control on other registers. -/
def map (read : ρ → σ) : Control ρ → Control σ
  | jump target => jump target
  | branch test thenBlock elseBlock => branch (read test) thenBlock elseBlock
  | compareBranch op lhs rhs thenBlock elseBlock =>
    compareBranch op (lhs.map read) (rhs.map read) thenBlock elseBlock
  | ret value => ret (value.map (·.map read))
  | trap => trap

end Control

/-! ## Code on virtual registers -/

/-- A block on virtual registers. -/
structure SelectedBlock where
  id : BlockId
  body : List (Instr VReg)
  /-- What the parameters of the next block become. -/
  moves : List (VReg × Operand VReg)
  control : Control VReg
deriving DecidableEq, Repr, Inhabited

/-- A function on virtual registers. -/
structure SelectedFunction where
  name : String
  params : List VReg
  blocks : List SelectedBlock
  /-- The bytes of the frame that slots, arrays and tuples take. -/
  frameSize : Nat
  /-- The number of words in each virtual register. -/
  regWords : List Nat
deriving DecidableEq, Repr, Inhabited

/-- The number of words in a virtual register. -/
def SelectedFunction.words (f : SelectedFunction) (v : VReg) : Nat := f.regWords.getD v 1

/-! ## Code on the registers of a target -/

/-- A block of machine code. -/
structure Block where
  id : BlockId
  body : List (Instr Reg)
  /-- Where control goes; without it, to the block that follows. -/
  control : Option (Control Reg)
deriving DecidableEq, Repr, Inhabited

/-- The number of instructions of a block. -/
def Block.size (b : Block) : Nat := b.body.length + b.control.toList.length

/-- A function in machine code. -/
structure Function where
  name : String
  /-- Where each parameter arrives: in a register or in the frame. -/
  params : List (Operand Reg)
  blocks : List Block
  frameSize : Nat
  /-- The number of virtual registers that are kept in memory. -/
  spills : Nat
  /-- The number of registers that are given to virtual registers. -/
  registersUsed : Nat
deriving DecidableEq, Repr, Inhabited

/-- The number of instructions of a function. -/
def Function.size (f : Function) : Nat := total (f.blocks.map Block.size)

/-- What a symbol stands for. -/
inductive SymbolKind where
  | function
  /-- A global constant, with its value as it is written. -/
  | global (init : String)
  /-- The text of a string. -/
  | data (text : String)
  /-- Something that is defined elsewhere. -/
  | external (library : Option String)
deriving DecidableEq, Repr, Inhabited

/-- A symbol of an object. -/
structure Symbol where
  name : String
  kind : SymbolKind
deriving DecidableEq, Repr, Inhabited

/-- The machine code of a unit. -/
structure ObjectModule where
  name : String
  functions : List Function
  symbols : List Symbol
deriving DecidableEq, Repr, Inhabited

end FormCompiler.Machine
