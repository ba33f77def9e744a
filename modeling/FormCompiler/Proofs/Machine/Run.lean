import FormCompiler.Machine.Allocate
import Mathlib

/-!
# Running machine code

Code runs in a *world*: where its frame and the symbols are, what operators compute, and what the
functions that it calls answer. A run leaves a *trace* of the words that were loaded and stored, of
calls with the values of their arguments, of allocations and of bounds checks. Callees and the
allocator see the trace, so that their answers may depend on all that has happened.

The same instructions run on virtual registers and on those of a target. Only the ends of blocks
differ: a `SelectedBlock` moves values to the parameters of the next block at once, and a `Block` may
fall through to the block that follows it.

Some words of memory can be *hidden*: loading or storing them leaves no trace. The places of virtual
registers in the frame are hidden in this way.
-/

namespace FormCompiler.Machine

open FormCompiler.Flow

/-! ## Memory -/

/-- The bytes of memory. -/
abbrev Memory := Nat → UInt8

namespace Memory

/-- The word at an address, the lowest byte first. -/
def word (m : Memory) (a : Nat) : UInt64 :=
  UInt64.ofNat (((List.range wordBytes).map fun i => (m (a + i)).toNat * 256 ^ i).sum)

/-- The memory with a word stored at an address. -/
def setWord (m : Memory) (a : Nat) (w : UInt64) : Memory := fun x =>
  if a ≤ x ∧ x < a + wordBytes then UInt8.ofNat (w.toNat / 256 ^ (x - a)) else m x

/-- So many words from an address on. -/
def words (m : Memory) (a count : Nat) : List UInt64 :=
  (List.range count).map fun i => m.word (a + wordBytes * i)

/-- The memory with words stored from an address on. -/
def setWords (m : Memory) (a : Nat) : List UInt64 → Memory
  | [] => m
  | w :: ws => (m.setWord a w).setWords (a + wordBytes) ws

/-- The memory after some bytes have been written. -/
def overwrite (m : Memory) (bytes : Nat → Option UInt8) : Memory := fun x => (bytes x).getD (m x)

end Memory

/-! ## Events -/

/-- What a run shows. -/
inductive Event where
  | load (address : Nat) (value : UInt64)
  | store (address : Nat) (value : UInt64)
  /-- A call with the words of each argument. -/
  | call (callee : String) (convention : Convention) (args : List (List UInt64))
  | alloc (size : UInt64)
  | free (pointer : UInt64)
  | check (index : UInt64) (length : Nat)
deriving DecidableEq

/-- Whether an event is seen if the words at some addresses are hidden. -/
def Event.isSeen (hidden : Nat → Bool) : Event → Bool
  | load a _ | store a _ => !hidden a
  | call .. | alloc _ | free _ | check .. => true

/-- The contents of a register, lane by lane. A number is in the first lane. -/
abbrev Lanes := Nat → UInt64

/-- The contents that consist of some words. -/
def lanesOf (ws : List UInt64) : Lanes := fun i => ws.getD i 0

/-- The contents of a register that has not been set to anything. -/
def Lanes.none : Lanes := lanesOf []

/-- The answer of a callee. -/
structure Reply where
  result : Lanes
  /-- The bytes of memory that the callee has written. -/
  writes : Nat → Option UInt8

/-- What surrounds the code of a function. -/
structure World where
  /-- The address of the frame. -/
  frame : Nat
  /-- The address of a global constant or of the text of a string. -/
  symbol : String → Nat
  /-- The outcome of an operator; it traps if there is none. -/
  binary : BinaryOp → UInt64 → UInt64 → Option UInt64
  unary : UnaryOp → UInt64 → UInt64
  convert : ValueType → UInt64 → UInt64
  /-- The number of words that a callee takes for the argument at a position. -/
  argWords : String → Nat → Nat
  /-- The number of words of the result of the function. -/
  resultWords : Nat
  /-- The answer to the call that ends the trace. -/
  reply : List Event → Reply
  /-- The address of the allocation that ends the trace. -/
  pointer : List Event → UInt64

/-! ## Instructions -/

/-- Memory, and what has been seen so far. -/
structure Store where
  memory : Memory
  trace : List Event

/-- The loads of so many words. -/
def loadEvents (m : Memory) (a count : Nat) : List Event :=
  (List.range count).map fun i => .load (a + wordBytes * i) (m.word (a + wordBytes * i))

/-- The stores of some words. -/
def storeEvents (a : Nat) : List UInt64 → List Event
  | [] => []
  | w :: ws => .store a w :: storeEvents (a + wordBytes) ws

namespace Store

/-- Adds what is seen of some events. -/
def log (hidden : Nat → Bool) (s : Store) (events : List Event) : Store :=
  { s with trace := s.trace ++ events.filter (·.isSeen hidden) }

/-- Loads so many words. -/
def read (hidden : Nat → Bool) (s : Store) (a count : Nat) : List UInt64 × Store :=
  (s.memory.words a count, s.log hidden (loadEvents s.memory a count))

/-- Stores some words. -/
def write (hidden : Nat → Bool) (s : Store) (a : Nat) (ws : List UInt64) : Store :=
  { s.log hidden (storeEvents a ws) with memory := s.memory.setWords a ws }

end Store

/-- The contents of an operand. -/
def Operand.lanes (W : World) (m : Memory) (regs : ρ → Lanes) : Operand ρ → Lanes
  | reg r => regs r
  | imm n => lanesOf [UInt64.ofInt n]
  | float bits => lanesOf [bits]
  | frame offset => fun i => m.word (W.frame + offset + wordBytes * i)

/-- The word that an operand is. -/
def Operand.word (W : World) (m : Memory) (regs : ρ → Lanes) (x : Operand ρ) : UInt64 :=
  x.lanes W m regs 0

/-- The address in memory. -/
def Address.place (W : World) (regs : ρ → Lanes) : Address ρ → Nat
  | frame offset => W.frame + offset
  | element base index scale => W.frame + base + (regs index 0).toNat * scale
  | based base offset => (regs base 0).toNat + offset
  | symbol name => W.symbol name

/-- The words that a callee takes for its arguments. -/
def argValues (W : World) (m : Memory) (regs : ρ → Lanes) (callee : String)
    (args : List (Operand ρ)) : List (List UInt64) :=
  args.zipIdx.map fun (arg, i) =>
    (List.range (W.argWords callee i)).map (arg.lanes W m regs)

/-- What an instruction computes and does to memory, or the trace at which it traps. -/
def Instr.act (W : World) (hidden : Nat → Bool) (regs : ρ → Lanes) (s : Store) :
    Instr ρ → Except (List Event) (Lanes × Store)
  | move _ source => .ok (source.lanes W s.memory regs, s)
  | binary op _ lhs rhs =>
    match W.binary op (lhs.word W s.memory regs) (rhs.word W s.memory regs) with
    | some w => .ok (lanesOf [w], s)
    | none => .error s.trace
  | unary op _ source => .ok (lanesOf [W.unary op (source.word W s.memory regs)], s)
  | convert _ source type => .ok (lanesOf [W.convert type (source.word W s.memory regs)], s)
  | load _ address =>
    let (ws, s) := s.read hidden (address.place W regs) 1
    .ok (lanesOf ws, s)
  | store address source =>
    .ok (Lanes.none, s.write hidden (address.place W regs) [source.word W s.memory regs])
  | locate _ address => .ok (lanesOf [UInt64.ofNat (address.place W regs)], s)
  | copy dst source words =>
    let (ws, s) := s.read hidden (source.place W regs) words
    .ok (Lanes.none, s.write hidden (dst.place W regs) ws)
  | check index length =>
    let w := index.word W s.memory regs
    let s := s.log hidden [.check w length]
    if w.toNat < twoPow 63 ∧ w.toNat < length then .ok (Lanes.none, s) else .error s.trace
  | call callee convention args _ =>
    let s := s.log hidden [.call callee convention (argValues W s.memory regs callee args)]
    let reply := W.reply s.trace
    .ok (reply.result, { s with memory := s.memory.overwrite reply.writes })
  | alloc _ size =>
    let s := s.log hidden [.alloc (size.word W s.memory regs)]
    .ok (lanesOf [W.pointer s.trace], s)
  | free pointer => .ok (Lanes.none, s.log hidden [.free (regs pointer 0)])
  | loadLanes _ address width =>
    let (ws, s) := s.read hidden (address.place W regs) width
    .ok (lanesOf ws, s)
  | storeLanes address source width =>
    .ok (Lanes.none,
      s.write hidden (address.place W regs)
        ((List.range width).map (source.lanes W s.memory regs)))
  | binaryLanes op _ lhs rhs width =>
    match (List.range width).mapM fun i => W.binary op (regs lhs i) (regs rhs i) with
    | some ws => .ok (lanesOf ws, s)
    | none => .error s.trace

/-- The state of a run. -/
structure State (ρ : Type) where
  regs : ρ → Lanes
  store : Store

section

variable [DecidableEq ρ]

/-- The registers after one of them may have been set. -/
def setReg (regs : ρ → Lanes) (dst : Option ρ) (value : Lanes) : ρ → Lanes := fun r =>
  if dst = some r then value else regs r

/-- Runs an instruction. -/
def Instr.run (W : World) (hidden : Nat → Bool) (i : Instr ρ) (s : State ρ) :
    Except (List Event) (State ρ) := do
  let (value, after) ← i.act W hidden s.regs s.store
  return ⟨setReg s.regs i.def? value, after⟩

/-- Runs instructions one after the other. -/
def runAll (W : World) (hidden : Nat → Bool) : List (Instr ρ) → State ρ →
    Except (List Event) (State ρ)
  | [], s => .ok s
  | i :: rest, s => i.run W hidden s >>= runAll W hidden rest

end

/-! ## Blocks -/

/-- What comes after a block. -/
inductive Next where
  | goto (b : BlockId)
  | done (value : Option (List UInt64))
deriving DecidableEq

/-- Where control goes, or the trace at which it traps. -/
def Control.next (W : World) (s : State ρ) : Control ρ → Except (List Event) Next
  | jump target => .ok (.goto target)
  | branch test thenBlock elseBlock =>
    .ok (.goto (if s.regs test 0 ≠ 0 then thenBlock else elseBlock))
  | compareBranch op lhs rhs thenBlock elseBlock =>
    match W.binary op (lhs.word W s.store.memory s.regs) (rhs.word W s.store.memory s.regs) with
    | some w => .ok (.goto (if w ≠ 0 then thenBlock else elseBlock))
    | none => .error s.store.trace
  | ret none => .ok (.done none)
  | ret (some value) =>
    .ok (.done (some ((List.range W.resultWords).map (value.lanes W s.store.memory s.regs))))
  | trap => .error s.store.trace

/-- Gives registers values that are all read before. -/
def moveAll (W : World) (moves : List (VReg × Operand VReg)) (s : State VReg) : State VReg :=
  { s with
    regs := fun v =>
      match moves.lookup v with
      | some source => source.lanes W s.store.memory s.regs
      | none => s.regs v }

/-- Runs a block on virtual registers, of which nothing is hidden. -/
def SelectedBlock.run (W : World) (b : SelectedBlock) (s : State VReg) :
    Except (List Event) (State VReg × Next) := do
  let s ← runAll W (fun _ => false) b.body s
  let s := moveAll W b.moves s
  let next ← b.control.next W s
  return (s, next)

/-- Runs a block of machine code; `follower` is the block after it. -/
def Block.run (W : World) (hidden : Nat → Bool) (follower : Option BlockId) (b : Block)
    (s : State Reg) : Except (List Event) (State Reg × Option Next) := do
  let s ← runAll W hidden b.body s
  match b.control with
  | some control =>
    let next ← control.next W s
    return (s, some next)
  | none => return (s, follower.map .goto)

/-! ## Functions -/

/-- How a run ends. -/
inductive Outcome where
  | returned (value : Option (List UInt64))
  | trapped
  /-- There was no block to go on with. -/
  | lost
  /-- The run goes on with a block. -/
  | running (b : BlockId)
deriving DecidableEq

/-- Runs so many blocks from a block on. -/
def SelectedFunction.runFrom (W : World) (f : SelectedFunction) :
    Nat → BlockId → State VReg → List Event × Outcome
  | 0, id, s => (s.store.trace, .running id)
  | count + 1, id, s =>
    match f.blocks.find? (·.id == id) with
    | none => (s.store.trace, .lost)
    | some b =>
      match b.run W s with
      | .error trace => (trace, .trapped)
      | .ok (s, .done value) => (s.store.trace, .returned value)
      | .ok (s, .goto next) => f.runFrom W count next s

/-- Runs so many blocks from the first one on, with arguments, and with what memory and the other
registers hold. -/
def SelectedFunction.run (W : World) (f : SelectedFunction) (count : Nat)
    (args : List (List UInt64)) (memory : Memory) (regs : VReg → Lanes) : List Event × Outcome :=
  match f.blocks with
  | [] => ([], .lost)
  | first :: _ =>
    let regs := fun v =>
      match (f.params.zip args).lookup v with
      | some arg => lanesOf arg
      | none => regs v
    f.runFrom W count first.id ⟨regs, ⟨memory, []⟩⟩

/-- Runs so many blocks from a block on. -/
def Function.runFrom (W : World) (hidden : Nat → Bool) (f : Function) :
    Nat → BlockId → State Reg → List Event × Outcome
  | 0, id, s => (s.store.trace, .running id)
  | count + 1, id, s =>
    match f.blocks.dropWhile (·.id != id) with
    | [] => (s.store.trace, .lost)
    | b :: rest =>
      match b.run W hidden (rest.head?.map (·.id)) s with
      | .error trace => (trace, .trapped)
      | .ok (s, some (.done value)) => (s.store.trace, .returned value)
      | .ok (s, some (.goto next)) => f.runFrom W hidden count next s
      | .ok (s, none) => (s.store.trace, .lost)

/-- The state after an argument has been put where a parameter arrives. -/
def State.receive (W : World) (s : State Reg) : Operand Reg × List UInt64 → State Reg
  | (.reg r, arg) => { s with regs := setReg s.regs (some r) (lanesOf arg) }
  | (.frame offset, arg) =>
    { s with
      store := { s.store with memory := s.store.memory.setWords (W.frame + offset) arg } }
  | _ => s

/-- Runs so many blocks from the first one on, with arguments, and with what memory and registers
hold otherwise. -/
def Function.run (W : World) (hidden : Nat → Bool) (f : Function) (count : Nat)
    (args : List (List UInt64)) (memory : Memory) (regs : Reg → Lanes) : List Event × Outcome :=
  match f.blocks with
  | [] => ([], .lost)
  | first :: _ =>
    f.runFrom W hidden count first.id
      ((f.params.zip args).foldl (State.receive W) ⟨regs, ⟨memory, []⟩⟩)

/-! ## Places in memory -/

/-- A range of addresses. -/
structure Area where
  start : Nat
  stop : Nat

namespace Area

/-- Whether the word at an address lies in an area. -/
def hides (area : Area) (a : Nat) : Bool := area.start ≤ a && a + wordBytes ≤ area.stop

/-- No byte of the word at an address lies in an area. -/
def Misses (area : Area) (a : Nat) : Prop :=
  ∀ x, a ≤ x → x < a + wordBytes → ¬(area.start ≤ x ∧ x < area.stop)

end Area

/-- An event does not load or store any byte of an area. -/
def Event.Avoids (area : Area) : Event → Prop
  | load a _ | store a _ => area.Misses a
  | call .. | alloc _ | free _ | check .. => True

end FormCompiler.Machine
