import FormCompiler.Machine.Fault
import FormCompiler.Machine.Moves
import FormCompiler.Machine.Scan
import FormCompiler.Machine.Select

/-!
# Register allocation

`allocate` turns code on virtual registers into code on those of the target. A virtual register
without a register of its own is kept in the frame: it is loaded into a scratch register before an
instruction that reads it, and stored from one after an instruction that writes it. Arguments of
calls and parameters are read where they are.
-/

namespace FormCompiler.Machine

open FormCompiler.Flow

/-- Where the virtual registers of a function are kept. -/
structure Allocation where
  /-- The registers that are given to virtual registers. -/
  kept : List (VReg × Reg)
  /-- The frame offsets of the other virtual registers. -/
  spilled : List (VReg × Nat)
  /-- The number of words in each virtual register. -/
  regWords : List Nat
  /-- The two scratch registers. -/
  firstScratch : Reg
  secondScratch : Reg
deriving DecidableEq, Repr, Inhabited

namespace Allocation

/-- Where a virtual register is kept. -/
def location (a : Allocation) (v : VReg) : Location :=
  match a.kept.lookup v with
  | some r => .reg r
  | none => .frame ((a.spilled.lookup v).getD 0)

/-- The number of words in a virtual register. -/
def words (a : Allocation) (v : VReg) : Nat := a.regWords.getD v 1

/-- Whether a virtual register is kept in the frame. -/
def isSpilled (a : Allocation) (v : VReg) : Bool := (a.kept.lookup v).isNone

/-- The operand that is read where it is kept. -/
def inPlace (a : Allocation) : Operand VReg → Operand Reg
  | .reg v => (a.location v).operand
  | .imm n => .imm n
  | .float bits => .float bits
  | .frame offset => .frame offset

/-- Loads a value of so many words from the frame. -/
def reload (r : Reg) (offset words : Nat) : Instr Reg :=
  if 1 < words then .loadLanes r (.frame offset) words else .load r (.frame offset)

/-- Stores a value of so many words to the frame. -/
def spill (offset : Nat) (r : Reg) (words : Nat) : Instr Reg :=
  if 1 < words then .storeLanes (.frame offset) (.reg r) words else .store (.frame offset) (.reg r)

/-- The virtual registers that have to be loaded for an instruction, in the order of its operands. -/
def reloads (a : Allocation) (uses : List VReg) : List VReg :=
  (uses.filter a.isSpilled).eraseDups

/-- The register that a virtual register is read from, once others have been loaded for it. -/
def readFrom (a : Allocation) (reloads : List VReg) (v : VReg) : Reg :=
  match a.location v with
  | .reg r => r
  | .frame _ => if reloads.idxOf v = 0 then a.firstScratch else a.secondScratch

/-- The register that a virtual register is written to. -/
def writeTo (a : Allocation) (v : VReg) : Reg :=
  match a.location v with
  | .reg r => r
  | .frame _ => a.firstScratch

/-- The instructions that load virtual registers. -/
def reloadCode (a : Allocation) (reloads : List VReg) : List (Instr Reg) :=
  reloads.filterMap fun v =>
    match a.location v with
    | .reg _ => none
    | .frame offset => some (reload (a.readFrom reloads v) offset (a.words v))

/-- The instruction that stores a virtual register after it has been written. -/
def spillCode (a : Allocation) (v : VReg) : List (Instr Reg) :=
  match a.location v with
  | .reg _ => []
  | .frame offset => [spill offset (a.writeTo v) (a.words v)]

/-- The code of an instruction. -/
def instr (a : Allocation) (i : Instr VReg) : List (Instr Reg) :=
  let reloads := a.reloads i.operandUses
  a.reloadCode reloads ++ [i.map (a.readFrom reloads) a.inPlace a.writeTo] ++
    i.def?.toList.flatMap a.spillCode

/-- The code of the moves of a block. -/
def moves (a : Allocation) (moves : List (VReg × Operand VReg)) : List (Instr Reg) :=
  sequentialize a.firstScratch a.secondScratch
    (moves.map fun (v, source) => ⟨a.location v, a.inPlace source, a.words v⟩)

/-- The code of a block; it needs no jump to the block that follows it. -/
def block (a : Allocation) (next : Option BlockId) (b : SelectedBlock) : Block :=
  let reloads := a.reloads b.control.uses
  let body := b.body.flatMap a.instr ++ a.moves b.moves ++ a.reloadCode reloads
  let control := match b.control with
    | .jump target => if next = some target then none else some (.jump target)
    | control => some (control.map (a.readFrom reloads))
  ⟨b.id, body, control⟩

/-- The code of blocks in the order in which they are laid out. -/
def blocks (a : Allocation) : List SelectedBlock → List Block
  | [] => []
  | b :: rest => a.block (rest.head?.map (·.id)) b :: a.blocks rest

end Allocation

/-- Gives virtual registers places in the frame, from an offset on, and the end of these places. -/
def placeSpills (words : VReg → Nat) (offset : Nat) : List VReg → Option (List (VReg × Nat) × Nat)
  | [] => some ([], offset)
  | v :: rest => do
    let next := offset + min (words v * wordBytes) maxOffset
    guard (next ≤ maxOffset)
    let (places, size) ← placeSpills words next rest
    return ((v, offset) :: places, size)

/-- The code of a function on the registers of a target. -/
def allocate (target : Target) (f : SelectedFunction) : Except CodegenError Function := do
  let intervals := intervals f
  let kept := scan target.allocatable intervals
  let spilled := ((intervals.map (·.reg)).filter fun v => (kept.lookup v).isNone).mergeSort
  match placeSpills f.words f.frameSize spilled with
  | none => throw (.frameTooLarge f.name)
  | some (places, size) =>
    let a : Allocation := ⟨kept, places, f.regWords, target.firstScratch, target.secondScratch⟩
    return ⟨f.name, f.params.map fun v => (a.location v).operand, a.blocks f.blocks, size,
      spilled.length, (kept.map (·.2)).eraseDups.length⟩

end FormCompiler.Machine
