import FormCompiler.Machine.Basic

/-!
# Liveness

A virtual register is *live* at a place if control can go from there to an instruction that reads it
without passing one that writes it. `liveIn` and `liveOut` say which registers are live at the start
and at the end of each block.

Each `sweep` looks at all blocks, at the last one first. What it finds at a block is at once known to
the blocks that are looked at after it, and the sweeps end when one of them finds nothing new.
-/

namespace FormCompiler.Machine

open FormCompiler.Flow

/-- The registers of two ascending lists, ascending. -/
def unite (a b : List VReg) : List VReg := (a.merge b).eraseReps

/-- What a block does to registers. -/
structure Effects where
  /-- The registers that are read before they are written. -/
  reads : List VReg
  writes : List VReg
deriving DecidableEq, Repr, Inhabited

/-- The effects after a step that reads registers and then writes registers. -/
def Effects.step (e : Effects) (uses defs : List VReg) : Effects :=
  ⟨e.reads ++ uses.filter (fun v => !e.writes.contains v), e.writes ++ defs⟩

/-- The registers that the moves of a block read. -/
def moveUses (moves : List (VReg × Operand VReg)) : List VReg :=
  moves.filterMap fun (_, source) => source.reg?

/-- What a block does to registers. -/
def SelectedBlock.effects (b : SelectedBlock) : Effects :=
  let body : Effects :=
    b.body.foldl (fun e instr => e.step instr.uses instr.def?.toList) ⟨[], []⟩
  let moved := body.step (moveUses b.moves) (b.moves.map (·.1))
  moved.step b.control.uses []

/-- A block as liveness sees it. -/
structure LiveBlock where
  /-- The registers that are read before they are written, ascending. -/
  reads : List VReg
  writes : List VReg
  /-- The positions of the blocks to which control may go. -/
  successors : List Nat
deriving DecidableEq, Repr, Inhabited

/-- The blocks of a function as liveness sees them. -/
def liveBlocks (blocks : List SelectedBlock) : List LiveBlock :=
  let ids := blocks.map (·.id)
  blocks.map fun b =>
    let effects := b.effects
    ⟨effects.reads.mergeSort.eraseReps, effects.writes, b.control.successors.map ids.idxOf⟩

/-- The registers that are live at the bounds of a block. -/
structure Liveness where
  liveIn : List VReg
  liveOut : List VReg
deriving DecidableEq, Repr, Inhabited

/-- The registers that are live at the end of a block, given what is known of all blocks. -/
def LiveBlock.liveOut (b : LiveBlock) (table : Array Liveness) : List VReg :=
  b.successors.foldl (fun live position => unite live (table.getD position default).liveIn) []

/-- The registers that are live at the bounds of a block, given what is known of all blocks. -/
def LiveBlock.liveness (b : LiveBlock) (table : Array Liveness) : Liveness :=
  let liveOut := b.liveOut table
  ⟨unite b.reads (liveOut.filter fun v => !b.writes.contains v), liveOut⟩

/-- Looks at the block at a position. -/
def visit (block : LiveBlock × Nat) (table : Array Liveness) : Array Liveness :=
  table.setIfInBounds block.2 (block.1.liveness table)

/-- Looks at all blocks, at the last one first. -/
def sweep (blocks : List LiveBlock) (table : Array Liveness) : Array Liveness :=
  blocks.zipIdx.foldr visit table

/-- Sweeps until nothing changes, at most so many times. -/
def settle (blocks : List LiveBlock) : Nat → Array Liveness → Array Liveness
  | 0, table => table
  | sweeps + 1, table =>
    let next := sweep blocks table
    if next = table then table else settle blocks sweeps next

/-- The liveness of each block. -/
def liveness (blocks : List SelectedBlock) : List Liveness :=
  let start := Array.replicate blocks.length default
  (settle (liveBlocks blocks) (blocks.length + 1) start).toList

end FormCompiler.Machine
