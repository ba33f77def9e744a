import FormCompiler.Machine.Liveness

/-!
# Which registers to keep values in

Instructions are numbered through all blocks, in the order in which the blocks are laid out. The
*interval* of a virtual register reaches from the first to the last position at which it occurs or
is live. Two virtual registers whose intervals have no position in common can share a register.

`scan` goes through the intervals by their start and gives each the lowest register that is free. If
none is free, one of the intervals that are being held or the new one has to do without a register:
the one that ends last.
-/

namespace FormCompiler.Machine

open FormCompiler.Flow

/-! ## Intervals -/

/-- The positions from the first to the last at which a virtual register is needed. -/
structure Interval where
  reg : VReg
  start : Nat
  stop : Nat
deriving DecidableEq, Repr, Inhabited

/-- The virtual registers that an instruction reads or writes. -/
def Instr.regs (instr : Instr VReg) : List VReg := instr.uses ++ instr.def?.toList

/-- The virtual registers at each position of a block. -/
def SelectedBlock.steps (b : SelectedBlock) : List (List VReg) :=
  b.body.map Instr.regs ++
    (if b.moves.isEmpty then [] else [moveUses b.moves ++ b.moves.map (·.1)]) ++
    [b.control.uses]

/-- Where virtual registers are needed in blocks, the first of which starts at a position. -/
def occurrencesFrom (position : Nat) : List (SelectedBlock × Liveness) → List (VReg × Nat)
  | [] => []
  | (b, live) :: rest =>
    let steps := b.steps
    let last := position + (steps.length - 1)
    (steps.zipIdx position).flatMap (fun (regs, i) => regs.map (·, i)) ++
      live.liveIn.map (·, position) ++ live.liveOut.map (·, last) ++
      occurrencesFrom (position + steps.length) rest

/-- Where the virtual registers of a function are needed. -/
def occurrences (f : SelectedFunction) : List (VReg × Nat) :=
  f.params.map (·, 0) ++ occurrencesFrom 0 (f.blocks.zip (liveness f.blocks))

/-- The bounds of the positions so far, and one more position. -/
def widen (bounds : Option (Nat × Nat)) (position : Nat) : Nat × Nat :=
  match bounds with
  | none => (position, position)
  | some (start, stop) => (min start position, max stop position)

/-- The bounds of the positions at which each of so many virtual registers is needed. -/
def hulls (count : Nat) (needed : List (VReg × Nat)) : Array (Option (Nat × Nat)) :=
  needed.foldl (fun table (v, position) => table.modify v fun b => some (widen b position))
    (Array.replicate count none)

/-- Whether an interval comes before another in the scan. -/
def Interval.before (i j : Interval) : Bool :=
  i.start < j.start || (i.start == j.start && i.reg ≤ j.reg)

/-- The intervals of a function, by their start. -/
def intervals (f : SelectedFunction) : List Interval :=
  let table := hulls f.regWords.length (occurrences f)
  let found := table.toList.zipIdx.filterMap fun (bounds, v) =>
    bounds.map fun (start, stop) => ⟨v, start, stop⟩
  found.mergeSort Interval.before

/-! ## The scan -/

/-- What the scan decides for a virtual register. -/
inductive Decision where
  | keep (r : Reg)
  /-- Keeps it in memory. -/
  | spill
deriving DecidableEq, Repr, Inhabited

/-- The register that is given away by a decision. -/
def Decision.reg? : Decision → Option Reg
  | keep r => some r
  | spill => none

/-- The state of the scan. -/
structure Scan where
  /-- The registers that no interval holds, lowest first. -/
  free : List Reg
  /-- The intervals that hold a register, with it. -/
  active : List (Interval × Reg)
  /-- The decisions about virtual registers. A later one, which comes first, takes an earlier one back. -/
  decisions : List (VReg × Decision)
deriving DecidableEq, Repr, Inhabited

/-- Adds a register to those that are free. -/
def release (r : Reg) : List Reg → List Reg
  | [] => [r]
  | q :: rest =>
    if r < q then r :: q :: rest
    else if r = q then q :: rest
    else q :: release r rest

/-- Frees the registers of the intervals that have ended when an interval starts. -/
def Scan.expire (s : Scan) (i : Interval) : Scan :=
  let (ended, active) := s.active.partition fun (j, _) => j.stop < i.start
  { s with free := ended.foldl (fun free (_, r) => release r free) s.free, active }

/-- Whether the interval of a holder ends after that of another one. -/
def endsAfter (a b : Interval × Reg) : Bool :=
  b.1.stop < a.1.stop || (b.1.stop == a.1.stop && b.1.reg < a.1.reg)

/-- The holder whose interval ends last, and its position. -/
def lastToEnd : List (Interval × Reg) → Option (Nat × Interval × Reg)
  | [] => none
  | holder :: rest =>
    match lastToEnd rest with
    | none => some (0, holder)
    | some (position, other) =>
      if endsAfter holder other then some (0, holder) else some (position + 1, other)

/-- Decides about the next interval, when those that have ended hold no register any more. -/
def Scan.place (s : Scan) (i : Interval) : Scan :=
  match s.free with
  | r :: free => ⟨free, s.active ++ [(i, r)], (i.reg, .keep r) :: s.decisions⟩
  | [] =>
    match lastToEnd s.active with
    | none => { s with decisions := (i.reg, .spill) :: s.decisions }
    | some (position, victim, r) =>
      if i.stop < victim.stop then
        { s with
          active := s.active.set position (i, r)
          decisions := (i.reg, .keep r) :: (victim.reg, .spill) :: s.decisions }
      else { s with decisions := (i.reg, .spill) :: s.decisions }

/-- Goes on to the next interval. -/
def Scan.step (s : Scan) (i : Interval) : Scan := (s.expire i).place i

/-- The decisions about the virtual registers of intervals that come by their start. -/
def linearScan (allocatable : List Reg) (intervals : List Interval) : List (VReg × Decision) :=
  (intervals.foldl Scan.step ⟨allocatable, [], []⟩).decisions

/-- The virtual registers that are given a register; the others are kept in memory. -/
def scan (allocatable : List Reg) (intervals : List Interval) : List (VReg × Reg) :=
  let decisions := linearScan allocatable intervals
  intervals.filterMap fun i => ((decisions.lookup i.reg).bind Decision.reg?).map (i.reg, ·)

end FormCompiler.Machine
