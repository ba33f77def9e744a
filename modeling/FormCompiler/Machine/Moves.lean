import FormCompiler.Machine.Basic

/-!
# Simultaneous moves

The moves at the end of a block read all their sources before they write. `sequentialize` turns them
into instructions that run one after the other. A move can go next if no other move still reads its
destination. If there is none, all moves that are left lie on cycles: the value that the first of
them overwrites is put into a spare register, from which the others read it.
-/

namespace FormCompiler.Machine

/-- Where a value is kept. -/
inductive Location where
  | reg (r : Reg)
  /-- At an offset into the frame. -/
  | frame (offset : Nat)
deriving DecidableEq, Repr, Inhabited

/-- What is read at a location. -/
def Location.operand : Location → Operand Reg
  | reg r => .reg r
  | frame offset => .frame offset

/-- The move of a value of so many words. -/
structure Move where
  dst : Location
  source : Operand Reg
  words : Nat
deriving DecidableEq, Repr, Inhabited

namespace Move

/-- Whether a move changes nothing. -/
def isTrivial (m : Move) : Bool := m.source == m.dst.operand

/-- Whether a move reads a location. -/
def readsFrom (m : Move) (location : Location) : Bool := m.source == location.operand

/-- The move that reads a register if it read a location. -/
def redirect (location : Location) (r : Reg) (m : Move) : Move :=
  if m.readsFrom location then { m with source := .reg r } else m

/-- The instructions of a move; `via` carries a word from memory to memory. -/
def code (via : Reg) (m : Move) : List (Instr Reg) :=
  match m.dst, m.source with
  | .frame target, .frame offset =>
    if 1 < m.words then [.copy (.frame target) (.frame offset) m.words]
    else [.load via (.frame offset), .store (.frame target) (.reg via)]
  | .frame target, source =>
    if 1 < m.words then [.storeLanes (.frame target) source m.words]
    else [.store (.frame target) source]
  | .reg r, .frame offset =>
    if 1 < m.words then [.loadLanes r (.frame offset) m.words] else [.load r (.frame offset)]
  | .reg r, source => [.move r source]

end Move

/-- Whether no move reads the destination of a move. -/
def isReady (pending : List Move) (m : Move) : Bool :=
  !pending.any fun other => other.readsFrom m.dst

/-- The instructions of moves that all change something, in so many steps. -/
def sequence (park via : Reg) : Nat → List Move → List (Instr Reg)
  | 0, _ | _, [] => []
  | steps + 1, first :: rest =>
    let pending := first :: rest
    match pending.find? (isReady pending) with
    | some m => m.code via ++ sequence park via steps (pending.erase m)
    | none =>
      let parked : Move := ⟨.reg park, first.dst.operand, first.words⟩
      parked.code via ++ sequence park via steps (pending.map (Move.redirect first.dst park))

/--
The instructions that do what moves do at once; `park` and `via` are spare registers. Once a value has
been parked, a move can go next, so that twice as many steps as there are moves suffice.
-/
def sequentialize (park via : Reg) (moves : List Move) : List (Instr Reg) :=
  let pending := moves.filter fun m => !m.isTrivial
  sequence park via (2 * pending.length) pending

end FormCompiler.Machine
