import FormCompiler.Optimize.Basic

/-!
# Loop invariants

An instruction in a loop is moved in front of the loop if it gives the same value in every round: a
computation that cannot trap and reads nothing that the loop defines, or a load from a slot that the
loop does not write.
-/

namespace FormCompiler.Flow

namespace Hoist

/-- The variables that blocks define. -/
def definedIn (f : Function) (blocks : List BlockId) : List VarId :=
  blocks.flatMap fun id => (f.block id).defs

/-- The slots that blocks write. -/
def writtenIn (f : Function) (blocks : List BlockId) : List SlotId :=
  blocks.flatMap fun id => (f.block id).instrs.filterMap Instr.writtenSlot?

/-- Whether an instruction gives the same value in every round. -/
def isInvariant (defined : List VarId) (written : List SlotId) : Instr → Bool
  | .set dst value => (Instr.set dst value).isPure && value.uses.all fun v => !defined.contains v
  | .load _ slot => !written.contains slot
  | _ => false

/-- The first invariant instruction of blocks, by block and position. -/
def firstInvariant? (f : Function) (blocks : List BlockId) (defined : List VarId)
    (written : List SlotId) : Option (BlockId × Nat) :=
  blocks.findSome? fun id =>
    ((f.block id).body.findIdx? fun line => isInvariant defined written line.instr).map (id, ·)

/-- Moves an instruction to the end of another block. -/
def moveTo (f : Function) (target : BlockId) (id : BlockId) (position : Nat) : Function :=
  match (f.block id).body[position]? with
  | some line =>
    (f.modifyBlock id fun b => { b with body := b.body.eraseIdx position }).modifyBlock target
      fun b => { b with body := b.body ++ [line] }
  | none => f

/--
Moves invariant instructions in front of a loop. The first argument bounds their number, and
`defined` holds the variables that the loop defines.
-/
def fromLoop (l : LoopInfo) (written : List SlotId) : Nat → List VarId → Pass
  | 0, _, f => (0, f)
  | bound + 1, defined, f =>
    match firstInvariant? f l.blocks defined written with
    | none => (0, f)
    | some (id, position) =>
      let moved := ((f.block id).body[position]?).bind (·.instr.def?)
      let defined := defined.filter (some · != moved)
      let (n, f) := fromLoop l written bound defined (moveTo f l.preheader id position)
      (n + 1, f)

/-- Moves invariant instructions in front of a loop. -/
def loop (l : LoopInfo) : Pass := fun f =>
  fromLoop l (writtenIn f l.blocks) f.instrCount (definedIn f l.blocks) f

end Hoist

/-- Moves invariant instructions in front of loops, inner loops first. -/
def hoistInvariants : Pass := fun f => Pass.sequence (f.loops.map Hoist.loop) f

end FormCompiler.Flow
