import FormCompiler.Optimize.Basic

/-!
# Dead stores

A store of a whole slot is dropped if the same block stores to the slot again before anything reads
it, and any write to a slot is dropped if nothing in the function loads from the slot.
-/

namespace FormCompiler.Flow

namespace DeadStore

/-- The slot that an instruction loads from. -/
def loadedSlot? : Instr → Option SlotId
  | .load _ slot | .loadElement _ slot _ | .loadLanes _ slot _ => some slot
  | _ => none

/-- The slots that a function loads from. -/
def loadedSlots (f : Function) : List SlotId :=
  f.blocks.flatMap fun b => b.instrs.filterMap loadedSlot?

/-- The slots whose next access is a store of the whole slot, before an instruction. -/
def overwrittenBefore (overwritten : List SlotId) : Instr → List SlotId
  | .store slot _ => slot :: overwritten
  | instr =>
    match instr.readSlot? with
    | some slot => overwritten.filter (· != slot)
    | none => overwritten

/-- Whether an instruction is a store that is overwritten without a read. -/
def isOverwritten (overwritten : List SlotId) : Instr → Bool
  | .store slot _ => overwritten.contains slot
  | _ => false

/-- Whether an instruction writes to a slot that is never loaded from. -/
def isUnread (loaded : List SlotId) (instr : Instr) : Bool :=
  instr.writtenSlot?.any fun slot => !loaded.contains slot

/-- A body without its dead stores, and the slots whose next access is a whole store before it. -/
def body (loaded : List SlotId) : List Line → List SlotId × List Line
  | [] => ([], [])
  | line :: rest =>
    let (overwritten, rest) := body loaded rest
    let isDead := isOverwritten overwritten line.instr || isUnread loaded line.instr
    (overwrittenBefore overwritten line.instr, if isDead then rest else line :: rest)

end DeadStore

/-- Drops dead stores. -/
def eliminateDeadStores : Pass := fun f =>
  let loaded := DeadStore.loadedSlots f
  Pass.onBlocks (fun b =>
    let body := (DeadStore.body loaded b.body).2
    (b.body.length - body.length, { b with body := body })) f

end FormCompiler.Flow
