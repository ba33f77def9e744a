import FormCompiler.Optimize.Basic
import FormCompiler.Optimize.Constant

/-!
# Constant folding

Ten rewrites that feed each other, repeated until none applies: operations on constants become
constants, copies and stored values are read directly, checks and branches that constants decide
are resolved, block parameters that only ever receive one variable go, blocks are joined, and what
is not reached or not read is dropped.
-/

namespace FormCompiler.Flow

namespace Fold

/-! ## Values -/

/-- The constant that a value is, given those of variables. -/
def value? (constants : List (VarId × Const)) (type : ValueType) : Value → Option Const
  | .const _ | .copy _ => none
  | .binary op lhs rhs => do
    let a ← constants.lookup lhs
    let b ← constants.lookup rhs
    Const.binary? op a b type
  | .unary op operand => do Const.unary? op (← constants.lookup operand) type
  | .cast source => do Const.cast? (← constants.lookup source) type

/-- Replaces operations on constants by their results. -/
def values : Pass := fun f =>
  let constants := f.constants
  Pass.replaceInstrs (fun
    | .set dst value => (value? constants (f.varType dst) value).map fun c => .set dst (.const c)
    | _ => none) f

/-! ## Copies and slots -/

/-- The variables that are copies, with what they are copies of. -/
def copiesOf (f : Function) : List (VarId × VarId) :=
  f.blocks.flatMap fun b => b.instrs.filterMap fun
    | .set dst (.copy source) => some (dst, source)
    | _ => none

/-- Reads the source of a copy in place of the copy. -/
def copies : Pass := fun f =>
  let copies := copiesOf f
  ((copies.filter fun (dst, _) => 0 < f.useCount dst).length, f.replaceUses copies)

/-- The variables whose values slots are known to hold. -/
abbrev Known := List (SlotId × VarId)

/-- What is known after an instruction; a load from a slot that is known becomes a copy. -/
def forwardInstr (known : Known) : Instr → Option Instr × Known
  | .store slot value => (none, (slot, value) :: known)
  | .load dst slot =>
    match known.lookup slot with
    | some value => (some (.set dst (.copy value)), known)
    | none => (none, (slot, dst) :: known)
  | instr =>
    match instr.writtenSlot? with
    | some slot => (none, known.filter (·.1 != slot))
    | none => (none, known)

/-- Replaces the loads of known values in a body; the answer says what is known after it. -/
def forwardBody (known : Known) : List Line → Nat × Known × List Line
  | [] => (0, known, [])
  | line :: rest =>
    let (replaced, known) := forwardInstr known line.instr
    let (count, known, rest) := forwardBody known rest
    match replaced with
    | some instr => (count + 1, known, { line with instr := instr } :: rest)
    | none => (count, known, line :: rest)

/-- What is known at the start of a block: what its only predecessor left behind. -/
def knownAtStart (f : Function) (exits : List (BlockId × Known)) (id : BlockId) : Known :=
  match f.predecessors id with
  | [p] => if id = f.entry then [] else (exits.lookup p).getD []
  | _ => []

/-- Replaces the loads of known values in blocks, taken in order. -/
def forwardBlocks (exits : List (BlockId × Known)) : List BlockId → Pass
  | [], f => (0, f)
  | id :: rest, f =>
    let (m, known, body) := forwardBody (knownAtStart f exits id) (f.block id).body
    let f := f.modifyBlock id fun b => { b with body := body }
    let (n, f) := forwardBlocks ((id, known) :: exits) rest f
    (m + n, f)

/-- Replaces loads from slots whose value is known. -/
def storedValues : Pass := fun f => forwardBlocks [] f.reversePostorder f

/-- The number of instructions that write a slot. -/
def writeCount (f : Function) (slot : SlotId) : Nat :=
  total (f.blocks.map fun b => b.instrs.countP (·.writtenSlot? == some slot))

/-- The slots that are written once, in the entry block and with a constant, and where. -/
def singleStores (f : Function) : List (SlotId × Nat × Const) :=
  let constants := f.constants
  (f.block f.entry).instrs.zipIdx.filterMap fun
    | (.store slot value, position) =>
      if writeCount f slot = 1 then (constants.lookup value).map (slot, position, ·) else none
    | _ => none

/-- The constant that a load gives; in the entry block it has to come after the store. -/
def singleStore? (stores : List (SlotId × Nat × Const)) (inEntry : Bool) (position : Nat) :
    Instr → Option Instr
  | .load dst slot =>
    match stores.lookup slot with
    | some (stored, c) =>
      if inEntry && position < stored then none else some (.set dst (.const c))
    | none => none
  | _ => none

/-- Replaces the loads in a block that give one constant only. -/
def singleStoredBlock (stores : List (SlotId × Nat × Const)) (inEntry : Bool) (b : Block) :
    Nat × Block :=
  let replaced := b.body.zipIdx.map fun (line, position) =>
    (line, singleStore? stores inEntry position line.instr)
  ((replaced.filter (·.2.isSome)).length,
    { b with body := replaced.map fun (line, new) => { line with instr := new.getD line.instr } })

/-- Replaces loads from slots that only ever hold one constant. -/
def singleStoredValues : Pass := fun f =>
  let stores := singleStores f
  let blocks := f.blocks.zipIdx.map fun (b, id) => singleStoredBlock stores (id == f.entry) b
  (total (blocks.map (·.1)), { f with blocks := blocks.map (·.2) })

/-! ## Checks and branches -/

/-- Whether a constant is an index below a length. -/
def isInBounds (length : Nat) : Option Const → Bool
  | some (.int n) => 0 ≤ n && n < length
  | _ => false

/-- Drops the checks of indices that are in range. -/
def boundsChecks : Pass := fun f =>
  let constants := f.constants
  Pass.keepInstrs (fun
    | .boundsCheck index length => !isInBounds length (constants.lookup index)
    | _ => true) f

/-- The target of a branch that is decided. -/
def decided? (constants : List (VarId × Const)) : Terminator → Option BlockId
  | .branch test thenBlock elseBlock =>
    match constants.lookup test with
    | some (.bool b) => some (if b then thenBlock else elseBlock)
    | _ => if thenBlock = elseBlock then some thenBlock else none
  | _ => none

/-- Replaces branches that are decided by jumps. -/
def branches : Pass := fun f =>
  let constants := f.constants
  Pass.onBlocks (fun b =>
    match decided? constants b.terminator with
    | some target => (1, { b with terminator := .jump target [] })
    | none => (0, b)) f

/-! ## Block parameters -/

/-- The arguments of all jumps to a block. -/
def incoming (f : Function) (id : BlockId) : List (List VarId) :=
  f.blocks.filterMap fun b =>
    match b.terminator with
    | .jump target args => if target = id then some args else none
    | _ => none

/-- The only variable other than itself that a parameter receives, defined outside its block. -/
def onlySource? (b : Block) (args : List (List VarId)) (position : Nat) (param : VarId) :
    Option VarId :=
  match (args.filterMap (·[position]?)).filter (· != param) with
  | [] => none
  | source :: rest =>
    if rest.all (· == source) && !b.defs.contains source then some source else none

/-- The parameters of a block that stand for other variables, with their positions. -/
def redundantParams (f : Function) (id : BlockId) : List (Nat × VarId × VarId) :=
  let b := f.block id
  if id = f.entry then []
  else
    b.params.zipIdx.filterMap fun (param, position) =>
      (onlySource? b (incoming f id) position param).map (position, param, ·)

/-- The variables whose positions are not among some. -/
def without (positions : List Nat) (vars : List VarId) : List VarId :=
  (vars.zipIdx.filter fun (_, position) => !positions.contains position).map (·.1)

/-- Drops the block parameters that stand for other variables. -/
def blockParams : Pass := fun f =>
  let redundant := (List.range f.blocks.length).map (redundantParams f)
  let positions (id : BlockId) : List Nat := (redundant.getD id []).map (·.1)
  let replaced := redundant.flatten.map (·.2)
  let blocks := f.blocks.zipIdx.map fun (b, id) =>
    { b with
      params := without (positions id) b.params
      terminator :=
        match b.terminator with
        | .jump target args => .jump target (without (positions target) args)
        | other => other }
  (replaced.length, { f with blocks := blocks }.replaceUses replaced)

/-! ## Blocks -/

/-- The blocks that loops name. -/
def loopRoles (f : Function) : List BlockId :=
  f.loops.flatMap fun l => [l.preheader, l.header, l.latch, l.exit]

/-- The block that can be joined to a block, which jumps to it and is its only predecessor. -/
def joinable? (f : Function) (id : BlockId) : Option BlockId :=
  match (f.block id).terminator with
  | .jump target [] =>
    if target ≠ id ∧ target ≠ f.entry ∧ !(loopRoles f).contains target ∧
        (f.predecessors target).length = 1 ∧ (f.block target).params.isEmpty then some target
    else none
  | _ => none

/-- Joins a block to the one that jumps to it. -/
def join (f : Function) (into source : BlockId) : Function :=
  let absorbed := f.block source
  (f.modifyBlock source fun _ => .empty).modifyBlock into fun b =>
    { b with body := b.body ++ absorbed.body, terminator := absorbed.terminator }

/-- Joins the first two blocks that can be joined. -/
def joinFirst : Pass := fun f =>
  let found := (List.range f.blocks.length).findSome? fun id => (joinable? f id).map (id, ·)
  match found with
  | some (into, source) => (1, join f into source)
  | none => (0, f)

/-- Joins blocks as long as possible; each joint uses up a jump. -/
def jumpChains : Pass := fun f => joinFirst.repeated f.blocks.length f

/-- Drops the instructions without effect whose results are not read. -/
def unreadOnce : Pass := fun f =>
  Pass.keepInstrs (fun i => !(i.isPure && i.def?.any fun dst => f.useCount dst = 0)) f

/-- Drops the instructions without effect whose results are not read, or only by such ones. -/
def unread : Pass := fun f => unreadOnce.repeated f.instrCount f

/-! ## All rewrites -/

/-- All rewrites, once. -/
def round : Pass :=
  Pass.sequence
    [ values, copies, storedValues, singleStoredValues, boundsChecks, branches, blockParams,
      jumpChains, Function.removeUnreachable, unread ]

/--
A bound on the number of rounds that change something. A load may become a copy and then be
dropped, an operation a constant; a copy may lose its reads and then go; each parameter, branch and
block goes once.
-/
def roundLimit (f : Function) : Nat :=
  3 * f.instrCount + total (f.blocks.map (·.params.length)) + 2 * f.blocks.length + 1

end Fold

/-- Folds and propagates constants until nothing changes. -/
def foldConstants : Pass := fun f => Fold.round.repeated (Fold.roundLimit f) f

end FormCompiler.Flow
