import FormCompiler.Flow.Verify
import FormCompiler.Optimize.Basic

/-!
# Vector instructions

Element stores of the form

    store $d[k + j], (op (index $a[k + j]) (index $b[k + j]))    for j from 0 to width - 1

in one block, with constant indices and `k` a multiple of the width, become instructions that work
on all lanes at once, at the place of the last store. The matched values may not be read elsewhere,
and nothing else between the first matched instruction and the last store may write one of the
slots or read `$d`.
-/

namespace FormCompiler.Flow

namespace Lanes

/-- One store of the form above, with the positions of its instructions. -/
structure Lane where
  op : BinaryOp
  lhs : SlotId
  rhs : SlotId
  value : VarId
  positions : List Nat
  indices : List VarId
deriving Repr, Inhabited

/-- Stores that can be done at once. -/
structure Group where
  op : BinaryOp
  element : ValueType
  lhs : SlotId
  rhs : SlotId
  dest : SlotId
  start : Nat
  /-- The positions of all instructions of the group. -/
  members : List Nat
  /-- The variables of the indices. -/
  indices : List VarId
  /-- The position of the last instruction of the group. -/
  last : Nat
  span : Option Span
deriving Repr, Inhabited

/-- What is looked up while a block is searched. -/
structure Scan where
  function : Function
  body : List Line
  constants : List (VarId × Const)

namespace Scan

/-- An instruction of the block. -/
def instr? (s : Scan) (position : Nat) : Option Instr := (s.body[position]?).map (·.instr)

/-- The constant index that a variable holds. -/
def index? (s : Scan) (v : VarId) : Option Nat := do
  let n ← (← s.constants.lookup v).int?
  if 0 ≤ n then return n.toNat else none

/-- Where in the block a variable is defined, if it is read only once. -/
def singleUse? (s : Scan) (v : VarId) : Option Nat :=
  if s.function.useCount v = 1 then s.body.findIdx? fun line => line.instr.def? == some v else none

/-- The slot, position and index of the element load that defines a variable. -/
def loadAt? (s : Scan) (v : VarId) (element : Nat) : Option (SlotId × Nat × VarId) := do
  let position ← s.singleUse? v
  match ← s.instr? position with
  | .loadElement _ slot index =>
    if (← s.index? index) = element then return (slot, position, index) else none
  | _ => none

/-- The store at a position, if it is of the right form for an element. -/
def lane? (s : Scan) (store element : Nat) : Option Lane := do
  match ← s.instr? store with
  | .storeElement _ index value =>
    if (← s.index? index) ≠ element then none
    else
      let position ← s.singleUse? value
      match ← s.instr? position with
      | .set _ (.binary op lhs rhs) =>
        let (lhsSlot, lhsPosition, lhsIndex) ← s.loadAt? lhs element
        let (rhsSlot, rhsPosition, rhsIndex) ← s.loadAt? rhs element
        return ⟨op, lhsSlot, rhsSlot, value, [store, position, lhsPosition, rhsPosition],
          [index, lhsIndex, rhsIndex]⟩
      | _ => none
  | _ => none

/-- The element type of the array in a slot, if it is of numbers and has the lanes. -/
def elementType? (s : Scan) (slot : SlotId) (start width : Nat) : Option ValueType := do
  let (element, length) ← (s.function.slotType slot).array?
  if element.isNumeric ∧ start + width ≤ length then return element else none

/-- The positions of the element stores to a slot, from a position on. -/
def storesFrom (s : Scan) (dest : SlotId) (position : Nat) : List Nat :=
  (List.range s.body.length).filter fun p =>
    position ≤ p &&
      match s.instr? p with
      | some (.storeElement slot _ _) => slot == dest
      | _ => false

/-- Whether an instruction may not stand between those of a group. -/
def interferes (lhs rhs dest : SlotId) (instr : Instr) : Bool :=
  instr.writtenSlot?.any [lhs, rhs, dest].contains || instr.readSlot? == some dest

/-- The group of the stores that start at a position. -/
def groupAt? (s : Scan) (width position : Nat) : Option Group := do
  match ← s.instr? position with
  | .storeElement dest index _ =>
    let start ← s.index? index
    let stores := (s.storesFrom dest position).take width
    if start % width ≠ 0 ∨ stores.length ≠ width then none
    else
      let lanes ← stores.zipIdx.mapM fun (store, j) => s.lane? store (start + j)
      let first ← lanes.head?
      let last ← stores.getLast?
      let element ← s.elementType? dest start width
      let uniform := lanes.all fun lane =>
        lane.op == first.op && lane.lhs == first.lhs && lane.rhs == first.rhs &&
          s.function.varType lane.value == element
      let members := (lanes.flatMap (·.positions)).eraseDups
      let isFree := (List.range (last + 1)).all fun p =>
        members.contains p || members.all (p < ·) ||
          !(s.instr? p).any (interferes first.lhs first.rhs dest)
      if uniform && Verify.isLaneWise first.op element &&
          s.elementType? first.lhs start width == some element &&
          s.elementType? first.rhs start width == some element && isFree then
        return ⟨first.op, element, first.lhs, first.rhs, dest, start, members,
          lanes.flatMap (·.indices), members.foldl max last, (s.body[last]?).bind (·.span)⟩
      else none
  | _ => none

/-- The first group of the block. -/
def firstGroup? (s : Scan) (width : Nat) : Option Group :=
  (List.range s.body.length).findSome? (s.groupAt? width)

end Scan

/-- The lines at positions that are not among some. -/
def dropPositions (positions : List Nat) (lines : List (Line × Nat)) : List Line :=
  (lines.filter fun (_, p) => !positions.contains p).map (·.1)

/-- Replaces a group by vector instructions. -/
def rewrite (f : Function) (id : BlockId) (g : Group) (width : Nat) : Function :=
  let vector := ValueType.vector g.element width
  let (lhs, f) := f.freshVar vector
  let (rhs, f) := f.freshVar vector
  let (result, f) := f.freshVar vector
  let lines : List Line :=
    [ ⟨.loadLanes lhs g.lhs g.start, g.span⟩, ⟨.loadLanes rhs g.rhs g.start, g.span⟩,
      ⟨.binaryLanes result g.op lhs rhs, g.span⟩, ⟨.storeLanes g.dest g.start result, g.span⟩ ]
  f.modifyBlock id fun b =>
    let numbered := b.body.zipIdx
    { b with
      body := dropPositions g.members (numbered.take (g.last + 1)) ++ lines ++
        dropPositions g.members (numbered.drop (g.last + 1)) }

/--
Replaces the groups of a block, at most so many. The answer is their number, the variables of their
indices and the function.
-/
def block (constants : List (VarId × Const)) (width : Nat) (id : BlockId) :
    Nat → Function → Nat × List VarId × Function
  | 0, f => (0, [], f)
  | bound + 1, f =>
    match Scan.firstGroup? ⟨f, (f.block id).body, constants⟩ width with
    | none => (0, [], f)
    | some g =>
      let (n, indices, f) := block constants width id bound (rewrite f id g width)
      (n + 1, g.indices ++ indices, f)

/-- Replaces the groups of blocks, taken in order. -/
def blocks (constants : List (VarId × Const)) (width : Nat) :
    List BlockId → Function → Nat × List VarId × Function
  | [], f => (0, [], f)
  | id :: rest, f =>
    let (m, indices, f) := block constants width id (f.block id).body.length f
    let (n, more, f) := blocks constants width rest f
    (m + n, indices ++ more, f)

/-- Drops constants that were only read as indices of groups. -/
def removeOrphans (orphans : List VarId) (f : Function) : Function :=
  (Pass.keepInstrs (fun
    | .set dst (.const _) => !orphans.contains dst || 0 < f.useCount dst
    | _ => true) f).2

end Lanes

/-- Uses vector instructions of a width. -/
def vectorize (width : Nat) : Pass := fun f =>
  if width < 2 then (0, f)
  else
    let (n, indices, f) := Lanes.blocks f.constants width (List.range f.blocks.length) f
    if n = 0 then (0, f) else (n, Lanes.removeOrphans indices f)

end FormCompiler.Flow
