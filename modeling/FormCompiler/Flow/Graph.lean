import FormCompiler.Flow.Basic

/-!
# Paths through flow graphs

Which blocks control can reach, in which order a depth-first search finds them, and which blocks
every path to a block passes through. A block dominates another if the other cannot be reached
without it. A `DominatorTree` holds for each reachable block the last other one that dominates it:
what dominates a block are then the blocks on the way up from it.
-/

namespace FormCompiler.Flow

namespace Function

/-- The blocks that control may go to after a block. -/
def successors (f : Function) (b : BlockId) : List BlockId := (f.block b).terminator.successors

/-- The blocks that control may come from before a block, in increasing order. -/
def predecessors (f : Function) (b : BlockId) : List BlockId :=
  (List.range f.blocks.length).filter fun p => (f.successors p).contains b

/-! ## Depth-first search -/

/-- The state of a depth-first search. -/
structure Search where
  /-- The blocks that have been entered. -/
  seen : List BlockId
  /-- The blocks that have been left, the latest first. -/
  left : List BlockId
deriving Repr, Inhabited

/--
Searches from a block on. The first argument bounds the length of paths; no path enters more blocks
than there are.
-/
def visit (f : Function) : Nat → Search → BlockId → Search
  | 0, s, _ => s
  | bound + 1, s, b =>
    if s.seen.contains b then s
    else
      let s := (f.successors b).foldl (visit f bound) { s with seen := b :: s.seen }
      { s with left := b :: s.left }

/-- The blocks reached from the entry without entering some, in reverse postorder. -/
def reachedAvoiding (f : Function) (avoided : List BlockId) : List BlockId :=
  (f.visit (f.blocks.length + 1) ⟨avoided, []⟩ f.entry).left

/-- The reachable blocks, each before those that the search left earlier. -/
def reversePostorder (f : Function) : List BlockId := f.reachedAvoiding []

/-- The reachable blocks in the order in which the search leaves them. -/
def postorder (f : Function) : List BlockId := f.reversePostorder.reverse

/-- Whether control can reach a block. -/
def isReachable (f : Function) (b : BlockId) : Bool := f.reversePostorder.contains b

/-- Whether a block is on every path to another one. A block that is not reached has only itself. -/
def dominates (f : Function) (a b : BlockId) : Bool :=
  a == b || (f.isReachable b && !(f.reachedAvoiding [a]).contains b)

/-! ## Variables -/

/-- The number of times that a variable is read. -/
def useCount (f : Function) (v : VarId) : Nat := total (f.blocks.map fun b => b.uses.count v)

/-- Follows replacements from a variable on, at most so many. -/
def follow (replaced : List (VarId × VarId)) : Nat → VarId → VarId
  | 0, v => v
  | bound + 1, v =>
    match replaced.lookup v with
    | some next => if next = v then v else follow replaced bound next
    | none => v

/-- Reads other variables in place of some; one replacement may lead to another. -/
def replaceUses (f : Function) (replaced : List (VarId × VarId)) : Function :=
  f.mapBlocks (Block.mapUses (follow replaced replaced.length))

/-! ## Blocks -/

/-- The loop with its blocks renamed, if its main blocks are kept. -/
def renameLoop? (rename : BlockId → Option BlockId) (l : LoopInfo) : Option LoopInfo := do
  let preheader ← rename l.preheader
  let header ← rename l.header
  let latch ← rename l.latch
  let exit ← rename l.exit
  return ⟨preheader, header, latch, exit, l.blocks.filterMap rename, l.induction⟩

/--
Drops the blocks that are not kept and numbers the others anew, in order. No kept block may have a
dropped one as a successor. A loop that loses its preheader, header, latch or exit is forgotten.
-/
def keepBlocks (f : Function) (keep : BlockId → Bool) : Function :=
  let kept := (List.range f.blocks.length).filter keep
  let rename (b : BlockId) : Option BlockId := kept.idxOf? b
  { f with
    blocks := kept.map fun b =>
      let block := f.block b
      { block with terminator := block.terminator.mapTargets fun t => (rename t).getD t }
    entry := (rename f.entry).getD 0
    loops := f.loops.filterMap (renameLoop? rename) }

/-- Drops the blocks that are not kept, unless all are; the answer is their number. -/
def compact (f : Function) (keep : BlockId → Bool) : Nat × Function :=
  let dropped := ((List.range f.blocks.length).filter fun b => !keep b).length
  if dropped = 0 then (0, f) else (dropped, f.keepBlocks keep)

/-- Drops the blocks that are not reachable. -/
def removeUnreachable (f : Function) : Nat × Function :=
  let reached := f.reversePostorder
  f.compact reached.contains

end Function

/-! ## Dominator trees -/

/--
For each block that has been placed, the block above it; the entry is above itself. Blocks are placed
in the order of a search, so that the way up from a block goes to ever earlier blocks.
-/
structure DominatorTree where
  parents : List (Option BlockId)
deriving DecidableEq, Repr, Inhabited

namespace DominatorTree

/-- The block above a block, if that has been placed. -/
def parent? (t : DominatorTree) (b : BlockId) : Option BlockId := t.parents.getD b none

/-- Puts a block below another one. -/
def place (t : DominatorTree) (b parent : BlockId) : DominatorTree := ⟨t.parents.set b (some parent)⟩

/-- More steps than there can be on the way up from a block. -/
def bound (t : DominatorTree) : Nat := t.parents.length + 1

/--
Goes up from a block to the first one that is not later than `limit`. There is no answer if that takes
as many steps as given, or more.
-/
def climb (t : DominatorTree) (rank : BlockId → Nat) (limit : BlockId) : Nat → BlockId → Option BlockId
  | 0, _ => none
  | steps + 1, b =>
    if rank limit < rank b then t.climb rank limit steps ((t.parent? b).getD limit) else some b

/--
Goes up from two blocks, from the later one each time, until the two ways meet. There is no answer if
that takes as many turns as given, or more.
-/
def meet (t : DominatorTree) (rank : BlockId → Nat) : Nat → BlockId → BlockId → Option BlockId
  | 0, _, _ => none
  | turns + 1, a, b =>
    if a = b then some a
    else do
      let a ← t.climb rank b t.bound a
      let b ← t.climb rank a t.bound b
      t.meet rank turns a b

/--
Puts a block below the one at which the ways up from its predecessors meet, as far as these have been
placed. The answer says whether that is a change.
-/
def update (t : DominatorTree) (f : Function) (rank : BlockId → Nat) (b : BlockId) :
    Option (Bool × DominatorTree) :=
  match (f.predecessors b).filter fun p => (t.parent? p).isSome with
  | [] => some (false, t)
  | first :: rest => do
    let parent ← rest.foldlM (fun met p => t.meet rank (2 * t.bound) p met) first
    if t.parent? b = some parent then some (false, t) else some (true, t.place b parent)

/-- Updates blocks in turn; the answer says whether there was a change. -/
def sweep (f : Function) (rank : BlockId → Nat) :
    List BlockId → DominatorTree → Option (Bool × DominatorTree)
  | [], t => some (false, t)
  | b :: rest, t => do
    let (changed, t) ← t.update f rank b
    let (changedLater, t) ← sweep f rank rest t
    return (changed || changedLater, t)

/--
Updates all blocks again and again, until there is no change. There is no answer if there are changes
in as many sweeps as given.
-/
def settle (f : Function) (rank : BlockId → Nat) (blocks : List BlockId) :
    Nat → DominatorTree → Option DominatorTree
  | 0, _ => none
  | sweeps + 1, t => do
    let (changed, t) ← sweep f rank blocks t
    if changed then settle f rank blocks sweeps t else return t

/-- The tree in which only the entry has been placed. -/
def start (f : Function) : DominatorTree :=
  place ⟨List.replicate f.blocks.length none⟩ f.entry f.entry

/-- The dominator tree of a function. There is none if more sweeps than there are blocks do not settle it. -/
def ofFunction? (f : Function) : Option DominatorTree :=
  let order := f.reversePostorder
  settle f order.idxOf order.tail (f.blocks.length + 1) (start f)

/-- Whether control can reach a block: it has been placed. -/
def isReachable (t : DominatorTree) (b : BlockId) : Bool := (t.parent? b).isSome

/--
Goes up from a block to find whether another one is on the way. There is no answer if that takes as many
steps as given, or more.
-/
def isAbove? (t : DominatorTree) (a : BlockId) : Nat → BlockId → Option Bool
  | 0, _ => none
  | steps + 1, b =>
    if b = a then some true
    else
      match t.parent? b with
      | some parent => if parent = b then some false else t.isAbove? a steps parent
      | none => some false

/-- Whether a block dominates another one, by the tree. -/
def dominates? (t : DominatorTree) (a b : BlockId) : Option Bool := t.isAbove? a t.bound b

end DominatorTree

end FormCompiler.Flow
