import FormCompiler.Flow.Basic
import FormCompiler.Optimize.Basic

/-!
# Loop unrolling

A counted loop is unrolled if it has the plain form

    preheader → header → body → latch → header
                header → exit

where the header only computes the test. One round is the body followed by the latch. With a factor
that is at least the number of rounds, the loop is replaced by so many copies of a round. Otherwise
the body becomes as many rounds as the factor says, and the rounds that are left over are copied in
front of the loop. Copies get variables of their own and share the slots.
-/

namespace FormCompiler.Flow

namespace Unroll

/-- A loop in the form that can be unrolled. -/
structure Candidate where
  body : BlockId
  induction : Induction
  /-- The number of rounds. -/
  trip : Nat
  /-- The lines of the header. -/
  test : List Line
  /-- The lines of a round. -/
  round : List Line
deriving Repr, Inhabited

/-- Whether variables that blocks define are read in other blocks. -/
def escapes (f : Function) (inside : List BlockId) : Bool :=
  let defined := inside.flatMap fun id => (f.block id).instrs.filterMap Instr.def?
  f.blocks.zipIdx.any fun (b, id) => !inside.contains id && b.uses.any defined.contains

/-- Whether a loop with a given body block has the plain form. -/
def isPlain (f : Function) (l : LoopInfo) (body elseBlock : BlockId) : Bool :=
  let inside := [l.header, body, l.latch]
  elseBlock == l.exit && l.blocks.length == 3 && inside.all l.blocks.contains &&
    body != l.latch && body != l.header && inside.all (fun id => (f.block id).params.isEmpty) &&
    (f.block body).terminator == .jump l.latch [] &&
    (f.block l.latch).terminator == .jump l.header [] && (f.block l.header).instrs.all Instr.isPure

/-- The parts of a loop, if it can be unrolled. -/
def candidate? (f : Function) (l : LoopInfo) : Option Candidate := do
  let induction ← l.induction
  let trip ← induction.tripCount?
  match (f.block l.header).terminator with
  | .branch _ body elseBlock =>
    if isPlain f l body elseBlock && !escapes f [body, l.latch] then
      return ⟨body, induction, trip, (f.block l.header).body,
        (f.block body).body ++ (f.block l.latch).body⟩
    else none
  | _ => none

/-- Copies lines, so that each definition gets a fresh variable. -/
def copyLines (renamed : List (VarId × VarId)) : List Line → Function → List Line × Function
  | [], f => ([], f)
  | line :: rest, f =>
    let instr := line.instr.mapUses fun v => (renamed.lookup v).getD v
    match instr.def? with
    | none =>
      let (copies, f) := copyLines renamed rest f
      ({ line with instr := instr } :: copies, f)
    | some dst =>
      let (fresh, f) := f.freshVar (f.varType dst)
      let (copies, f) := copyLines ((dst, fresh) :: renamed) rest f
      ({ line with instr := instr.mapDef fun _ => fresh } :: copies, f)

/-- Copies lines a number of times. -/
def copyTimes (lines : List Line) : Nat → Function → List Line × Function
  | 0, f => ([], f)
  | n + 1, f =>
    let (first, f) := copyLines [] lines f
    let (rest, f) := copyTimes lines n f
    (first ++ rest, f)

/-- Copies a number of rounds, each with the test in front, to the end of a block. -/
def appendRounds (c : Candidate) (id : BlockId) (n : Nat) (f : Function) : Function :=
  let (copies, f) := copyTimes (c.test ++ c.round) n f
  f.modifyBlock id fun b => { b with body := b.body ++ copies }

/-- Replaces a loop by all its rounds. -/
def replaceLoop (l : LoopInfo) (c : Candidate) (f : Function) : Function :=
  (appendRounds c l.preheader c.trip f).modifyBlock l.preheader fun b =>
    { b with terminator := .jump l.exit [] }

/-- Fills the body with rounds; the first one uses the test of the header. -/
def fillBody (l : LoopInfo) (c : Candidate) (factor : Nat) (f : Function) : Function :=
  let (first, f) := copyLines [] c.round f
  let (rest, f) := copyTimes (c.test ++ c.round) (factor - 1) f
  (f.modifyBlock c.body fun b => { b with body := first ++ rest }).modifyBlock l.latch fun b =>
    { b with body := [] }

/-- The counter of a loop after rounds were copied in front of it and into its body. -/
def induction? (i : Induction) (peeled factor : Nat) : Option Induction := do
  let init ← i.valueAt? peeled
  let step ← Word.checked? (i.step * factor)
  return { i with init := init, step := step }

/-- Unrolls loops, taken in order; `done` holds those before them. -/
def loops (factor : Nat) (done : List LoopInfo) : List LoopInfo → Pass
  | [], f => (0, { f with loops := done })
  | l :: rest, f =>
    match candidate? f l with
    | none => loops factor (done ++ [l]) rest f
    | some c =>
      if c.trip ≤ factor then
        let (n, f) := loops factor done rest (replaceLoop l c f)
        (n + 1, f)
      else
        let peeled := c.trip % factor
        match induction? c.induction peeled factor with
        | none => loops factor (done ++ [l]) rest f
        | some i =>
          let f := fillBody l c factor (appendRounds c l.preheader peeled f)
          let (n, f) := loops factor (done ++ [{ l with induction := some i }]) rest f
          (n + 1, f)

end Unroll

/-- Unrolls counted loops by a factor. -/
def unrollLoops (factor : Nat) : Pass := fun f =>
  if factor < 2 then (0, f)
  else
    let (n, f) := Unroll.loops factor [] f.loops f
    if n = 0 then (0, f) else (n, f.removeUnreachable.2)

end FormCompiler.Flow
