import FormCompiler.Flow.Graph

/-!
# Passes

A pass changes a function and counts the changes. This module holds what passes have in common.
-/

namespace FormCompiler.Flow

/-- A pass: the number of its changes, and the changed function. -/
abbrev Pass := Function → Nat × Function

namespace Pass

/-- Runs one pass after another. -/
def andThen (first second : Pass) : Pass := fun f =>
  let (m, f) := first f
  let (n, f) := second f
  (m + n, f)

/-- Runs several passes in order. -/
def sequence : List Pass → Pass
  | [] => fun f => (0, f)
  | pass :: passes => pass.andThen (sequence passes)

/-- Runs a pass again and again until it changes nothing, at most so many times. -/
def repeated (pass : Pass) : Nat → Pass
  | 0, f => (0, f)
  | bound + 1, f =>
    let (m, f) := pass f
    if m = 0 then (0, f)
    else
      let (n, f) := repeated pass bound f
      (m + n, f)

/-- Changes every block by itself. -/
def onBlocks (change : Block → Nat × Block) : Pass := fun f =>
  let changed := f.blocks.map change
  (total (changed.map (·.1)), { f with blocks := changed.map (·.2) })

/-- Keeps the instructions that satisfy a condition. -/
def keepInstrs (keep : Instr → Bool) : Pass :=
  onBlocks fun b =>
    let body := b.body.filter fun line => keep line.instr
    (b.body.length - body.length, { b with body := body })

/-- Replaces the instructions for which there is another one. -/
def replaceInstrs (replace : Instr → Option Instr) : Pass :=
  onBlocks fun b =>
    ((b.instrs.filterMap replace).length, b.mapInstrs fun i => (replace i).getD i)

end Pass

/-- The variables that are set to constants, with the constants. -/
def Function.constants (f : Function) : List (VarId × Const) :=
  f.blocks.flatMap fun b => b.instrs.filterMap fun
    | .set dst (.const c) => some (dst, c)
    | _ => none

end FormCompiler.Flow
