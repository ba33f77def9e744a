import FormCompiler.Optimize.DeadStore
import FormCompiler.Optimize.Fold
import FormCompiler.Optimize.Hoist
import FormCompiler.Optimize.Lanes
import FormCompiler.Optimize.TailCall
import FormCompiler.Optimize.Unroll

/-!
# The order of passes

Passes run in a fixed order; a configuration only switches them on and off. Constants are folded
once more after a loop has been unrolled.
-/

namespace FormCompiler.Flow

/-- Which passes run, and with which parameters. -/
structure PassConfig where
  foldConstants : Bool
  hoistInvariants : Bool
  unrollLoops : Bool
  vectorize : Bool
  eliminateDeadStores : Bool
  eliminateTailCalls : Bool
  unrollFactor : Nat
  vectorWidth : Nat
deriving DecidableEq, Repr, Inhabited

namespace PassConfig

/-- No pass. -/
def none : PassConfig := ⟨false, false, false, false, false, false, 4, 4⟩

/-- Every pass. -/
def all : PassConfig := ⟨true, true, true, true, true, true, 4, 4⟩

end PassConfig

/-- The number of changes of each pass. -/
structure PassStats where
  folded : Nat
  hoisted : Nat
  unrolled : Nat
  vectorized : Nat
  deadStores : Nat
  tailCalls : Nat
deriving DecidableEq, Repr, Inhabited

namespace PassStats

/-- No changes. -/
def zero : PassStats := ⟨0, 0, 0, 0, 0, 0⟩

/-- The number of all changes. -/
def total (s : PassStats) : Nat :=
  s.folded + s.hoisted + s.unrolled + s.vectorized + s.deadStores + s.tailCalls

/-- The changes of two runs together. -/
def add (s t : PassStats) : PassStats :=
  ⟨s.folded + t.folded, s.hoisted + t.hoisted, s.unrolled + t.unrolled,
    s.vectorized + t.vectorized, s.deadStores + t.deadStores, s.tailCalls + t.tailCalls⟩

end PassStats

/-- A pass that runs only if it is switched on. -/
def Pass.when (isOn : Bool) (pass : Pass) : Pass := fun f => if isOn then pass f else (0, f)

/-- Runs the passes that are switched on over a function. -/
def Function.optimize (config : PassConfig) (f : Function) : PassStats × Function :=
  let (folded, f) := foldConstants.when config.foldConstants f
  let (hoisted, f) := hoistInvariants.when config.hoistInvariants f
  let (unrolled, f) := (unrollLoops config.unrollFactor).when config.unrollLoops f
  let (refolded, f) := foldConstants.when (0 < unrolled) f
  let (vectorized, f) := (vectorize config.vectorWidth).when config.vectorize f
  let (deadStores, f) := eliminateDeadStores.when config.eliminateDeadStores f
  let (tailCalls, f) := eliminateTailCalls.when config.eliminateTailCalls f
  (⟨folded + refolded, hoisted, unrolled, vectorized, deadStores, tailCalls⟩, f)

/-- Runs the passes that are switched on over the functions of a program. -/
def Program.optimize (config : PassConfig) (p : Program) : PassStats × Program :=
  let optimized := p.functions.map (Function.optimize config)
  ((optimized.map (·.1)).foldl PassStats.add .zero, { p with functions := optimized.map (·.2) })

end FormCompiler.Flow
