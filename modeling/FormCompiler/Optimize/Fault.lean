import FormCompiler.Optimize.Pipeline

/-!
# Passes that are stopped

On a well-formed function a pass may still be stopped: by a variable that has no type and is read
where control never comes, by constants of unusual widths, by copies or block parameters that stand
for each other, and by a loop whose preheader is one of its own blocks. `Function.optimize?` has no
result in these cases; otherwise the result is that of `Function.optimize`.
-/

namespace FormCompiler.Flow

/-- Why a pass is stopped. -/
inductive PassFault where
  /-- The reads of a variable without a type are counted. -/
  | untyped
  /-- A constant is compared with the range of the integers of no bits. -/
  | noBits
  /-- A word is shifted to the right by the number of its bits or more. -/
  | wideShift
  /-- The replacement of a variable or the motion of an instruction has no end. -/
  | endless
deriving DecidableEq, Repr, Inhabited

/-- A pass with what stops it. -/
structure PartialPass where
  pass : Pass
  fault? : Function → Option PassFault

namespace PartialPass

/-- A pass that is never stopped. -/
def ofPass (pass : Pass) : PartialPass := ⟨pass, fun _ => none⟩

/-- Runs one pass after another. -/
def andThen (first second : PartialPass) : PartialPass :=
  ⟨first.pass.andThen second.pass, fun f => first.fault? f <|> second.fault? (first.pass f).2⟩

/-- Runs several passes in order. -/
def sequence : List PartialPass → PartialPass
  | [] => ofPass (Pass.sequence [])
  | p :: passes => p.andThen (sequence passes)

/-- What stops a pass that is run until it changes nothing, at most so many times. -/
def faultWithin? (p : PartialPass) : Nat → Function → Option PassFault
  | 0, _ => none
  | bound + 1, f =>
    p.fault? f <|> if (p.pass f).1 = 0 then none else p.faultWithin? bound (p.pass f).2

/-- Runs a pass only if it is switched on. -/
def when (isOn : Bool) (p : PartialPass) : PartialPass :=
  ⟨p.pass.when isOn, fun f => if isOn then p.fault? f else none⟩

end PartialPass

namespace Const

/-- What stops the folding of a binary operation. -/
def binaryFault? (op : BinaryOp) (lhs rhs : Const) (type : ValueType) : Option PassFault :=
  match lhs, rhs, type with
  | int a, int b, .int bits =>
    if op.isComparison then none
    else if op = .shr ∧ 64 ≤ b ∧ b < bits then some .wideShift
    else if bits = 0 ∧ (arithmetic? bits a b op).isSome then some .noBits
    else none
  | _, _, _ => none

/-- What stops the folding of a unary operation. -/
def unaryFault? (op : UnaryOp) (operand : Const) (type : ValueType) : Option PassFault :=
  match op, operand, type with
  | .neg, int n, .int 0 => if (Word.checked? (-n)).isSome then some .noBits else none
  | _, _, _ => none

/-- What stops the folding of a conversion. -/
def castFault? (operand : Const) (type : ValueType) : Option PassFault :=
  match operand, type with
  | int _, .int 0 => some .noBits
  | float x, .int 0 =>
    if ((Double.toInt? x).filter isConvertible).isSome then some .noBits else none
  | _, _ => none

end Const

namespace Function

/-- Whether every variable that is read has a type. -/
def readsTyped (f : Function) : Bool :=
  f.blocks.all fun b => b.uses.all fun v => v < f.varTypes.length

/-- What stops the counting of reads. -/
def countFault? (f : Function) : Option PassFault :=
  if f.readsTyped then none else some .untyped

/-- Whether a variable is read that would still have to be replaced. -/
def readsReplaced (f : Function) (replaced : List (VarId × VarId)) : Bool :=
  f.blocks.any fun b => b.uses.any fun v => (replaced.lookup v).any (· != v)

end Function

namespace Fold

/-- What stops the folding of a value. -/
def valueFault? (constants : List (VarId × Const)) (type : ValueType) : Value → Option PassFault
  | .const _ | .copy _ => none
  | .binary op lhs rhs => do
    let a ← constants.lookup lhs
    let b ← constants.lookup rhs
    Const.binaryFault? op a b type
  | .unary op operand => do Const.unaryFault? op (← constants.lookup operand) type
  | .cast source => do Const.castFault? (← constants.lookup source) type

/-- What stops the folding of values. -/
def valuesFault? (f : Function) : Option PassFault :=
  let constants := f.constants
  f.blocks.findSome? fun b => b.instrs.findSome? fun
    | .set dst value => valueFault? constants (f.varType dst) value
    | _ => none

/-- What stops the propagation of copies: variables that are copies of each other. -/
def copiesFault? (f : Function) : Option PassFault :=
  if (copiesOf f).isEmpty then none
  else f.countFault? <|>
    if (copies f).2.readsReplaced (copiesOf f) then some .endless else none

/-- What stops the propagation of block parameters: parameters that stand for each other. -/
def blockParamsFault? (f : Function) : Option PassFault :=
  let replaced := ((List.range f.blocks.length).map (redundantParams f)).flatten.map (·.2)
  if (blockParams f).2.readsReplaced replaced then some .endless else none

/-- All rewrites, once. -/
def partialRound : PartialPass :=
  PartialPass.sequence
    [ ⟨values, valuesFault?⟩, ⟨copies, copiesFault?⟩, .ofPass storedValues,
      .ofPass singleStoredValues, .ofPass boundsChecks, .ofPass branches,
      ⟨blockParams, blockParamsFault?⟩, .ofPass jumpChains, .ofPass Function.removeUnreachable,
      ⟨unread, Function.countFault?⟩ ]

end Fold

/-- What stops the motion of invariant instructions: they are moved to where they are found. -/
def Hoist.loopFault? (l : LoopInfo) (f : Function) : Option PassFault :=
  let found := firstInvariant? f l.blocks (definedIn f l.blocks) (writtenIn f l.blocks)
  if l.blocks.contains l.preheader ∧ found.isSome then some .endless else none

namespace PartialPass

/-- Folds and propagates constants until nothing changes. -/
def foldConstants : PartialPass :=
  ⟨Flow.foldConstants, fun f => Fold.partialRound.faultWithin? (Fold.roundLimit f) f⟩

/-- Moves invariant instructions in front of loops. -/
def hoistInvariants : PartialPass :=
  ⟨Flow.hoistInvariants, fun f =>
    (sequence (f.loops.map fun l => ⟨Hoist.loop l, Hoist.loopFault? l⟩)).fault? f⟩

/-- Unrolls counted loops by a factor, and then folds constants if there were any such loops. -/
def unrollThenFold (factor : Nat) : PartialPass where
  pass f :=
    let (m, f) := unrollLoops factor f
    let (n, f) := Flow.foldConstants.when (0 < m) f
    (m + n, f)
  fault? f :=
    let (m, f) := unrollLoops factor f
    if 0 < m then foldConstants.fault? f else none

/-- Uses vector instructions of a width. -/
def vectorize (width : Nat) : PartialPass :=
  ⟨Flow.vectorize width, fun f => if width < 2 then none else f.countFault?⟩

/-- Turns returned calls of the function itself into jumps. -/
def eliminateTailCalls : PartialPass := ⟨Flow.eliminateTailCalls, Function.countFault?⟩

/-- The passes that are switched on, in order. -/
def pipeline (config : PassConfig) : PartialPass :=
  sequence
    [ foldConstants.when config.foldConstants, hoistInvariants.when config.hoistInvariants,
      (unrollThenFold config.unrollFactor).when config.unrollLoops,
      (vectorize config.vectorWidth).when config.vectorize,
      (ofPass eliminateDeadStores).when config.eliminateDeadStores,
      eliminateTailCalls.when config.eliminateTailCalls ]

/-- The passes of a configuration change a function as `Function.optimize` does. -/
theorem pipeline_pass (config : PassConfig) (f : Function) :
  (pipeline config).pass f = ((f.optimize config).1.total, (f.optimize config).2)
  := by
  simp only [pipeline, sequence, andThen, when, ofPass, Pass.andThen, Pass.sequence,
    Function.optimize, PassStats.total, foldConstants, hoistInvariants, vectorize,
    eliminateTailCalls]
  generalize Flow.foldConstants.when config.foldConstants f = folded
  generalize Flow.hoistInvariants.when config.hoistInvariants folded.2 = hoisted
  cases config.unrollLoops with
  | false =>
    simp only [Pass.when, Bool.false_eq_true, if_false, Nat.lt_irrefl, decide_false, Nat.add_zero]
    refine Prod.ext ?_ rfl
    dsimp only
    omega
  | true =>
    simp only [unrollThenFold, Pass.when, if_true, Nat.add_zero]
    refine Prod.ext ?_ rfl
    dsimp only
    omega

end PartialPass

/--
Runs the passes that are switched on over a function, if none of them is stopped.
-/
def Function.optimize? (config : PassConfig) (f : Function) :
    Except PassFault (PassStats × Function) :=
  match (PartialPass.pipeline config).fault? f with
  | some fault => .error fault
  | none => .ok (f.optimize config)

/-- Runs the passes that are switched on over the functions of a program, if none is stopped. -/
def Program.optimize? (config : PassConfig) (p : Program) : Except PassFault (PassStats × Program) :=
  match p.functions.findSome? (PartialPass.pipeline config).fault? with
  | some fault => .error fault
  | none => .ok (p.optimize config)

end FormCompiler.Flow
