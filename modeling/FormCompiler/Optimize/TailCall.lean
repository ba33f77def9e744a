import FormCompiler.Optimize.Basic

/-!
# Tail calls

A call of the function itself whose result is returned unchanged becomes a jump to the entry block,
with the arguments of the call. The result may pass through blocks that do nothing.
-/

namespace FormCompiler.Flow

namespace TailCall

/--
Whether a terminator returns a value unchanged, perhaps after jumps through empty blocks. The first
argument bounds the number of terminators.
-/
def returnsDirectly (f : Function) : Nat → Terminator → Option VarId → Bool
  | 0, _, _ => false
  | bound + 1, terminator, value =>
    match terminator with
    | .ret returned => returned == value
    | .jump target args =>
      let b := f.block target
      if b.body.isEmpty then
        match value with
        | none => returnsDirectly f bound b.terminator none
        | some v =>
          match (args.idxOf? v).bind fun position => b.params[position]? with
          | some param => returnsDirectly f bound b.terminator (some param)
          | none => false
      else false
    | .branch .. | .unreachable => false

/-- The arguments of a call of the function itself that a block ends with and returns. -/
def returnedCall? (f : Function) (isReadOnce : VarId → Bool) (b : Block) : Option (List VarId) :=
  match b.body.getLast? with
  | some ⟨.call dst callee args .native true, _⟩ =>
    if callee = f.name ∧ dst.all isReadOnce ∧
        returnsDirectly f (f.blocks.length + 1) b.terminator dst then some args
    else none
  | _ => none

/-- Replaces returned calls in blocks, taken in order. -/
def rewriteBlocks (isReadOnce : VarId → Bool) : List BlockId → Pass
  | [], f => (0, f)
  | id :: rest, f =>
    match returnedCall? f isReadOnce (f.block id) with
    | none => rewriteBlocks isReadOnce rest f
    | some args =>
      let f := f.modifyBlock id fun b =>
        { b with body := b.body.dropLast, terminator := .jump f.entry args }
      let (n, f) := rewriteBlocks isReadOnce rest f
      (n + 1, f)

end TailCall

/-- Turns returned calls of the function itself into jumps. -/
def eliminateTailCalls : Pass := fun f =>
  let isReadOnce (v : VarId) : Bool := f.useCount v = 1
  let (n, f) := TailCall.rewriteBlocks isReadOnce (List.range f.blocks.length) f
  if n = 0 then (0, f) else (n, f.removeUnreachable.2)

end FormCompiler.Flow
