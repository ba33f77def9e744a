import FormCompiler.Diagnostic.Basic

/-!
# Why there is no machine code
-/

namespace FormCompiler

/-- Why machine code cannot be generated. -/
inductive CodegenError where
  /-- The target cannot compute with vectors of a width. -/
  | unsupportedOperation (function instruction : String) (width : Nat) (target : String)
      (span : Option Span)
  | unresolvedSymbol (function symbol : String) (span : Option Span)
  | invalidTarget (target : String)
  /-- The frame of a function takes more than `Machine.maxOffset` bytes. -/
  | frameTooLarge (function : String)
deriving DecidableEq, Repr, Inhabited

namespace CodegenError

/-- The wording of an error. -/
def message : CodegenError → String
  | unsupportedOperation function instruction width target _ =>
    s!"`{instruction}` on {width} lanes in `{function}` is not supported by target `{target}`"
  | unresolvedSymbol function symbol _ => s!"call to unresolved symbol `{symbol}` in `{function}`"
  | invalidTarget target =>
    s!"target `{target}` needs two scratch registers and at least one allocatable register"
  | frameTooLarge function => s!"the frame of `{function}` is too large"

/-- The code of an error. -/
def code : CodegenError → Code
  | unsupportedOperation .. => .unsupportedOperation
  | unresolvedSymbol .. | invalidTarget _ | frameTooLarge _ => .internalError

/-- The text that an error is about. -/
def span? : CodegenError → Option Span
  | unsupportedOperation _ _ _ _ span | unresolvedSymbol _ _ span => span
  | invalidTarget _ | frameTooLarge _ => none

/-- The diagnostic of an error. -/
def diagnostic (e : CodegenError) : Diagnostic :=
  let d := Diagnostic.ofCode e.code e.message
  match e.span? with
  | some span => d.withLabel span "in this expression"
  | none => d

/-- Whether an error is that of a frame. -/
def isFrameTooLarge : CodegenError → Bool
  | frameTooLarge _ => true
  | _ => false

end CodegenError

end FormCompiler
