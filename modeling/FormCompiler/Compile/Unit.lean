import FormCompiler.Compile.Index
import FormCompiler.Diagnostic.Queue
import FormCompiler.Flow.Verify
import FormCompiler.Lowering.Module
import FormCompiler.Machine.Generate
import FormCompiler.Optimize.Fault
import FormCompiler.Parsing.Item
import FormCompiler.Typing.Module

/-!
# Compilation of units

`compileUnits` compiles several units that may call each other's functions. All units are parsed
first; what they export makes the index against which each of them is checked. Then each unit goes
through the other stages by itself. The first stage that reports an error is the last one of its
unit.

`compileUnits` has no result for a unit if one of the limits of this compiler is met: more instances
of generic functions than are lowered, a pass that is stopped, or a frame with more bytes than can
be addressed.
-/

namespace FormCompiler

/-! ## Diagnostics of lexical errors and parse errors -/

namespace LexErrorKind

/-- The code of a lexical error. -/
def code : LexErrorKind → Code
  | unterminatedString => .unterminatedString
  | unterminatedComment => .unterminatedComment
  | invalidDigit _ _ | missingDigits _ | invalidFraction => .invalidLiteral
  | integerOverflow => .integerOverflow
  | invalidEscape _ => .invalidEscape
  | unexpectedChar _ => .unexpectedCharacter

/-- What the text of a lexical error is marked with. -/
def label : LexErrorKind → String
  | unterminatedString => "string starts here"
  | unterminatedComment => "comment starts here"
  | invalidDigit _ _ | missingDigits _ | invalidFraction => "in this literal"
  | integerOverflow => "literal out of range"
  | invalidEscape _ => "unknown escape"
  | unexpectedChar _ => "not valid here"

/-- What helps with a lexical error. -/
def notes : LexErrorKind → List String
  | integerOverflow => ["`!int` holds signed 64-bit values"]
  | invalidEscape _ => ["valid escapes are \\n, \\r, \\t, \\0, \\\\, \\' and \\\""]
  | _ => []

end LexErrorKind

/-- The diagnostic of a lexical error. -/
def LexError.diagnostic (e : LexError) : Diagnostic :=
  e.kind.notes.foldl Diagnostic.withNote
    ((Diagnostic.ofCode e.kind.code e.kind.message).withLabel e.span e.kind.label)

namespace ParseErrorKind

/-- The code of a parse error; there is none if the lexer has reported the error. -/
def code? : ParseErrorKind → Option Code
  | unexpectedToken _ _ => some .unexpectedToken
  | unclosedDelimiter => some .unclosedDelimiter
  | unmatchedClose => some .unmatchedClose
  | malformedForm _ => some .malformedForm
  | missingDefault => some .missingDefault
  | malformedType _ => some .malformedType
  | malformedOperator _ => some .malformedOperator
  | invalidToken => none

/-- What helps with a parse error. -/
def notes : ParseErrorKind → List String
  | unclosedDelimiter => ["the form is never closed"]
  | missingDefault => ["the last clause of a pattern conditional is its default"]
  | _ => []

end ParseErrorKind

/-- The diagnostic of a parse error, unless the lexer has reported the error. -/
def ParseError.diagnostic? (e : ParseError) : Option Diagnostic :=
  e.kind.code?.map fun code =>
    e.kind.notes.foldl Diagnostic.withNote
      ((Diagnostic.ofCode code e.kind.message).withLabel e.span "here")

/-! ## Units -/

/-- The text of a unit. -/
structure SourceUnit where
  /-- The name, which becomes that of the object. -/
  name : String
  source : String
deriving DecidableEq, Repr, Inhabited

/-- A stage of compilation. -/
inductive Stage where
  | parse
  | check
  | lower
  | optimize
  | codegen
deriving DecidableEq, Repr, Inhabited

/-- The name of a stage. -/
def Stage.text : Stage → String
  | parse => "parse"
  | check => "check"
  | lower => "lower"
  | optimize => "optimize"
  | codegen => "codegen"

/-- How units are compiled. -/
structure CompileOptions where
  passes : Flow.PassConfig
  target : Machine.Target
  /-- The number of errors of a unit that are reported; zero for all. -/
  errorLimit : Nat
deriving DecidableEq, Repr, Inhabited

/-- All passes, the standard machine, and twenty errors. -/
def CompileOptions.standard : CompileOptions := ⟨.all, .standard, 20⟩

/-- What comes out of the compilation of a unit. -/
structure UnitOutput where
  name : String
  /-- Errors and warnings, by position. -/
  diagnostics : List Reported
  /-- The stage that reported the first error. -/
  failed : Option Stage
  /-- The optimised program. -/
  program : Option Flow.Program
  object : Option Machine.ObjectModule
  stats : Flow.PassStats
deriving Repr, Inhabited

namespace UnitOutput

/-- The number of reported errors. -/
def errorCount (o : UnitOutput) : Nat := o.diagnostics.countP (·.diagnostic.isError)

/-- The number of reported warnings. -/
def warningCount (o : UnitOutput) : Nat := o.diagnostics.countP (·.diagnostic.isWarning)

end UnitOutput

/-- Which limit of the compiler a unit meets. -/
inductive LimitReached where
  | instances
  | passes (fault : Flow.PassFault)
  | frameSize
deriving DecidableEq, Repr, Inhabited

/-- A unit that has been parsed. -/
structure ParsedUnit where
  name : String
  /-- What parsing has reported. -/
  queue : Queue
  /-- The parsed form; there is none if an error has been reported. -/
  module : Option Module
deriving Repr, Inhabited

namespace ParsedUnit

/-- Parses a unit. -/
def ofSource (options : CompileOptions) (unit : SourceUnit) : ParsedUnit :=
  let parsed := parseUnit unit.source
  let queue := Queue.ofSource unit.source ⟨options.errorLimit, true⟩
  let queue := queue.extend (parsed.lexErrors.map LexError.diagnostic)
  let queue := queue.extend (parsed.errors.filterMap ParseError.diagnostic?)
  ⟨unit.name, queue, if queue.hasErrors then none else some parsed.module⟩

/-- The signatures that a unit declares. -/
def signatures (parsed : ParsedUnit) : List FunctionSig :=
  (parsed.module.map Module.signatures).getD []

/-- The output of a unit that ends with a stage, or after all of them. -/
def output (parsed : ParsedUnit) (queue : Queue) (failed : Option Stage)
    (program : Option Flow.Program) (object : Option Machine.ObjectModule)
    (stats : Flow.PassStats) : UnitOutput :=
  ⟨parsed.name, queue.flush.1, failed, program, object, stats⟩

/-- Optimises a lowered program and makes its machine code. -/
def finishProgram (parsed : ParsedUnit) (options : CompileOptions) (queue : Queue)
    (lowered : Flow.Program) : Except LimitReached UnitOutput :=
  match lowered.optimize? options.passes with
  | .error fault => .error (.passes fault)
  | .ok (stats, program) =>
    match program.verify with
    | .error e =>
      return parsed.output (queue.extend [e.diagnostic]) (some .optimize) none none stats
    | .ok _ =>
      match Machine.generate options.target parsed.name program with
      | .ok object => return parsed.output queue none (some program) (some object) stats
      | .error errors =>
        if errors.any CodegenError.isFrameTooLarge then .error .frameSize
        else
          return parsed.output (queue.extend (errors.map CodegenError.diagnostic)) (some .codegen)
            (some program) none stats

/-- Checks and lowers the parsed form of a unit, and then makes its machine code. -/
def finishModule (parsed : ParsedUnit) (options : CompileOptions) (index : GlobalIndex)
    (position : Nat) (m : Module) : Except LimitReached UnitOutput :=
  let queue := parsed.queue.extend ((index.conflictsIn position).map Conflict.diagnostic)
  let checked := checkModule m index.signatures
  let queue := queue.extend (checked.warnings.map TypeWarning.diagnostic)
  let queue := queue.extend (checked.problems.map TypeProblem.diagnostic)
  if queue.hasErrors then return parsed.output queue (some .check) none none .zero
  else
    let lowered := lowerModule m checked
    if !lowered.pending.isEmpty then .error .instances
    else
      let queue := queue.extend (lowered.warnings.map ReleaseWarning.diagnostic)
      let queue := queue.extend (lowered.problems.map LowerProblem.diagnostic)
      if lowered.problems.isEmpty then parsed.finishProgram options queue lowered.program
      else return parsed.output queue (some .lower) none none .zero

/-- Compiles a parsed unit that stands at a position among all units. -/
def finish (options : CompileOptions) (index : GlobalIndex) (parsed : ParsedUnit)
    (position : Nat) : Except LimitReached UnitOutput :=
  match parsed.module with
  | none => return parsed.output parsed.queue (some .parse) none none .zero
  | some m => parsed.finishModule options index position m

end ParsedUnit

/-- Compiles units that may call each other's functions. -/
def compileUnits (options : CompileOptions) (units : List SourceUnit) :
    List (Except LimitReached UnitOutput) :=
  let parsed := units.map (ParsedUnit.ofSource options)
  let index := GlobalIndex.ofSignatures (parsed.map ParsedUnit.signatures)
  parsed.zipIdx.map fun (unit, position) => unit.finish options index position

/-- Compiles a unit that calls no functions of others. -/
def compileUnit (options : CompileOptions) (unit : SourceUnit) : Except LimitReached UnitOutput :=
  (ParsedUnit.ofSource options unit).finish options .empty 0

end FormCompiler
