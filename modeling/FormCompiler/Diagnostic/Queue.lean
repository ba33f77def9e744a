import FormCompiler.Source.Span
import FormCompiler.Diagnostic.Basic

/-!
# The diagnostic queue of a unit

A `Queue` collects the diagnostics of one unit and resolves their positions. Two filters apply
to errors, in this order: once `errorLimit` errors have been accepted, every further error is
refused and counted; and a parser error is refused when the last accepted parser error is on
the same line. `Queue.flush` sorts what was accepted by position, errors before warnings at one
position, and appends one entry that says how many errors the limit refused.
-/

namespace FormCompiler

/-- The filters of a diagnostic queue. -/
structure Queue.Config where
  /-- The number of errors after which further ones are refused; zero for no limit. -/
  errorLimit : Nat := 20
  /-- Refuse a second parser error on one line. -/
  deduplicate : Bool := true
deriving DecidableEq, Repr, Inhabited

/-- The configuration that accepts every diagnostic. -/
def Queue.Config.unlimited : Queue.Config := ⟨0, false⟩

/-- A diagnostic with its position. -/
structure Reported where
  diagnostic : Diagnostic
  position : Position
deriving DecidableEq, Repr, Inhabited

namespace Reported

/-- The span of the first primary label, or `Span.nowhere`. -/
def span (r : Reported) : Span := r.diagnostic.primarySpan?.getD .nowhere

/-- The written form, `line:column: diagnostic`. -/
def text (r : Reported) : String :=
  s!"{r.position.line}:{r.position.column}: {r.diagnostic.text}"

/-- The order of a report: by line, then by column, errors first. -/
def notAfter (r s : Reported) : Bool :=
  if r.position.line ≠ s.position.line then r.position.line < s.position.line
  else if r.position.column ≠ s.position.column then r.position.column < s.position.column
  else r.diagnostic.isError || !s.diagnostic.isError

end Reported

/-- The diagnostics of one unit, in the order in which they were accepted. -/
structure Queue where
  config : Queue.Config
  lines : LineTable
  accepted : List Reported
  /-- The number of accepted errors. -/
  errorCount : Nat
  /-- The number of errors the limit refused. -/
  dropped : Nat
  /-- The line of the last accepted parser error. -/
  syntaxLine : Option Nat
deriving DecidableEq, Repr, Inhabited

/-- The entry that reports `dropped` refused errors. -/
def Diagnostic.tooManyErrors (limit dropped : Nat) : Diagnostic :=
  (ofCode .tooManyErrors s!"aborting after {limit} errors").withNote
    s!"{dropped} further errors were not reported"

namespace Queue

/-- The empty queue for a source text. -/
def ofSource (source : String) (config : Config) : Queue :=
  ⟨config, .ofSource source, [], 0, 0, none⟩

/-- Whether as many errors as the limit allows have been accepted. -/
def limitReached (q : Queue) : Bool :=
  0 < q.config.errorLimit && q.config.errorLimit ≤ q.errorCount

/-- Whether an error has been accepted. -/
def hasErrors (q : Queue) : Bool := 0 < q.errorCount

/-- The number of accepted warnings. -/
def warningCount (q : Queue) : Nat :=
  q.accepted.countP (·.diagnostic.isWarning)

/-- The position a diagnostic is reported at; the start of the text if it has no primary label. -/
def locate (q : Queue) (d : Diagnostic) : Position :=
  match d.primarySpan? with
  | some span => q.lines.position span.start
  | none => ⟨1, 1⟩

/-- Whether a parser error repeats the line of the last one. -/
def repeatsLine (q : Queue) (d : Diagnostic) : Bool :=
  d.code.family == .parser && q.config.deduplicate && q.syntaxLine == some (q.locate d).line

/-- Offers a diagnostic to the queue; the answer says whether it was accepted. -/
def push (q : Queue) (d : Diagnostic) : Bool × Queue :=
  let position := q.locate d
  if d.isError then
    if q.limitReached then
      (false, { q with dropped := q.dropped + 1 })
    else if q.repeatsLine d then
      (false, q)
    else
      (true,
        { q with
          accepted := q.accepted ++ [⟨d, position⟩]
          errorCount := q.errorCount + 1
          syntaxLine := if d.code.family = .parser then some position.line else q.syntaxLine })
  else
    (true, { q with accepted := q.accepted ++ [⟨d, position⟩] })

/-- Offers several diagnostics, in order. -/
def extend (q : Queue) (ds : List Diagnostic) : Queue :=
  ds.foldl (fun q d => (q.push d).2) q

/-- The accepted diagnostics in report order, and the queue emptied for reuse. -/
def flush (q : Queue) : List Reported × Queue :=
  let sorted := q.accepted.mergeSort Reported.notAfter
  let position := (sorted.getLast?.map (·.position)).getD ⟨1, 1⟩
  let overflow :=
    if q.dropped = 0 then []
    else [⟨Diagnostic.tooManyErrors q.config.errorLimit q.dropped, position⟩]
  (sorted ++ overflow,
    { q with accepted := [], errorCount := 0, dropped := 0, syntaxLine := none })

end Queue

end FormCompiler
