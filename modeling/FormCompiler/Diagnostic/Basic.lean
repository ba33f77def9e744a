import FormCompiler.Source.Span
import FormCompiler.Diagnostic.Code

/-!
# Diagnostics

A `Diagnostic` says what is wrong (`code` and `message`), where (`labels`, one or more of them
primary) and what may help (`notes`). `Diagnostic.text` is its written form.
-/

namespace FormCompiler

/-- How serious a diagnostic is. -/
inductive Severity where
  | error
  | warning
deriving DecidableEq, Repr, Inhabited

/-- The written form of a severity. -/
def Severity.text : Severity → String
  | .error => "error"
  | .warning => "warning"

/-- The severity that goes with a code. -/
def Code.severity (c : Code) : Severity :=
  if c.family = .warning then .warning else .error

/-- A span with an explanation; primary labels show where the problem is. -/
structure Label where
  span : Span
  message : String
  primary : Bool
deriving DecidableEq, Repr, Inhabited

/-- One reported error or warning. -/
structure Diagnostic where
  code : Code
  severity : Severity
  message : String
  labels : List Label
  notes : List String
deriving DecidableEq, Repr, Inhabited

namespace Diagnostic

/-- A diagnostic with the severity of its code and without labels or notes. -/
def ofCode (code : Code) (message : String) : Diagnostic :=
  ⟨code, code.severity, message, [], []⟩

/-- Adds a primary label. -/
def withLabel (d : Diagnostic) (span : Span) (message : String) : Diagnostic :=
  { d with labels := d.labels ++ [⟨span, message, true⟩] }

/-- Adds a secondary label. -/
def withContext (d : Diagnostic) (span : Span) (message : String) : Diagnostic :=
  { d with labels := d.labels ++ [⟨span, message, false⟩] }

/-- Adds a note. -/
def withNote (d : Diagnostic) (message : String) : Diagnostic :=
  { d with notes := d.notes ++ [message] }

/-- Whether a diagnostic is an error. -/
def isError (d : Diagnostic) : Bool := d.severity == .error

/-- Whether a diagnostic is a warning. -/
def isWarning (d : Diagnostic) : Bool := d.severity == .warning

/-- The span of the first primary label. -/
def primarySpan? (d : Diagnostic) : Option Span :=
  (d.labels.find? (·.primary)).map (·.span)

/-- The written form: severity, code and message, then one line for each note. -/
def text (d : Diagnostic) : String :=
  d.notes.foldl (fun out note => out ++ "\n  = note: " ++ note)
    s!"{d.severity.text}[{d.code.text}]: {d.message}"

end Diagnostic

end FormCompiler
