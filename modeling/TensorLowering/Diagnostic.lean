import TensorLowering.Fault

/-!
# Spans and diagnostics

A diagnostic is a finding that is reported to the user: it has a message, the place it is about,
and optional notes and help. Spans are half-open byte ranges of one numbered file.
-/

namespace TensorLowering

/-- A byte range of a file. -/
structure Span where
  file : Nat
  start : Nat
  stop : Nat
deriving DecidableEq

namespace Span

/-- The span of something that was written nowhere. -/
def nowhere : Span := ⟨0, 0, 0⟩

/-- Recognizes empty ranges at the start of a file, whichever file it is. -/
def isNowhere (span : Span) : Bool := span.start == 0 && span.stop == 0

/-- The smallest range that covers both; the ranges must belong to one file. -/
def merge (left right : Span) : Except Fault Span :=
  if left.file = right.file then
    .ok ⟨left.file, min left.start right.start, max left.stop right.stop⟩
  else
    .error (.mixedFiles left.file right.file)

end Span

/-- How serious a finding is. -/
inductive Severity where
  | error
  | warning
deriving DecidableEq

/-- The word for a severity. -/
def Severity.name : Severity → String
  | error => "error"
  | warning => "warning"

/-- A finding to report. -/
structure Diagnostic where
  severity : Severity
  message : String
  span : Span
  notes : List String := []
  help : Option String := none
deriving DecidableEq

namespace Diagnostic

/-- An error without notes and help. -/
def error (message : String) (span : Span) : Diagnostic :=
  { severity := .error, message, span }

/-- Adds a note after the existing ones. -/
def withNote (diagnostic : Diagnostic) (note : String) : Diagnostic :=
  { diagnostic with notes := diagnostic.notes ++ [note] }

/-- Sets the help, in place of an earlier one. -/
def withHelp (diagnostic : Diagnostic) (help : String) : Diagnostic :=
  { diagnostic with help := some help }

/-- Errors, and not warnings. -/
def isError (diagnostic : Diagnostic) : Bool := diagnostic.severity == .error

end Diagnostic

end TensorLowering
