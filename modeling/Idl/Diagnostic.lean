/-
Idl/Diagnostic.lean

What a run has to say about its sources: errors and warnings with a place.

Diagnostics are reported in the order in which they are found and sorted by place afterwards.
`sortDiagnostics` orders them by file name, line and column and leaves those of one place in
the order in which they were.
-/
import Idl.FileSet

namespace Idl

/-- How bad it is. -/
inductive Severity where
  | error
  | warning
  deriving DecidableEq, Repr, Inhabited

/-- The severity in words. -/
def Severity.text : Severity → String
  | .error => "error"
  | .warning => "warning"

/-- Something to say about a span of the sources. -/
structure Diagnostic where
  severity : Severity
  message : String
  span : Span
  hint : Option String := none
  deriving DecidableEq, Repr, Inhabited

namespace Diagnostic

/-- An error. -/
def error (message : String) (span : Span) : Diagnostic :=
  { severity := .error, message := message, span := span }

/-- A warning. -/
def warning (message : String) (span : Span) : Diagnostic :=
  { severity := .warning, message := message, span := span }

/-- Whether it is an error. -/
def isError (d : Diagnostic) : Bool := d.severity = .error

/-- Where it starts. -/
def position (d : Diagnostic) (fs : FileSet) : Position := fs.position d.span.start

/-- The message behind its place, or alone if the place is unknown. -/
def render (d : Diagnostic) (fs : FileSet) : String :=
  if (d.position fs).isValid then (d.position fs).text ++ ": " ++ d.message else d.message

end Diagnostic

/-- Places in the order of file name, line and column. -/
def Position.le (p q : Position) : Bool :=
  if p.filename = q.filename then
    if p.line = q.line then p.column ≤ q.column else p.line < q.line
  else p.filename < q.filename

/-- Sorts diagnostics by place; those of one place keep their order. -/
def sortDiagnostics (fs : FileSet) (ds : List Diagnostic) : List Diagnostic :=
  (ds.map fun d => (d.position fs, d)).mergeSort (fun a b => a.1.le b.1) |>.map (·.2)

end Idl
