/-
Idl/Report.lean

A diagnostic as it is shown beside the text of its file.

The marked part is given by offset and length in that text.  Both are cut down to what the text
holds, so that a report never marks anything beyond its end.
-/
import Idl.Diagnostic

namespace Idl

/-- A diagnostic beside the text of a file. -/
structure Report where
  severity : Severity
  message : String
  /-- The name of the file. -/
  source : String
  /-- Where the marked part starts in the text. -/
  offset : Nat
  /-- How many bytes are marked. -/
  length : Nat
  hint : Option String
  deriving DecidableEq, Repr

/-- What stands beside the marked part. -/
def Severity.label : Severity → String
  | .error => "error here"
  | .warning => "warning here"

/-- A diagnostic beside `text`, the text of `file`. -/
def Report.ofDiagnostic (d : Diagnostic) (file : SourceFile) (text : String) : Report :=
  let part := file.localSpan d.span
  let offset := min part.start text.utf8ByteSize
  { severity := d.severity
    message := d.message
    source := file.name
    offset := offset
    length := min part.length (text.utf8ByteSize - offset)
    hint := d.hint }

end Idl
