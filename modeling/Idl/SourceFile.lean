/-
Idl/SourceFile.lean

One source file of a run: the range of positions it owns and its lines.

A file knows the offsets at which its lines start, in increasing order, and may carry
remappings, which say that from some offset on the text comes from a line of another file.
`SourceFile.position` turns a position into a file name, a line and a column; the lines are
found by bisection.  A file of `size` bytes owns `size + 1` positions, since the end of the file
is a place too.
-/
import Idl.Bisect
import Idl.Span
import Idl.Text.Width

namespace Idl

/-- Offsets, sizes, lines and positions stay below this bound. -/
def positionBound : Nat := UInt32.size

/-! ### Places for people to read -/

/-- A place in a file: lines and columns count from 1, and line 0 means that it is unknown. -/
structure Position where
  filename : String
  offset : Nat
  line : Nat
  column : Nat
  deriving DecidableEq, Repr, Inhabited

namespace Position

/-- The place of nothing. -/
def unknown : Position := ⟨"", 0, 0, 0⟩

/-- Whether the line is known. -/
def isValid (p : Position) : Bool := 0 < p.line

/-- `file:line:column`, as far as these are known. -/
def text (p : Position) : String :=
  let name := if p.filename.isEmpty then "<input>" else p.filename
  if p.isValid then name ++ ":" ++ toString p.line ++ ":" ++ toString p.column else name

end Position

/-! ### Files -/

/-- From `offset` on, the text comes from line `line` of the file `filename`. -/
structure Remapping where
  offset : Nat
  filename : String
  line : Nat
  deriving DecidableEq, Repr, Inhabited

/-- A source file. -/
structure SourceFile where
  name : String
  /-- The position of the first byte. -/
  base : Pos
  /-- The number of bytes. -/
  size : Nat
  /-- The offsets at which lines start. -/
  lines : Array Nat := #[0]
  remappings : Array Remapping := #[]
  deriving DecidableEq, Repr, Inhabited

/-- Whether every element is smaller than the next. -/
def strictlyIncreasing : List Nat → Bool
  | a :: b :: r => decide (a < b) && strictlyIncreasing (b :: r)
  | _ => true

/-- The offsets right after each newline among bytes, the first of which has offset `start`.  Offsets
are counted without a bound here; a table of lines holds them as words of 32 bits
(`SourceFile.setLinesOfBytes`). -/
def lineStartsInBytes (start : Nat) : List UInt8 → List Nat
  | [] => []
  | b :: bs =>
    if b = 10 then (start + 1) :: lineStartsInBytes (start + 1) bs
    else lineStartsInBytes (start + 1) bs

namespace SourceFile

/-! ### Lines and remappings -/

/-- Records that a line starts at `offset`, which has to lie in the file and beyond the line
starts known so far; otherwise nothing changes. -/
def addLine (f : SourceFile) (offset : Nat) : SourceFile :=
  if (∀ last ∈ f.lines.back?, last < offset) ∧ offset ≤ f.size then
    { f with lines := f.lines.push offset }
  else f

/-- Replaces the line starts, if the new ones increase and lie in the file. -/
def setLines? (f : SourceFile) (lines : List Nat) : Option SourceFile :=
  if strictlyIncreasing lines && lines.all (· ≤ f.size) then some { f with lines := lines.toArray }
  else none

/-- Takes the line starts from bytes.  They are words of 32 bits and wrap around in bytes that are
longer than any file: only for a file is their number checked, when it is registered. -/
def setLinesOfBytes (f : SourceFile) (content : List UInt8) : SourceFile :=
  { f with lines := (0 :: (lineStartsInBytes 0 content).map fun n => n.toUInt32.toNat).toArray }

/-- Takes the line starts from the text of the file. -/
def setLinesOf (f : SourceFile) (content : String) : SourceFile :=
  f.setLinesOfBytes (bytesOf content)

/-- Adds a remapping, if it starts in the file and beyond those known so far. -/
def addRemapping (f : SourceFile) (r : Remapping) : SourceFile :=
  if (∀ last ∈ f.remappings.back?, last.offset < r.offset) ∧ r.offset < f.size then
    { f with remappings := f.remappings.push r }
  else f

/-! ### Positions and offsets -/

/-- Whether the file owns the position. -/
def contains (f : SourceFile) (p : Pos) : Bool := f.base ≤ p && p ≤ f.base + f.size

/-- The position of an offset. -/
def pos? (f : SourceFile) (offset : Nat) : Option Pos :=
  if offset ≤ f.size then some (f.base + offset) else none

/-- The offset of a position. -/
def offset? (f : SourceFile) (p : Pos) : Option Nat :=
  if f.contains p then some (p - f.base) else none

/-- A span as offsets in the file. -/
def localSpan (f : SourceFile) (s : Span) : Span := s.relativeTo f.base

/-! ### From offsets to lines -/

/-- The number of lines that start at or before `offset`. -/
def lineNumber (f : SourceFile) (offset : Nat) : Nat :=
  bisect (fun start => decide (start ≤ offset)) f.lines

/-- The column of `offset` in its line, and 0 where no line starts before it. -/
def column (f : SourceFile) (offset : Nat) : Nat :=
  match f.lines[f.lineNumber offset - 1]? with
  | some start => if start ≤ offset then offset - start + 1 else 0
  | none => 0

/-- The last remapping that starts at or before `offset`. -/
def remapping? (f : SourceFile) (offset : Nat) : Option Remapping :=
  let count := bisect (fun r : Remapping => decide (r.offset ≤ offset)) f.remappings
  if count = 0 then none else f.remappings[count - 1]?

/-- The line of `offset` after a remapping: as far below the remapping's line as `offset` is
below the line on which the remapping starts; 0 if that is no number of a line. -/
def remappedLine (f : SourceFile) (offset : Nat) (r : Remapping) : Nat :=
  let line := f.lineNumber offset
  let first := f.lineNumber r.offset
  if first = 0 then line
  else
    let shifted : Int := line + r.line - first
    if 0 ≤ shifted ∧ shifted < positionBound then shifted.toNat else 0

/-- The place of an offset, as the file itself counts. -/
def unadjustedPlace (f : SourceFile) (offset : Nat) : Position :=
  ⟨f.name, offset, f.lineNumber offset, f.column offset⟩

/-- The place of an offset, with the remappings applied. -/
def place (f : SourceFile) (offset : Nat) : Position :=
  match f.remapping? offset with
  | none => f.unadjustedPlace offset
  | some r =>
    { f.unadjustedPlace offset with
      filename := r.filename
      line := f.remappedLine offset r }

/-- The place of a position as the file itself counts; unknown outside the file. -/
def unadjustedPosition (f : SourceFile) (p : Pos) : Position :=
  if p.isValid && f.contains p then f.unadjustedPlace (p - f.base) else Position.unknown

/-- The place of a position, with the remappings applied; unknown outside the file. -/
def position (f : SourceFile) (p : Pos) : Position :=
  if p.isValid && f.contains p then f.place (p - f.base) else Position.unknown

/-- The line of a position, 0 outside the file. -/
def lineOf (f : SourceFile) (p : Pos) : Nat := (f.position p).line

end SourceFile

end Idl
