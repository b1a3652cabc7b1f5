/-
Idl/FileSet.lean

The source files of a run, side by side on one line of positions.

Files are only ever added at the end: each takes a base at or above the `next` free position,
and its range ends where the next one may begin.  So ranges never overlap, and a position
determines its file, which is found by bisection.

Neighbouring questions mostly concern one file.  `FileLookup` therefore remembers the file that
was registered or found last, and looks there first.
-/
import Idl.SourceFile

namespace Idl

/-- The number of a file, in order of registration. -/
abbrev FileId := Nat

/-- The files registered so far. -/
structure FileSet where
  /-- The first position that no file owns. -/
  next : Pos := 1
  files : Array SourceFile := #[]
  deriving DecidableEq, Repr, Inhabited

/-- Why a file cannot be registered. -/
inductive FileSetError where
  /-- The wished base lies below `next`, the first free position. -/
  | baseTaken (base next : Pos)
  /-- The range of the file would leave the positions. -/
  | overflow
  deriving DecidableEq, Repr

/-- The error in words. -/
def FileSetError.message : FileSetError → String
  | .baseTaken base next =>
    "illegal base " ++ toString base ++ ": positions below " ++ toString next ++
      " are already in use"
  | .overflow => "position overflow: more than 4GB of source in file set"

namespace FileSet

/-- Registers a file of `size` bytes, at `base?` or at the first free position. -/
def addFile (fs : FileSet) (name : String) (base? : Option Pos) (size : Nat) :
    Except FileSetError (FileId × FileSet) :=
  let base := base?.getD fs.next
  if base < fs.next then .error (.baseTaken base fs.next)
  else if positionBound ≤ base + size + 1 then .error .overflow
  else
    .ok (fs.files.size,
      { next := base + size + 1
        files := fs.files.push { name := name, base := base, size := size } })

/-- Changes one file. -/
def modifyFile (fs : FileSet) (id : FileId) (change : SourceFile → SourceFile) : FileSet :=
  { fs with files := fs.files.modify id change }

/-- The number of the file that owns a position. -/
def fileIdAt? (fs : FileSet) (p : Pos) : Option FileId :=
  let count := bisect (fun f : SourceFile => decide (f.base ≤ p)) fs.files
  match fs.files[count - 1]? with
  | some f => if p.isValid && f.contains p then some (count - 1) else none
  | none => none

/-- The file that owns a position. -/
def fileAt? (fs : FileSet) (p : Pos) : Option SourceFile :=
  (fs.fileIdAt? p).bind fun id => fs.files[id]?

/-- The place of a position, with remappings applied; unknown if no file owns it. -/
def position (fs : FileSet) (p : Pos) : Position :=
  match fs.fileAt? p with
  | some f => f.position p
  | none => Position.unknown

/-- The place of a position, as its file counts; unknown if no file owns it. -/
def unadjustedPosition (fs : FileSet) (p : Pos) : Position :=
  match fs.fileAt? p with
  | some f => f.unadjustedPosition p
  | none => Position.unknown

end FileSet

/-! ### Remembering the file found last -/

/-- A file set, with the number of the file that was registered or found last. -/
structure FileLookup where
  set : FileSet := {}
  last : Option FileId := none
  deriving DecidableEq, Repr, Inhabited

namespace FileLookup

/-- Registers a file, which is then looked at first. -/
def addFile (l : FileLookup) (name : String) (base? : Option Pos) (size : Nat) :
    Except FileSetError (FileId × FileLookup) :=
  (l.set.addFile name base? size).map fun (id, set) => (id, ⟨set, some id⟩)

/-- Changes one file. -/
def modifyFile (l : FileLookup) (id : FileId) (change : SourceFile → SourceFile) : FileLookup :=
  { l with set := l.set.modifyFile id change }

/-- The number of the file looked at last, if that file owns the position. -/
def recent? (l : FileLookup) (p : Pos) : Option FileId :=
  l.last.filter fun id => (l.set.files[id]?).any fun f => p.isValid && f.contains p

/-- The number of the file that owns a position.  A file that is found by bisection is the one to
look at first the next time. -/
def fileIdAt? (l : FileLookup) (p : Pos) : Option FileId × FileLookup :=
  match l.recent? p with
  | some id => (some id, l)
  | none =>
    match l.set.fileIdAt? p with
    | some id => (some id, { l with last := some id })
    | none => (none, l)

/-- The place of a position, read off its file with `place`; unknown if no file owns it. -/
def placeWith (place : SourceFile → Pos → Position) (l : FileLookup) (p : Pos) :
    Position × FileLookup :=
  let (id?, l) := l.fileIdAt? p
  (((id?.bind fun id => l.set.files[id]?).map fun f => place f p).getD Position.unknown, l)

/-- The place of a position, with remappings applied. -/
def position : FileLookup → Pos → Position × FileLookup := placeWith SourceFile.position

/-- The place of a position, as its file counts. -/
def unadjustedPosition : FileLookup → Pos → Position × FileLookup :=
  placeWith SourceFile.unadjustedPosition

end FileLookup

end Idl
