/-
Idl/Project/Host.lean

What a project asks of the place where it is: files and directories, and someone to report to.

The steps of a build are written once, for any host.  `FileSystem.host` is one whose files are
held in memory.
-/
import Idl.FileTree

namespace Idl

/-- What a path can lead to. -/
inductive PathKind where
  | file
  | directory
  /-- It is there, but neither a regular file nor a directory. -/
  | other
  deriving DecidableEq, Repr

/-- The name of an entry of a directory.  It is not empty. -/
structure EntryName where
  text : String
  nonempty : text ≠ ""

/-- A text as the name of an entry, if it can be one. -/
def EntryName.ofText? (text : String) : Option EntryName :=
  if h : text = "" then none else some ⟨text, h⟩

/-- What an entry of a directory can be.  Links are not followed. -/
inductive EntryKind where
  | file
  | directory
  | link
  | other
  deriving DecidableEq, Repr

/-- An entry of a directory. -/
structure DirEntry where
  /-- The name, if it is a text. -/
  name? : Option EntryName
  kind : EntryKind

/-- The operations of a host. -/
structure Host (m : Type → Type) where
  /-- What a path leads to, if anything. -/
  kind? : Path → m (Option PathKind)
  /-- Whether a path leads to anything, if that can be told. -/
  exists? : Path → m (Option Bool)
  /-- The text of a file, unless it cannot be read or is no UTF-8. -/
  readText? : Path → m (Option String)
  /-- The entries of a directory, in any order, unless it cannot be listed.  Of an entry, too, it may be
  that it cannot be looked at. -/
  entries? : Path → m (Option (List (Option DirEntry)))
  /-- Makes a directory and those that lead to it, and tells whether it is there now. -/
  makeDirectories : Path → m Bool
  /-- Writes a file, and tells whether that was possible. -/
  writeText : Path → String → m Bool
  /-- Reports diagnostics, as rendered. -/
  report : List String → m Unit

namespace FileSystem

/-- What is at a path. -/
def kind? (fs : FileSystem) (p : Path) : Option PathKind :=
  (fs.find? p).map fun
    | .file _ => .file
    | .other => .other
    | .directory .. => .directory

/-- Whether there is something at a path.  For one that is too long this cannot be told. -/
def exists? (fs : FileSystem) (p : Path) : Option Bool :=
  if isPossiblePath p then some (fs.find? p).isSome else none

/-- The text of a file, if it is UTF-8. -/
def readText? (fs : FileSystem) (p : Path) : Option String := (fs.read? p).bind String.fromUTF8?

/-- What a listing tells of an entry. -/
def kindOfEntry : FileTree → EntryKind
  | .file _ => .file
  | .other => .other
  | .directory .. => .directory

/-- The entries of a directory. -/
def entries? (fs : FileSystem) (p : Path) : Option (List (Option DirEntry)) :=
  match fs.find? p with
  | some (.directory es nameless) =>
    some (es.map (fun e => some ⟨EntryName.ofText? e.1, kindOfEntry e.2⟩) ++
      nameless.map fun e => some ⟨none, kindOfEntry e.2⟩)
  | _ => none

/-- Does a change that may be impossible, and tells whether it was done. -/
def attempt (change : FileSystem → Option FileSystem) : StateM FileSystem Bool := fun fs =>
  match change fs with
  | some fs => (true, fs)
  | none => (false, fs)

/-- The host whose files are held in memory.  Nobody hears its reports. -/
def host : Host (StateM FileSystem) where
  kind? p := fun fs => (fs.kind? p, fs)
  exists? p := fun fs => (fs.exists? p, fs)
  readText? p := fun fs => (fs.readText? p, fs)
  entries? p := fun fs => (fs.entries? p, fs)
  makeDirectories p := attempt (·.makeDirectories? p)
  writeText p text := attempt (·.write? p text.toUTF8)
  report _ := pure ()

end FileSystem

end Idl
