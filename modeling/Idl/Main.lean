/-
Idl/Main.lean

The command line: `mid build [PATH] [--out FILE] [--strict]` and `mid check [PATH] [--strict]`.

The path is a project directory or a single file, and the current directory if none is given.
Diagnostics go to the standard error output.
-/
import Idl.Project

namespace Idl

/-! ### Arguments -/

/-- What the command line asks for. -/
structure Request where
  /-- Whether the result is written. -/
  writes : Bool
  path : Option String := none
  out : Option String := none
  strict : Bool := false

namespace Request

/-- How the command is used. -/
def usage : String :=
  "usage: mid build [PATH] [--out FILE] [--strict]\n       mid check [PATH] [--strict]"

/-- Reads the arguments behind the name of a command. -/
def options? (r : Request) : List String → Option Request
  | [] => some r
  | "--strict" :: args => options? { r with strict := true } args
  | "--out" :: file :: args =>
    if r.writes && r.out.isNone then options? { r with out := some file } args else none
  | arg :: args =>
    if r.path.isNone && !"-".isPrefixOf arg then options? { r with path := some arg } args
    else none

/-- Reads the arguments. -/
def ofArgs? : List String → Option Request
  | "build" :: args => options? { writes := true } args
  | "check" :: args => options? { writes := false } args
  | _ => none

/-- Does what is asked for. -/
def run {m : Type → Type} [Monad m] (r : Request) (h : Host m) : Work m Unit :=
  let path := Path.ofText (r.path.getD ".")
  if r.writes then Project.build h path (r.out.map .ofText) r.strict
  else Project.check h path r.strict

end Request

/-! ### The files of the machine -/

namespace Machine

/-- The result of an action, if it does not fail. -/
def attempt {α : Type} (action : IO α) : IO (Option α) := do
  try return some (← action) catch _ => return none

/-- What a path leads to. -/
def kind? (p : Path) : IO (Option PathKind) :=
  attempt do
    let there ← IO.FS.realPath p.text
    match (← there.metadata).type with
    | .file => return .file
    | .dir => return .directory
    | _ => return .other

/-- What an entry of a directory is.  Links are not followed. -/
def entryKind (type : IO.FS.FileType) : EntryKind :=
  match type with
  | .file => .file
  | .dir => .directory
  | .symlink => .link
  | .other => .other

/-- The entries of a directory. -/
def entries (p : Path) : IO (List (Option DirEntry)) := do
  let there ← (← IO.FS.realPath p.text).readDir
  there.toList.mapM fun entry => attempt do
    return ⟨EntryName.ofText? entry.fileName, entryKind (← entry.path.symlinkMetadata).type⟩

/-- The files of the machine. -/
def host : Host IO where
  kind? := kind?
  exists? p := return some (← kind? p).isSome
  readText? p := attempt (IO.FS.readFile p.text)
  entries? p := attempt (entries p)
  makeDirectories p := return (← attempt (IO.FS.createDirAll p.text)).isSome
  writeText p text := return (← attempt (IO.FS.writeFile p.text text)).isSome
  report lines := lines.forM IO.eprintln

end Machine

end Idl

def main (args : List String) : IO UInt32 := do
  match Idl.Request.ofArgs? args with
  | none =>
    IO.eprintln Idl.Request.usage
    return 2
  | some r =>
    match ← (r.run Idl.Machine.host).run with
    | .ok () => return 0
    | .error e =>
      IO.eprintln e.message
      return 1
