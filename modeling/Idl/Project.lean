/-
Idl/Project.lean

Projects: finding their sources, compiling them and writing the result.

A directory is a project of the sources that its manifest names.  A file is one of its own, with
the manifest of its directory.  The first thing that cannot be done ends the work.
-/
import Idl.Compilation
import Idl.Ir.Encode
import Idl.Project.Host
import Idl.Project.Manifest

namespace Idl

/-- Why the search of a directory ended early. -/
inductive SearchFault where
  | notRead (directory : Path)
  /-- An entry of the directory cannot be looked at. -/
  | entryNotRead (directory : Path)
  /-- The name of an entry is no text. -/
  | nameless
  deriving DecidableEq, Repr

/-- The reason in words; what cannot be looked at is left to the words of the system. -/
def SearchFault.message? : SearchFault → Option String
  | .notRead d => some ("Failed to read directory '" ++ d.text ++ "'")
  | .entryNotRead _ => none
  | .nameless => some "Non-UTF-8 path"

/-- Why the work on a project ended early. -/
inductive ProjectError where
  | missing (path : Path)
  | manifestNotFollowed (manifest : Path)
  | manifestNotRead (manifest : Path)
  | manifest (manifest : Path) (fault : ManifestFault)
  /-- A source directory cannot be searched, for the reason that is given. -/
  | notSearched (directory : Path) (fault : SearchFault)
  | noSources (suffix : String) (root : Path)
  | notRead (file : Path)
  | errors (count files : Nat)
  | notCreated (directory : Path)
  | notWritten (file : Path)
  deriving DecidableEq, Repr

/-- The reason in words, without the reasons behind it. -/
def ProjectError.message : ProjectError → String
  | .missing p => "Path '" ++ p.text ++ "' does not exist"
  | .manifestNotFollowed p => "Failed to stat manifest '" ++ p.text ++ "'"
  | .manifestNotRead p => "Failed to read manifest '" ++ p.text ++ "'"
  | .manifest p .malformed => "Failed to parse manifest '" ++ p.text ++ "'"
  | .manifest p (.invalidSuffix suffix) =>
    "Invalid suffix '" ++ suffix ++ "' in '" ++ p.text ++
      "': expected an extension without the dot"
  | .notSearched p _ => "Failed to search source directory '" ++ p.text ++ "'"
  | .noSources suffix root =>
    "No ." ++ suffix ++ " source files found in '" ++ root.text ++ "'"
  | .notRead p => "Failed to read '" ++ p.text ++ "'"
  | .errors count files =>
    toString count ++ " error(s) in " ++ toString files ++ " file(s)"
  | .notCreated p => "Failed to create '" ++ p.text ++ "'"
  | .notWritten p => "Failed to write '" ++ p.text ++ "'"

/-- A project whose sources have been read. -/
structure Project where
  root : Path
  manifest : Manifest
  /-- The sources, named relative to the root, in the order of their paths. -/
  sources : List Source

/-- What the work on a project is done with. -/
abbrev Work (m : Type → Type) := ExceptT ProjectError m

namespace Project

variable {m : Type → Type} [Monad m]

/-! ### Finding and reading -/

/-- The path of the manifest below the root of a project. -/
def manifestName : Path := .ofText "mid.toml"

/-- Reads the manifest of a project, if there is one. -/
def findManifest (h : Host m) (root : Path) : Work m (Option Manifest) := do
  let path := root.join manifestName
  match ← h.exists? path with
  | none => throw (.manifestNotFollowed path)
  | some false => return none
  | some true =>
    match ← h.readText? path with
    | none => throw (.manifestNotRead path)
    | some text =>
      match Manifest.parse text with
      | .ok manifest => return some manifest
      | .error fault => throw (.manifest path fault)

/-- Collects the files with the suffix from a directory and those below it, in the order in which they are
listed.  Links are skipped, and so is what is neither a file nor a directory.  No directory can be read
whose path is longer than any path may be, which is why the search comes to an end. -/
def collectSources (h : Host m) (suffix : String) (directory : Path) :
    ExceptT SearchFault m (List Path) := do
  if _hpath : FileSystem.isPossiblePath directory then
    match ← h.entries? directory with
    | none => throw (.notRead directory)
    | some entries =>
      let found ← entries.mapM fun
        | none => throw (.entryNotRead directory)
        | some ⟨_, .link⟩ => return []
        | some ⟨none, _⟩ => throw .nameless
        | some ⟨some name, .directory⟩ => collectSources h suffix (directory.join ⟨[name.text]⟩)
        | some ⟨some name, .file⟩ =>
          return [directory.join ⟨[name.text]⟩].filter fun p => p.extension? == some suffix
        | some ⟨some _, .other⟩ => return []
      return found.flatten
  else throw (.notRead directory)
termination_by 4096 - directory.pieceBytes
decreasing_by
  have hle := directory.pieceBytes_le
  have hlimit : directory.text.utf8ByteSize ≤ 4095 := of_decide_eq_true _hpath
  have hname : 0 < name.text.utf8ByteSize :=
    Nat.pos_of_ne_zero fun hzero => name.nonempty (String.utf8ByteSize_eq_zero_iff.1 hzero)
  rw [Path.pieceBytes_join]
  omega

/-- The sources of a project, each once, in the order of their paths. -/
def findSources (h : Host m) (root : Path) (manifest : Manifest) : Work m (List Path) := do
  let found ← manifest.sourceDirs.mapM fun d =>
    let directory := root.join (.ofText d)
    (collectSources h manifest.suffix directory).adapt (ProjectError.notSearched directory)
  return Path.sortDistinct found.flatten

/-- The name of a source: its path relative to the root. -/
def sourceName (root file : Path) : String := ((file.relativeTo? root).getD file).text

/-- Reads a source. -/
def readSource (h : Host m) (root file : Path) : Work m Source := do
  match ← h.readText? file with
  | none => throw (.notRead file)
  | some text => return ⟨sourceName root file, text⟩

/-- The root of the project that consists of one file: its directory. -/
def rootOfFile (file : Path) : Path :=
  match file.parent? with
  | some parent => if parent.text = "" then .ofText "." else parent
  | none => .ofText "."

/-- The root of the project that a path leads to, and its only source if it is a file. -/
def locate (h : Host m) (path : Path) : Work m (Path × Option Path) := do
  match ← h.kind? path with
  | some .directory => return (path, none)
  | some .file => return (rootOfFile path, some path)
  | _ => throw (.missing path)

/-- Finds a project and reads its sources. -/
def load (h : Host m) (path : Path) : Work m Project := do
  let (root, single) ← locate h path
  let manifest := (← findManifest h root).getD .unnamed
  let files ← match single with
    | some file => pure [file]
    | none => findSources h root manifest
  if files.isEmpty then throw (.noSources manifest.suffix root)
  return ⟨root, manifest, ← files.mapM (readSource h root)⟩

/-! ### Compiling and writing -/

/-- The errors that end the work on a project, if there are any. -/
def failure? (p : Project) (diagnostics : List Diagnostic) : Option ProjectError :=
  let errors := diagnostics.countP (·.isError)
  if errors = 0 then none else some (.errors errors p.sources.length)

/-- Compiles a project and reports all diagnostics.  Errors end the work. -/
def compile (h : Host m) (p : Project) (strict : Bool) : Work m Compilation := do
  let c := Idl.compile p.sources
  let diagnostics := c.allDiagnostics (strict || p.manifest.strict)
  h.report (diagnostics.map fun d => d.render c.files)
  match p.failure? diagnostics with
  | some e => throw e
  | none => return c

/-- Writes a file, and makes its directory if that is not there. -/
def writeOutput (h : Host m) (output : Path) (text : String) : Work m Unit := do
  if let some parent := output.parent? then
    if parent.text ≠ "" then
      if !(← h.makeDirectories parent) then throw (.notCreated parent)
  if !(← h.writeText output text) then throw (.notWritten output)

/-- Where the result of a project is written, if not elsewhere. -/
def output (p : Project) : Path := p.root.join (.ofText p.manifest.output)

/-- Compiles a project and writes its intermediate representation. -/
def build (h : Host m) (path : Path) (out : Option Path) (strict : Bool) : Work m Unit := do
  let p ← load h path
  let c ← compile h p strict
  writeOutput h (out.getD p.output) c.ir.encode

/-- Compiles a project, and writes nothing. -/
def check (h : Host m) (path : Path) (strict : Bool) : Work m Unit := do
  let p ← load h path
  let _ ← compile h p strict

end Project

end Idl
