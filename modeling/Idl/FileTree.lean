/-
Idl/FileTree.lean

Files and directories held in memory, and how paths lead through them.

There are no links, so that every file has one place, the list of names from the root.  A path
is followed name by name; every piece that more pieces follow has to be a directory, also if
those mean nothing.  Names are bytes, and those that are no text are kept apart: no path leads to
them.
-/
import Idl.Path

namespace Idl

/-- What can be in a directory, and the directory itself. -/
inductive FileTree where
  | file (content : ByteArray)
  /-- Neither a regular file nor a directory. -/
  | other
  /-- A directory, with the entries whose names are no text apart. -/
  | directory (entries : List (String × FileTree)) (nameless : List (ByteArray × FileTree))

namespace FileTree

/-- Whether this is a directory. -/
def isDirectory : FileTree → Bool
  | .directory .. => true
  | .file _ | .other => false

/-- The entry with a name, if this is a directory that has one. -/
def child? (name : String) : FileTree → Option FileTree
  | .file _ | .other => none
  | .directory es _ => es.lookup name

/-- What is at a place. -/
def at? : FileTree → List String → Option FileTree
  | t, [] => some t
  | t, n :: ns => (t.child? n).bind fun u => u.at? ns

/-- Puts an entry into a directory, in place of the one that may be there. -/
def putEntry (name : String) (new : FileTree) :
    List (String × FileTree) → List (String × FileTree)
  | [] => [(name, new)]
  | (n, t) :: es => if n = name then (n, new) :: es else (n, t) :: putEntry name new es

/-- Puts something at a place, with the directories that lead to it.  Files stay what they
are. -/
def put : FileTree → (place : List String) → (new : FileTree) → FileTree
  | _, [], new => new
  | .file content, _ :: _, _ => .file content
  | .other, _ :: _, _ => .other
  | .directory es nameless, n :: ns, new =>
    .directory (putEntry n (((es.lookup n).getD (.directory [] [])).put ns new) es) nameless

mutual

/-- The places of all files from here on that names lead to. -/
def places : FileTree → List (List String)
  | .file _ => [[]]
  | .other => []
  | .directory es _ => placesIn es

/-- The places of all files in the entries of a directory. -/
def placesIn : List (String × FileTree) → List (List String)
  | [] => []
  | (n, t) :: es => t.places.map (n :: ·) ++ placesIn es

end

end FileTree

/-! ### Following paths -/

/-- All files, and the directory from which relative paths start. -/
structure FileSystem where
  tree : FileTree
  workingDir : List String

namespace FileSystem

/-- Follows pieces from a place on.  The directory above the root is the root. -/
def follow? (tree : FileTree) : List String → (place : List String) → Option (List String)
  | [], place => if (tree.at? place).isSome then some place else none
  | piece :: rest, place =>
    match tree.at? place with
    | some (.directory ..) =>
      if piece = "" ∨ piece = "." then follow? tree rest place
      else if piece = ".." then follow? tree rest place.dropLast
      else follow? tree rest (place ++ [piece])
    | _ => none

/-- Whether a path is short enough to be followed at all. -/
def isPossiblePath (p : Path) : Bool := p.text.utf8ByteSize ≤ 4095

/-- Where a path starts. -/
def start (fs : FileSystem) (p : Path) : List String :=
  if p.isAbsolute then [] else fs.workingDir

/-- The place that a path leads to, if there is something.  The empty path leads nowhere. -/
def resolve? (fs : FileSystem) (p : Path) : Option (List String) :=
  if p.pieces = [""] ∨ !isPossiblePath p then none else follow? fs.tree p.pieces (fs.start p)

/-- What a path leads to. -/
def find? (fs : FileSystem) (p : Path) : Option FileTree := (fs.resolve? p).bind fs.tree.at?

/-- The content of the file that a path leads to. -/
def read? (fs : FileSystem) (p : Path) : Option ByteArray :=
  match fs.find? p with
  | some (.file content) => some content
  | _ => none

/-! ### Making files -/

/-- Whether a file or directory can have the name. -/
def isPossibleName (name : String) : Bool :=
  name.utf8ByteSize ≤ 255 && !name.toList.contains (Char.ofNat 0)

/-- Follows pieces from a place on, and makes the directories that are not there. -/
def makeDirectories : List String → (place : List String) → FileTree → Option FileTree
  | [], place, tree =>
    match tree.at? place with
    | some (.directory ..) => some tree
    | some _ => none
    | none => some (tree.put place (.directory [] []))
  | piece :: rest, place, tree =>
    match tree.at? place with
    | some (.file _) | some .other => none
    | here =>
      let tree := if here.isNone then tree.put place (.directory [] []) else tree
      if piece = "" ∨ piece = "." then makeDirectories rest place tree
      else if piece = ".." then makeDirectories rest place.dropLast tree
      else if isPossibleName piece then makeDirectories rest (place ++ [piece]) tree
      else none

/-- Makes a directory, and those that lead to it, where they are not there yet. -/
def makeDirectories? (fs : FileSystem) (p : Path) : Option FileSystem :=
  if isPossiblePath p then
    (makeDirectories p.pieces (fs.start p) fs.tree).map fun t => { fs with tree := t }
  else none

/-- Writes a file, whose directory has to be there. -/
def write? (fs : FileSystem) (p : Path) (content : ByteArray) : Option FileSystem :=
  match p.pieces.reverse with
  | [] => none
  | name :: front =>
    if name = "" ∨ name = "." ∨ name = ".." ∨ !isPossibleName name ∨ !isPossiblePath p then none
    else
      match follow? fs.tree front.reverse (fs.start p) with
      | none => none
      | some place =>
        match fs.tree.at? place, fs.tree.at? (place ++ [name]) with
        | some (.directory ..), some (.directory ..) => none
        | some (.directory ..), _ =>
          some { fs with tree := fs.tree.put (place ++ [name]) (.file content) }
        | _, _ => none

end FileSystem

end Idl
