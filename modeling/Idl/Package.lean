/-
Idl/Package.lean

Packages: files that share a name and a scope.

A package is known by the name in its package clauses.  An import names it by the last segment
of its path, which is the id of the package; `importId?` finds it.
-/
import Idl.NameMap
import Idl.Syntax
import Idl.Text.Quoted

namespace Idl

/-- The part of a path behind its last slash. -/
def lastSegment (path : List Char) : List Char := (path.reverse.takeWhile (· ≠ '/')).reverse

/-- The id of the package that a quoted path names; `none` if the path is malformed or ends in a
slash. -/
def importId? (raw : String) : Option String :=
  (unquote? raw).bind fun path =>
    let id := lastSegment path.toList
    if id.isEmpty then none else some (String.ofList id)

/-- The id of the package that is imported. -/
def ImportSpec.id? (s : ImportSpec) : Option String := importId? s.path.text

/-- The files of one package, linked with one another. -/
structure Package where
  name : String
  /-- The scope of what the files declare. -/
  scope : ScopeId
  /-- The objects of the imported packages, by id. -/
  imports : NameMap ObjectId
  /-- The files, by name. -/
  files : NameMap File
  deriving DecidableEq

/-- Where the package starts: at the package clause of its first file. -/
def Package.begin (p : Package) : Pos := (p.files.values.head?.map (·.packagePos)).getD 0

end Idl
