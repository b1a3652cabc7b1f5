/-
Idl/Project/Manifest.lean

The manifest of a project: where its sources are and what is made of them.

A manifest is a TOML document with the one key `project`, under which the settings stand.  Every
setting but the name has a default; a key that is no setting is refused, so that a misspelled one
does not pass for a default.
-/
import Idl.Toml.Read

namespace Idl

/-- The settings of a project. -/
structure Manifest where
  name : String
  /-- The directories that are searched for sources, relative to the root of the project. -/
  sourceDirs : List String := ["."]
  /-- The extension of sources, without the dot. -/
  suffix : String := "mid"
  /-- Where the result is written, relative to the root of the project. -/
  output : String := "mid.ir.json"
  /-- Whether unresolved names are errors. -/
  strict : Bool := false
  deriving DecidableEq, Repr

/-- What can be wrong with the text of a manifest. -/
inductive ManifestFault where
  /-- It is no TOML document, or it has other keys or values than the settings allow. -/
  | malformed
  /-- The extension is empty or has a dot. -/
  | invalidSuffix (suffix : String)
  deriving DecidableEq, Repr

/-! ### Values of settings -/

namespace TomlValue

/-- A text. -/
def text? : TomlValue → Option String
  | .text s => some s
  | _ => none

/-- A truth value. -/
def flag? : TomlValue → Option Bool
  | .flag b => some b
  | _ => none

/-- An array of texts. -/
def texts? : TomlValue → Option (List String)
  | .array vs => vs.mapM text?
  | _ => none

end TomlValue

namespace Manifest

/-- The settings of a project without a manifest. -/
def unnamed : Manifest := { name := "" }

/-- The keys of the settings. -/
def keys : List String := ["name", "source_dirs", "suffix", "output", "strict"]

/-- The entries of the settings.  They may also be given as an array of their values in the
order of `keys`, of which the last ones may be missing and what follows them does not count. -/
def entries? : TomlValue → Option TomlTable
  | .table _ t => if t.all fun e => keys.contains e.1 then some t else none
  | .array vs => some (keys.zip vs)
  | _ => none

/-- The value of a setting that has a default. -/
def setting? {α : Type} (t : TomlTable) (key : String) (default : α)
    (read : TomlValue → Option α) : Option α :=
  match t.lookup key with
  | none => some default
  | some v => read v

/-- The settings with the given entries. -/
def ofEntries? (t : TomlTable) : Option Manifest := do
  let name ← (t.lookup "name").bind TomlValue.text?
  return {
    name := name
    sourceDirs := ← setting? t "source_dirs" unnamed.sourceDirs TomlValue.texts?
    suffix := ← setting? t "suffix" unnamed.suffix TomlValue.text?
    output := ← setting? t "output" unnamed.output TomlValue.text?
    strict := ← setting? t "strict" unnamed.strict TomlValue.flag? }

/-- The settings that a document gives. -/
def ofDocument? : TomlTable → Option Manifest
  | [("project", v)] => (entries? v).bind ofEntries?
  | _ => none

/-- Whether an extension can be the one of sources. -/
def isValidSuffix (suffix : String) : Bool := !suffix.isEmpty && !suffix.toList.contains '.'

/-- Reads the text of a manifest. -/
def parse (text : String) : Except ManifestFault Manifest :=
  match (TomlDocument.parse? text).bind ofDocument? with
  | none => .error .malformed
  | some m => if isValidSuffix m.suffix then .ok m else .error (.invalidSuffix m.suffix)

end Manifest

end Idl
