/-
Idl/Ir/Encode.lean

The intermediate representation as JSON.

A record becomes an object with its fields in order; a field that is empty is left out, but for
the few that are always there.  A type is an object whose first member, `kind`, says of which
sort it is.
-/
import Idl.Ir
import Idl.Json

namespace Idl

namespace Ir

/-! ### Fields that may be left out -/

/-- A text, left out if it is empty. -/
def textField (name text : String) : List (String × Json) :=
  if text.isEmpty then [] else [(name, .ofString text)]

/-- A list, left out if it is empty. -/
def listField (name : String) (items : List Json) : List (String × Json) :=
  if items.isEmpty then [] else [(name, .array items)]

/-- A value that there may be. -/
def optionField (name : String) (value : Option Json) : List (String × Json) :=
  value.toList.map (name, ·)

/-! ### Types and values -/

/-- The size of an array. -/
def ArraySize.toJson : ArraySize → Json
  | .literal n => .ofFields [("literal", .ofNat n.toNat)]
  | .const name value =>
    let value := match value with
      | some n => .ofNat n.toNat
      | none => .null
    .ofFields [("const", .ofFields [("name", .ofString name), ("value", value)])]
  | .invalid => .ofString "invalid"

mutual

/-- A type. -/
def Ty.toJson : Ty → Json
  | .basic name => .ofFields [("kind", .ofString "basic"), ("name", .ofString name)]
  | .array elem size =>
    .ofFields [("kind", .ofString "array"), ("elem", elem.toJson), ("size", size.toJson)]
  | .vector elem => .ofFields [("kind", .ofString "vector"), ("elem", elem.toJson)]
  | .map key value =>
    .ofFields [("kind", .ofString "map"), ("key", key.toJson), ("value", value.toJson)]
  | .struct package name =>
    .ofFields ([("kind", .ofString "struct")] ++ textField "package" package ++
      [("name", .ofString name)])
  | .func params result =>
    .ofFields ([("kind", .ofString "func"), ("params", .array (Field.listToJson params))] ++
      optionField "result" (Ty.optionToJson result))
  | .invalid => .ofFields [("kind", .ofString "invalid")]

/-- A type that there may be. -/
def Ty.optionToJson : Option Ty → Option Json
  | some t => some t.toJson
  | none => none

/-- A field. -/
def Field.toJson : Field → Json
  | ⟨doc, options, type, names, default, tag, comment⟩ =>
    .ofFields (textField "doc" doc ++ listField "options" (options.map .ofString) ++
      optionField "type" (Ty.optionToJson type) ++ listField "names" (names.map .ofString) ++
      optionField "default" (Expr.optionToJson default) ++ textField "tag" tag.text ++
      textField "comment" comment)

/-- Fields. -/
def Field.listToJson : List Field → List Json
  | [] => []
  | f :: fs => f.toJson :: Field.listToJson fs

/-- A value. -/
def Expr.toJson : Expr → Json
  | .ident name => .ofFields [("ident", .ofString name)]
  | .lit kind text =>
    .ofFields [("lit", .ofFields [("kind", .ofString kind.text), ("value", .ofString text)])]
  | .type t => .ofFields [("type", t.toJson)]
  | .invalid => .ofString "invalid"

/-- A value that there may be. -/
def Expr.optionToJson : Option Expr → Option Json
  | some e => some e.toJson
  | none => none

end

/-! ### Declarations -/

/-- A bean. -/
def Bean.toJson (b : Bean) : Json :=
  .ofFields (optionField "id" (b.id.map fun id => .ofNat id.toNat) ++
    [("kind", .ofString b.kind.text)] ++ textField "doc" b.doc ++ [("name", .ofString b.name)] ++
    listField "extends" (b.extended.map Ty.toJson) ++ textField "tag" b.tag.text ++
    [("fields", .array (b.fields.map Field.toJson))] ++ textField "comment" b.comment)

/-- An import. -/
def ImportSpec.toJson (s : ImportSpec) : Json :=
  .ofFields (textField "doc" s.doc ++ textField "name" s.name ++
    [("package", .ofString s.package)] ++ textField "comment" s.comment)

/-- A constant. -/
def ConstSpec.toJson (s : ConstSpec) : Json :=
  .ofFields (textField "doc" s.doc ++ [("name", .ofString s.name), ("value", s.value.toJson)] ++
    textField "comment" s.comment)

/-- Imports or constants. -/
def GenDecl.toJson (d : GenDecl) : Json :=
  .ofFields (textField "doc" d.doc ++ listField "imports" (d.imports.map ImportSpec.toJson) ++
    listField "consts" (d.consts.map ConstSpec.toJson))

/-! ### Files and packages -/

/-- A file. -/
def File.toJson (f : File) : Json :=
  .ofFields ([("filename", .ofString f.filename)] ++ textField "doc" f.doc ++
    [("package", .ofString f.package)] ++ listField "beans" (f.beans.map Bean.toJson) ++
    listField "decls" (f.decls.map GenDecl.toJson) ++
    listField "unresolved" (f.unresolved.map .ofString))

/-- The paths of imported packages. -/
def importsToJson (imports : NameMap String) : Json :=
  .ofFields (imports.entries.map fun e => (e.1, .ofString e.2))

/-- A package. -/
def Package.toJson (p : Package) : Json :=
  .ofFields ([("name", .ofString p.name)] ++
    (if p.imports.isEmpty then [] else [("imports", importsToJson p.imports)]) ++
    [("files", .array (p.files.map File.toJson))])

/-- The intermediate representation. -/
def toJson (ir : Ir) : Json := .ofFields [("packages", .array (ir.packages.map Package.toJson))]

/-- The intermediate representation as the text of a JSON value. -/
def encode (ir : Ir) : String := ir.toJson.pretty

end Ir

end Idl
