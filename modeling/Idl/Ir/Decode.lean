/-
Idl/Ir/Decode.lean

The intermediate representation read from JSON.

Reading is liberal where writing has a choice: fields come in any order, empty ones may be left
out or not, and what is unknown is passed over.  The kind of a type may stand anywhere in its
object, so the whole object is read before its fields are; within it, `inType` holds, and the
readers accept a little more.  JSON that nests deeper than `maxNesting` levels is refused.
-/
import Idl.Ir
import Idl.Json.Read
import Idl.Json.Record

namespace Idl

namespace Ir

/-! ### Choices -/

/-- Reads the empty content of a choice that has none. -/
def unitContent? (inType : Bool) : Json → Option Unit
  | .null => some ()
  | .object [] => if inType then some () else none
  | _ => none

/-- A choice and its content, if it has any. -/
def choice? (levels : Nat) (j : Json) : Option (Nat × String × Option Json) :=
  match j.string? with
  | some name => some (levels, name, none)
  | none =>
    match j.members? levels with
    | some (levels, [(name, content)]) => some (levels, name, some content)
    | _ => none

/-- One of several words. -/
def word? {α : Type} (inType : Bool) (all : List α) (text : α → String) (levels : Nat)
    (j : Json) : Option α := do
  let (_, name, content) ← choice? levels j
  if let some content := content then
    unitContent? inType content
  all.find? (text · = name)

/-- The size of an array. -/
def ArraySize.ofJson? (levels : Nat) (j : Json) : Option ArraySize := do
  let word (n : Nat) : UInt64 := UInt64.ofNat n
  let (levels, name, content) ← choice? levels j
  match name, content with
  | "literal", some c => return .literal (word (← c.natBelow? (UInt64.size)))
  | "const", some c =>
    let (_, r) ← JsonRecord.read? ["name", "value"] levels c
    if r.positional && (r.find? "value").isNone then
      none
    let value ← r.optional "value" (Json.natBelow? (UInt64.size))
    return .const (← r.required "name" Json.string?) (value.map word)
  | "invalid", none => return .invalid
  | "invalid", some c =>
    unitContent? true c
    return .invalid
  | _, _ => none

/-! ### Types, fields and values -/

/-- The kinds of types, in their order. -/
def tyKinds : List String := ["basic", "array", "vector", "map", "struct", "func", "invalid"]

/-- The kind of a type.  Inside another type its place among the kinds will do. -/
def kindName? (inType : Bool) (j : Json) : Option String :=
  match j.string? with
  | some name => some name
  | none => if inType then j.nat?.bind (tyKinds[·]?) else none

/-- The kind of a type, and the rest of its record. -/
def tagged? (inType : Bool) : Json → Option (String × Json)
  | .object ms =>
    match ms.filter (·.1 = some "kind") with
    | [(_, kind)] => (kindName? inType kind).map (·, .object (ms.filter (·.1 ≠ some "kind")))
    | _ => none
  | .array (kind :: xs) => (kindName? inType kind).map (·, .array xs)
  | _ => none

/-- The kinds of literals. -/
def litKinds : List LitKind := [.int, .float, .char, .string]

mutual

/-- A type. -/
def Ty.ofJson? (inType : Bool) : Nat → Json → Option Ty
  | 0, _ => none
  | levels + 1, j => do
    if !inType && !j.fits (levels + 1) then
      none
    let (kind, body) ← tagged? inType j
    let record (names : List String) : Option JsonRecord :=
      (JsonRecord.read? names (levels + 1) body).map (·.2)
    match kind with
    | "basic" =>
      let r ← record ["name"]
      return .basic (← r.required "name" Json.string?)
    | "array" =>
      let r ← record ["elem", "size"]
      return .array (← r.required "elem" (Ty.ofJson? true levels))
        (← r.required "size" (ArraySize.ofJson? levels))
    | "vector" =>
      let r ← record ["elem"]
      return .vector (← r.required "elem" (Ty.ofJson? true levels))
    | "map" =>
      let r ← record ["key", "value"]
      return .map (← r.required "key" (Ty.ofJson? true levels))
        (← r.required "value" (Ty.ofJson? true levels))
    | "struct" =>
      let r ← record ["package", "name"]
      return .struct (← r.textOrEmpty "package") (← r.required "name" Json.string?)
    | "func" =>
      let r ← record ["params", "result"]
      let params ← r.withDefault "params" [] fun j =>
        (j.items? levels).bind fun (_, xs) => xs.mapM (Field.ofJson? true levels)
      return .func params (← r.optional "result" (Ty.ofJson? true levels))
    | "invalid" =>
      match body with
      | .array (_ :: _) => none
      | _ => return .invalid
    | _ => none

/-- A field. -/
def Field.ofJson? (inType : Bool) : Nat → Json → Option Field
  | 0, _ => none
  | levels + 1, j => do
    let names := ["doc", "options", "type", "names", "default", "tag", "comment"]
    let (_, r) ← JsonRecord.read? names (levels + 1) j
    return {
      doc := ← r.textOrEmpty "doc"
      options := ← r.withDefault "options" [] (Json.strings? levels)
      type := ← r.optional "type" (Ty.ofJson? inType levels)
      names := ← r.withDefault "names" [] (Json.strings? levels)
      default := ← r.optional "default" (Expr.ofJson? inType levels)
      tag := ⟨← r.textOrEmpty "tag"⟩
      comment := ← r.textOrEmpty "comment" }

/-- A value. -/
def Expr.ofJson? (inType : Bool) : Nat → Json → Option Expr
  | 0, j => do
    let (_, name, _) ← choice? 0 j
    if name = "invalid" then return .invalid else none
  | levels + 1, j => do
    let (_, name, content) ← choice? (levels + 1) j
    match name, content with
    | "ident", some c => return .ident (← c.string?)
    | "lit", some c =>
      let (levels, r) ← JsonRecord.read? ["kind", "value"] levels c
      let kind ← r.required "kind" (word? inType litKinds LitKind.text levels)
      return .lit kind (← r.required "value" Json.string?)
    | "type", some c => return .type (← Ty.ofJson? inType levels c)
    | "invalid", none => return .invalid
    | "invalid", some c =>
      unitContent? inType c
      return .invalid
    | _, _ => none

end

/-! ### Declarations -/

/-- A bean. -/
def Bean.ofJson? (levels : Nat) (j : Json) : Option Bean := do
  let names := ["id", "kind", "doc", "name", "extends", "tag", "fields", "comment"]
  let (levels, r) ← JsonRecord.read? names levels j
  let id ← r.optional "id" (Json.natBelow? (UInt32.size))
  return {
    id := id.map UInt32.ofNat
    kind := ← r.required "kind" (word? false BeanKind.all BeanKind.text levels)
    doc := ← r.textOrEmpty "doc"
    name := ← r.required "name" Json.string?
    extended := ← r.withDefault "extends" [] (Json.list? (Ty.ofJson? false) levels)
    tag := ⟨← r.textOrEmpty "tag"⟩
    fields := ← r.withDefault "fields" [] (Json.list? (Field.ofJson? false) levels)
    comment := ← r.textOrEmpty "comment" }

/-- An import. -/
def ImportSpec.ofJson? (levels : Nat) (j : Json) : Option ImportSpec := do
  let (_, r) ← JsonRecord.read? ["doc", "name", "package", "comment"] levels j
  return {
    doc := ← r.textOrEmpty "doc"
    name := ← r.textOrEmpty "name"
    package := ← r.required "package" Json.string?
    comment := ← r.textOrEmpty "comment" }

/-- A constant. -/
def ConstSpec.ofJson? (levels : Nat) (j : Json) : Option ConstSpec := do
  let (levels, r) ← JsonRecord.read? ["doc", "name", "value", "comment"] levels j
  return {
    doc := ← r.textOrEmpty "doc"
    name := ← r.required "name" Json.string?
    value := ← r.required "value" (Expr.ofJson? false levels)
    comment := ← r.textOrEmpty "comment" }

/-- Imports or constants. -/
def GenDecl.ofJson? (levels : Nat) (j : Json) : Option GenDecl := do
  let (levels, r) ← JsonRecord.read? ["doc", "imports", "consts"] levels j
  return {
    doc := ← r.textOrEmpty "doc"
    imports := ← r.withDefault "imports" [] (Json.list? ImportSpec.ofJson? levels)
    consts := ← r.withDefault "consts" [] (Json.list? ConstSpec.ofJson? levels) }

/-! ### Files and packages -/

/-- A file. -/
def File.ofJson? (levels : Nat) (j : Json) : Option File := do
  let names := ["filename", "doc", "package", "beans", "decls", "unresolved"]
  let (levels, r) ← JsonRecord.read? names levels j
  return {
    filename := ← r.required "filename" Json.string?
    doc := ← r.textOrEmpty "doc"
    package := ← r.required "package" Json.string?
    beans := ← r.withDefault "beans" [] (Json.list? Bean.ofJson? levels)
    decls := ← r.withDefault "decls" [] (Json.list? GenDecl.ofJson? levels)
    unresolved := ← r.withDefault "unresolved" [] (Json.strings? levels) }

/-- The paths of imported packages. -/
def importsOfJson? (levels : Nat) (j : Json) : Option (NameMap String) := do
  let (_, ms) ← j.members? levels
  let paths ← ms.mapM fun m => m.2.string?.map (m.1, ·)
  return NameMap.ofList paths

/-- A package. -/
def Package.ofJson? (levels : Nat) (j : Json) : Option Package := do
  let (levels, r) ← JsonRecord.read? ["name", "imports", "files"] levels j
  return {
    name := ← r.required "name" Json.string?
    imports := ← r.withDefault "imports" .empty (importsOfJson? levels)
    files := ← r.required "files" (Json.list? File.ofJson? levels) }

/-- How deep JSON may nest. -/
def maxNesting : Nat := 127

/-- The intermediate representation. -/
def ofJson? (j : Json) : Option Ir := do
  let (levels, r) ← JsonRecord.read? ["packages"] maxNesting j
  return { packages := ← r.required "packages" (Json.list? Package.ofJson? levels) }

/-- The intermediate representation that the text of a JSON value stands for. -/
def decode? (text : String) : Option Ir := (Json.parse? text).bind ofJson?

end Ir

end Idl
