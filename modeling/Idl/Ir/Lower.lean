/-
Idl/Ir/Lower.lean

From linked packages to the intermediate representation.

Everything has a place there: what could not be parsed is lowered as invalid.  The values are
found by the functions named `lower`, what there is to say about them by those named `warnings`,
so that the two can be looked at apart.  Only the sizes of arrays need more than the syntax: a
size that is a name stands for the number at the end of a chain of constants.
-/
import Idl.Diagnostic
import Idl.Ir
import Idl.Package
import Idl.Syntax.Tree

namespace Idl

/-- What lowering looks things up in. -/
structure LowerEnv where
  symbols : SymbolTable
  /-- The files of all packages. -/
  files : List File

namespace LowerEnv

/-! ### Constants -/

/-- How many constants a chain may have. -/
def maxConstChain : Nat := 16

/-- The file with the given number. -/
def file? (env : LowerEnv) (id : FileId) : Option File := env.files.find? (·.id = id)

/-- The object that an identifier of a file stands for. -/
def objectOf? (env : LowerEnv) (f : File) (i : Ident) : Option Object :=
  (f.resolutions.get? i.id).bind fun id => env.symbols.objects[id]?

/-- The declaration of a constant, and the file that holds it. -/
def constSpec? (env : LowerEnv) : Origin → Option (File × ConstSpec)
  | .spec file decl spec =>
    (env.file? file).bind fun f =>
      match f.decls[decl]? with
      | some (.consts g) => g.specs[spec]?.map (f, ·)
      | _ => none
  | _ => none

/-- The number at the end of a chain of at most `length` constants that starts with the one that
an identifier of `f` stands for. -/
def constValue? (env : LowerEnv) : Nat → File → Ident → Option UInt64
  | 0, _, _ => none
  | length + 1, f, i =>
    (env.objectOf? f i).bind fun o =>
      if o.kind = .const then
        (env.constSpec? o.origin).bind fun (f', spec) =>
          match spec.value with
          | some (.lit ⟨_, .int, text⟩) => intLiteral? text
          | some (.ident next) => env.constValue? length f' next
          | _ => none
      else none

end LowerEnv

/-! ### Comments and tags -/

/-- A doc comment as plain text. -/
def lowerDoc (g : Option CommentGroup) : String := (g.map fun g => g.text ++ "\n").getD ""

/-- A trailing comment as plain text. -/
def lowerComment (g : Option CommentGroup) : String := (g.map (·.text)).getD ""

/-- The tag that a literal stands for; a malformed one is ignored. -/
def lowerTag (l : Option Lit) : Tag := ((l.bind (unquote? ·.text)).map Tag.mk).getD {}

/-- The warning about a malformed tag. -/
def tagWarnings : Option Lit → List Diagnostic
  | none => []
  | some l =>
    if (unquote? l.text).isSome then [] else [.warning "malformed tag literal ignored" l.span]

/-! ### Values and types -/

/-- A value. -/
def Value.lower : Value → Ir.Expr
  | .bad _ => .invalid
  | .ident i => .ident i.name
  | .lit l => .lit l.kind l.text

section Types

variable (env : LowerEnv) (f : File)

/-- The size of an array. -/
def lowerSize : Value → Ir.ArraySize
  | .lit l =>
    match l.kind, intLiteral? l.text with
    | .int, some n => .literal n
    | _, _ => .invalid
  | .ident i => .const i.name (env.constValue? LowerEnv.maxConstChain f i)
  | .bad _ => .invalid

/-- The warning about a size that is no whole number.  A bad one is reported elsewhere. -/
def sizeWarnings (size : Value) : List Diagnostic :=
  let warn (text : String) (span : Span) : List Diagnostic :=
    if (lowerSize env f size).length?.isSome then []
    else [.warning ("array size \x60" ++ text ++ "\x60 is not an integer constant") span]
  match size with
  | .lit l => warn l.text l.span
  | .ident i => warn i.name i.span
  | .bad _ => []

/-- The id of the package that a qualifier stands for, and its spelling if it stands for none. -/
def lowerQualifier (qualifier : Ident) : String :=
  match (env.objectOf? f qualifier).map Object.origin with
  | some (.package id) => id
  | _ => qualifier.name

/-- A type. -/
def TypeExpr.lower : TypeExpr → Ir.Ty
  | .bad _ => .invalid
  | .basic name _ => .basic name.name
  | .array _ elem size _ => .array elem.lower (lowerSize env f size)
  | .vector _ elem _ => .vector elem.lower
  | .map _ key value _ => .map key.lower value.lower
  | .named qualifier name =>
    .struct ((qualifier.map (lowerQualifier env f)).getD "") name.name

/-- The warnings about a type. -/
def TypeExpr.warnings : TypeExpr → List Diagnostic
  | .array _ elem size _ => elem.warnings ++ sizeWarnings env f size
  | .vector _ elem _ => elem.warnings
  | .map _ key value _ => key.warnings ++ value.warnings
  | _ => []

/-- A parameter. -/
def Param.lower (p : Param) : Ir.Field :=
  { type := some (p.type.lower env f), names := (p.name.map (·.name)).toList }

/-- The type of a member. -/
def MemberType.lower : MemberType → Ir.Ty
  | .plain t => t.lower env f
  | .func s => .func (s.params.map (Param.lower env f)) (s.result.map (TypeExpr.lower env f))

/-- The warnings about the type of a member. -/
def MemberType.warnings : MemberType → List Diagnostic
  | .plain t => t.warnings env f
  | .func s =>
    s.params.flatMap (fun p => p.type.warnings env f) ++
      ((s.result.map (TypeExpr.warnings env f)).getD [])

/-! ### Declarations -/

/-- A member of a bean. -/
def Member.lower (m : Member) : Ir.Field where
  doc := lowerDoc m.doc
  options := m.options.map (·.name)
  type := m.type.map (MemberType.lower env f)
  names := m.names.map (·.name)
  default := m.value.map Value.lower
  tag := lowerTag m.tag
  comment := lowerComment m.comment

/-- Whether a member extends its bean, in which case its tag is left out. -/
def Bean.isExtension (b : Bean) (m : Member) : Bool := b.kind ≠ .enum && m.names.isEmpty

/-- The warnings about a member of a bean. -/
def Bean.memberWarnings (b : Bean) (m : Member) : List Diagnostic :=
  ((m.type.map (MemberType.warnings env f)).getD []) ++
    if b.isExtension m then [] else tagWarnings m.tag

/-- A bean. -/
def Bean.lower (b : Bean) : Ir.Bean where
  kind := b.kind
  doc := lowerDoc b.doc
  name := b.name.name
  extended := (b.body.members.filter b.isExtension).filterMap fun m =>
    m.type.map (MemberType.lower env f)
  tag := lowerTag b.tag
  fields := (b.body.members.filter fun m => !b.isExtension m).map (Member.lower env f)

/-- The warnings about a bean: those about its members, and then those about its own tag. -/
def Bean.warnings (b : Bean) : List Diagnostic :=
  b.body.members.flatMap (b.memberWarnings env f) ++ tagWarnings b.tag

/-- An import. -/
def ImportSpec.lower (s : ImportSpec) : Ir.ImportSpec where
  doc := lowerDoc s.doc
  name := (s.localName.map (·.name)).getD ""
  package := (unquote? s.path.text).getD s.path.text
  comment := lowerComment s.comment

/-- A constant. -/
def ConstSpec.lower (s : ConstSpec) : Ir.ConstSpec where
  doc := lowerDoc s.doc
  name := s.name.name
  value := (s.value.map Value.lower).getD .invalid
  comment := lowerComment s.comment

/-- Imports or constants; a bad declaration and a bean are neither. -/
def Decl.lowerGroup? : Decl → Option Ir.GenDecl
  | .imports g => some { doc := lowerDoc g.doc, imports := g.specs.map ImportSpec.lower }
  | .consts g => some { doc := lowerDoc g.doc, consts := g.specs.map ConstSpec.lower }
  | _ => none

/-- The bean that a declaration declares. -/
def Decl.bean? : Decl → Option Bean
  | .bean b => some b
  | _ => none

end Types

/-! ### Files and packages -/

/-- What a bad node stands in for, in words. -/
def BadNode.text : BadNode → String
  | .decl => "declaration"
  | .type => "type"
  | .expr => "expression"

/-- The warning about a bad node. -/
def badNodeWarning? : Node → Option Diagnostic
  | .bad what span =>
    some (.warning ("malformed " ++ what.text ++ " lowered as invalid")
      ⟨span.start, max span.stop span.start⟩)
  | _ => none

/-- A file. -/
def File.lower (env : LowerEnv) (f : File) : Ir.File where
  filename := f.filename
  doc := lowerDoc f.doc
  package := f.name.name
  beans := (f.decls.filterMap Decl.bean?).map (Bean.lower env f)
  decls := f.decls.filterMap Decl.lowerGroup?
  unresolved := f.unresolved.map (·.name)

/-- The warnings about a file: those about bad nodes, and then those about its beans. -/
def File.warnings (env : LowerEnv) (f : File) : List Diagnostic :=
  f.tree.nodes.filterMap badNodeWarning? ++
    (f.decls.filterMap Decl.bean?).flatMap (Bean.warnings env f)

/-- The paths of the packages that a package imports, by id: of the imports with one id, the path
of the first. -/
def Package.lowerImports (p : Package) : NameMap String :=
  (p.files.values.flatMap File.imports).foldl (fun paths spec =>
    match spec.id? with
    | some id =>
      if p.imports.contains id then paths.insertNew id ((unquote? spec.path.text).getD "")
      else paths
    | none => paths) .empty

/-- A package. -/
def Package.lower (env : LowerEnv) (p : Package) : Ir.Package where
  name := p.name
  imports := p.lowerImports
  files := p.files.values.map (File.lower env)

/-- The environment of all packages. -/
def LowerEnv.ofPackages (packages : NameMap Package) (symbols : SymbolTable) : LowerEnv where
  symbols := symbols
  files := packages.values.flatMap fun p => p.files.values

/-- The intermediate representation of linked packages. -/
def Ir.ofPackages (packages : NameMap Idl.Package) (symbols : SymbolTable) : Ir where
  packages := packages.values.map (Idl.Package.lower (.ofPackages packages symbols))

/-- What there is to say about linked packages that are lowered. -/
def loweringWarnings (packages : NameMap Package) (symbols : SymbolTable) : List Diagnostic :=
  packages.values.flatMap fun p =>
    p.files.values.flatMap (File.warnings (.ofPackages packages symbols))

end Idl
