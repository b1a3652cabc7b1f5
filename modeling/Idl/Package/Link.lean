/-
Idl/Package/Link.lean

Linking files into packages.

Files with the same package name share a scope, into which the constants and beans of all of
them are merged; a name declared by two files is reported.  Then each file is linked on its own:
its imports bind local names to packages, its pending names are looked up in its package and
after that in the packages imported by a dot, and its qualified names in the packages that its
imports bind.  What is found nowhere stays among the unresolved names of the file.

Packages are linked in the order of their names, and the files of a package in the order in
which they were given.
-/
import Idl.Package
import Idl.Diagnostic
import Idl.Syntax.Binding

namespace Idl

/-! ### Results -/

/-- A name that stands for nothing. -/
structure UnresolvedIdent where
  package : String
  filename : String
  name : String
  pos : Pos
  deriving DecidableEq, Repr

/-- Linked packages. -/
structure Linked where
  packages : NameMap Package
  unresolved : List UnresolvedIdent
  diagnostics : List Diagnostic
  symbols : SymbolTable

/-! ### Steps -/

/-- What linking changes as it goes. -/
structure LinkState where
  symbols : SymbolTable
  diagnostics : Array Diagnostic := #[]

/-- A step of linking. -/
abbrev Link := StateM LinkState

namespace Link

/-- Reports an error. -/
def report (message : String) (span : Span) : Link Unit :=
  modify fun s => { s with diagnostics := s.diagnostics.push (.error message span) }

end Link

/-! ### Grouping files -/

/-- The files of a package that is to be linked. -/
structure PackageFiles where
  scope : ScopeId
  /-- In the order in which they were given. -/
  files : List File

/-- Groups files by package and gives each package a scope. -/
def groupFiles (files : List File) (symbols : SymbolTable) :
    NameMap PackageFiles × SymbolTable :=
  files.foldl (fun (groups, symbols) f =>
    match groups.find? f.name.name with
    | some g => (groups.insert f.name.name { g with files := g.files ++ [f] }, symbols)
    | none =>
      let (scope, symbols) := symbols.newScope none
      (groups.insert f.name.name ⟨scope, [f]⟩, symbols))
    (NameMap.empty, symbols)

/-! ### Merging scopes -/

/-- Names an object of a file in the scope of the package. -/
def mergeObject (files : FileSet) (packageScope : ScopeId) (id : ObjectId) : Link Unit := do
  let s ← get
  let (existing, symbols) := s.symbols.insert packageScope id
  set { s with symbols }
  match existing, symbols.objects[id]? with
  | some existing, some o =>
    Link.report (redeclaredMessage o.name (some (files.position (symbols.posOf existing))))
      (.ofWidth o.pos o.name.utf8ByteSize)
  | _, _ => return ()

/-- Names the objects of a file in the scope of the package, in the order of their positions. -/
def mergeFile (files : FileSet) (packageScope : ScopeId) (f : File) : Link Unit := do
  ((← get).symbols.objectsIn f.scope).forM (mergeObject files packageScope)

/-! ### Imports of a file -/

/-- What the imports of a file bind. -/
structure Bindings where
  /-- The local names of packages, with the object and the scope of each; of two imports under
  one name the later comes first. -/
  named : List (String × ObjectId × ScopeId) := []
  /-- The scopes of the packages that are imported by a dot, in order. -/
  dotted : List ScopeId := []

/-- The package that a local name stands for. -/
def Bindings.find? (b : Bindings) (name : String) : Option (ObjectId × ScopeId) :=
  (b.named.find? (·.1 = name)).map (·.2)

/-- The state in which the imports of a file are bound. -/
structure BindState where
  /-- The objects of the packages that the files of this package import, so far. -/
  imports : NameMap ObjectId
  bindings : Bindings := {}
  resolutions : Resolutions

/-- The object of an imported package, which the first import of it creates. -/
def importedObject (imports : NameMap ObjectId) (id : String) (pos : Pos) :
    Link (ObjectId × NameMap ObjectId) := do
  match imports.find? id with
  | some object => return (object, imports)
  | none =>
    let s ← get
    let (object, symbols) := s.symbols.newObject ⟨.package, id, .package id, pos, none⟩
    set { s with symbols }
    return (object, imports.insert id object)

/-- Binds one import, if there is such a package. -/
def bindImport (scopes : NameMap ScopeId) (b : BindState) (spec : ImportSpec) :
    Link BindState := do
  match spec.id? with
  | none => return b
  | some id =>
    match scopes.find? id with
    | none =>
      Link.report ("package \x60" ++ id ++ "\x60 not found") spec.path.span
      return b
    | some scope =>
      let (object, imports) ← importedObject b.imports id spec.begin
      let bound (name : String) : Bindings :=
        { b.bindings with named := (name, object, scope) :: b.bindings.named }
      match spec.localName with
      | none => return { b with imports, bindings := bound id }
      | some localName =>
        if localName.name = "." then
          let dotted := b.bindings.dotted ++ [scope]
          return { b with imports, bindings := { b.bindings with dotted } }
        else if localName.isBlank then
          return { b with imports }
        else
          return {
            imports
            bindings := bound localName.name
            resolutions := b.resolutions.set localName.id object }

/-! ### Names of a file -/

/-- The object of a name in the scope of the package, or else in the first package imported by a
dot that has it. -/
def lookupPending (symbols : SymbolTable) (packageScope : ScopeId) (b : Bindings)
    (name : String) : Option ObjectId :=
  (packageScope :: b.dotted).findSome? (symbols.lookup? · name)

/-- Resolutions, and the names for which there are none. -/
structure Settled where
  resolutions : Resolutions
  unresolved : List Ident

/-- Settles a name: records its object, if there is one. -/
def Settled.add (s : Settled) (i : Ident) (object : Option ObjectId) : Settled :=
  match object with
  | some object => { s with resolutions := s.resolutions.set i.id object }
  | none => { s with unresolved := s.unresolved ++ [i] }

/-- Settles a qualified name: first its qualifier, and then, if that is a package, its name. -/
def Settled.addQualified (symbols : SymbolTable) (b : Bindings) (s : Settled)
    (q : QualifiedRef) : Settled :=
  match b.find? q.qualifier.name with
  | none => s.add q.qualifier none
  | some (object, scope) =>
    (s.add q.qualifier (some object)).add q.name (symbols.lookup? scope q.name.name)

/-- Identifiers in the order of their positions. -/
def sortIdents (is : List Ident) : List Ident :=
  is.mergeSort fun a b =>
    decide (a.pos < b.pos) || (decide (a.pos = b.pos) && decide (a.id ≤ b.id))

/-- Resolves the names of a file whose imports are bound. -/
def resolveNames (symbols : SymbolTable) (packageScope : ScopeId) (b : BindState) (f : File) :
    File :=
  let settled := f.unresolved.foldl (fun (s : Settled) i =>
    s.add i (lookupPending symbols packageScope b.bindings i.name)) ⟨b.resolutions, []⟩
  let settled := f.qualified.foldl (Settled.addQualified symbols b.bindings) settled
  { f with resolutions := settled.resolutions, unresolved := sortIdents settled.unresolved }

/-! ### Files and packages -/

/-- Links a file and adds it to its package, unless that has a file of its name already. -/
def linkFile (scopes : NameMap ScopeId) (p : Package) (f : File) : Link Package := do
  let start : BindState := { imports := p.imports, resolutions := f.resolutions }
  let b ← f.imports.foldlM (bindImport scopes) start
  let f := resolveNames (← get).symbols p.scope b f
  let p := { p with imports := b.imports }
  if p.files.contains f.filename then
    Link.report ("file " ++ f.filename ++ " appears twice in package " ++ p.name)
      (.ofPos f.packagePos)
    return p
  else
    return { p with files := p.files.insert f.filename f }

/-- Links the files of a package. -/
def linkPackage (scopes : NameMap ScopeId) (name : String) (g : PackageFiles) : Link Package :=
  g.files.foldlM (linkFile scopes) ⟨name, g.scope, .empty, .empty⟩

/-- The names of a package that stand for nothing. -/
def Package.unresolved (p : Package) : List UnresolvedIdent :=
  p.files.values.flatMap fun f =>
    f.unresolved.map fun i => ⟨p.name, f.filename, i.name, i.pos⟩

/-- Links all packages, once the scopes are merged. -/
def linkPackages (groups : NameMap PackageFiles) (files : FileSet) :
    Link (NameMap Package) := do
  groups.values.forM fun g => g.files.forM (mergeFile files g.scope)
  let scopes := groups.map (·.scope)
  groups.entries.foldlM (fun packages (name, g) => do
    return packages.insert name (← linkPackage scopes name g)) NameMap.empty

/-- Links files into packages. -/
def link (parsed : List File) (symbols : SymbolTable) (files : FileSet) : Linked :=
  let (groups, symbols) := groupFiles parsed symbols
  let (packages, s) := linkPackages groups files { symbols }
  { packages
    unresolved := packages.values.flatMap Package.unresolved
    diagnostics := s.diagnostics.toList
    symbols := s.symbols }

end Idl
