/-
Idl/Proofs/Respelling/Link.lean

Linking respelled files.

Linking goes by names, by numbers of scopes and objects, and by the order of positions in a file, and
none of these changes when files are respelled.  Steps of linking carry over as steps of parsing do:
`s.Follows ρ s'` says that the symbols of `s'` are those of `s`, respelled, and that as much has been
reported, if in other words.

Main result: linked files that are respelled are the respelled files, linked, and as much is reported
of them (`link_respelled`).
-/
import Idl.Package.Link
import Idl.Proofs.Alike
import Idl.Proofs.NameMaps
import Idl.Proofs.Respelling

namespace Idl

variable (ρ : Respelling)

/-- The files of a package that is to be linked, respelled. -/
def PackageFiles.respelled (g : PackageFiles) : PackageFiles :=
  { g with files := g.files.map (File.respelled ρ) }

theorem File.imports_respelled (f : File) :
    (f.respelled ρ).imports = f.imports.map (ImportSpec.respelled ρ) := by
  have h (d : Decl) :
      (d.respelled ρ).importSpecs = d.importSpecs.map (ImportSpec.respelled ρ) := by
    cases d <;> rfl
  simp only [imports, respelled, List.flatMap_map, List.map_flatMap, h]

/-- Groups of files and a table, respelled. -/
def respelledGroups (x : NameMap PackageFiles × SymbolTable) : NameMap PackageFiles × SymbolTable :=
  (x.1.map (PackageFiles.respelled ρ), x.2.respelled ρ)

theorem groupFiles_respelled (files : List File) (t : SymbolTable) :
    groupFiles (files.map (File.respelled ρ)) (t.respelled ρ) =
      respelledGroups ρ (groupFiles files t) := by
  unfold groupFiles
  rw [List.foldl_map]
  show files.foldl _ (respelledGroups ρ (NameMap.empty, t)) = _
  refine List.foldl_hom (respelledGroups ρ) ?_
  rintro ⟨groups, t⟩ f
  have hname : (f.respelled ρ).name.name = f.name.name := rfl
  simp only [respelledGroups, hname, NameMap.find?_map]
  cases groups.find? f.name.name with
  | some g =>
    have hgroup : ({ g.respelled ρ with files := (g.respelled ρ).files ++ [f.respelled ρ] } :
        PackageFiles) = PackageFiles.respelled ρ { g with files := g.files ++ [f] } := by
      simp [PackageFiles.respelled]
    simp only [Option.map_some]
    rw [hgroup, NameMap.insert_map]
  | none =>
    have hgroup : (⟨(t.newScope none).1, [f.respelled ρ]⟩ : PackageFiles) =
        PackageFiles.respelled ρ ⟨(t.newScope none).1, [f]⟩ := rfl
    simp only [Option.map_none, SymbolTable.newScope_respelled]
    rw [hgroup, NameMap.insert_map]

/-! ### Steps -/

/-- The symbols of the second state are those of the first one, respelled, and there are as many
reports. -/
inductive LinkState.Follows (s : LinkState) : LinkState → Prop
  | intro (reports : Array Diagnostic)
      (hreports : reports.map (·.severity) = s.diagnostics.map (·.severity)) :
      Follows s ⟨s.symbols.respelled ρ, reports⟩

namespace LinkState.Follows

variable {ρ : Respelling} {s s' : LinkState}

theorem symbols (h : s.Follows ρ s') : s'.symbols = s.symbols.respelled ρ := by
  cases h
  rfl

theorem reports (h : s.Follows ρ s') :
    s'.diagnostics.map (·.severity) = s.diagnostics.map (·.severity) := by
  cases h
  assumption

end LinkState.Follows

namespace Link

/-- `n` does in states that follow what `m` does, and answers with `φ` of its answer. -/
abbrev Respells {α β : Type} (ρ : Respelling) (φ : α → β) (m : Link α) (n : Link β) : Prop :=
  Alike (LinkState.Follows ρ) (LinkState.Follows ρ) (fun a b => b = φ a) m n

variable {ρ : Respelling}

theorem report_respells {message message' : String} {span span' : Span} :
    Respells ρ id (report message span) (report message' span') := by
  refine .modify ?_
  rintro s _ ⟨reports, hreports⟩
  refine .intro (reports.push (.error message' span')) ?_
  rw [Array.map_push, Array.map_push, hreports]
  rfl

theorem mergeObject_respells (files files' : FileSet) (scope : ScopeId) (object : ObjectId) :
    Respells ρ id (mergeObject files scope object) (mergeObject files' scope object) := by
  refine Alike.get.bind fun s s' hs => ?_
  obtain ⟨reports, hreports⟩ := hs
  dsimp only
  rw [SymbolTable.insert_respelled]
  generalize s.symbols.insert scope object = inserted
  obtain ⟨existing, symbols⟩ := inserted
  have hobject : (symbols.respelled ρ).objects[object]? =
      symbols.objects[object]?.map (Object.respelled ρ) := Array.getElem?_map
  have hset : LinkState.Follows ρ { s with symbols } ⟨symbols.respelled ρ, reports⟩ :=
    .intro reports hreports
  refine (Alike.set hset).next fun _ => ?_
  rw [hobject]
  cases existing with
  | none => exact .pure rfl
  | some existing =>
    cases symbols.objects[object]? with
    | none => exact .pure rfl
    | some o => exact report_respells

theorem mergeFile_respells (files files' : FileSet) (scope : ScopeId) (f : File) :
    Respells ρ id (mergeFile files scope f) (mergeFile files' scope (f.respelled ρ)) := by
  refine Alike.get.bind fun s s' hs => ?_
  have hobjects : s'.symbols.objectsIn (f.respelled ρ).scope = s.symbols.objectsIn f.scope := by
    cases hs
    exact s.symbols.objectsIn_respelled ρ f.scope
  -- objects are known by their numbers, so both runs go over the same list
  rw [hobjects, ← List.map_id (s.symbols.objectsIn f.scope)]
  nth_rewrite 1 [List.map_id]
  exact Alike.forM (mergeObject_respells files files' scope) _

/-! ### Imports -/

theorem importedObject_respells (imports : NameMap ObjectId) (package : String) (pos : Pos) :
    Respells ρ id (importedObject imports package pos)
      (importedObject imports package (ρ.pos pos)) := by
  unfold importedObject
  cases imports.find? package with
  | some object => exact .pure rfl
  | none =>
    refine Alike.get.bind fun s s' hs => ?_
    obtain ⟨reports, hreports⟩ := hs
    have hnew : (s.symbols.respelled ρ).newObject
          ⟨.package, package, .package package, ρ.pos pos, none⟩ =
        ((s.symbols.newObject ⟨.package, package, .package package, pos, none⟩).1,
          (s.symbols.newObject ⟨.package, package, .package package, pos, none⟩).2.respelled ρ) :=
      s.symbols.newObject_respelled ρ ⟨.package, package, .package package, pos, none⟩
    dsimp only
    rw [hnew]
    generalize s.symbols.newObject ⟨.package, package, .package package, pos, none⟩ = new
    obtain ⟨object, symbols⟩ := new
    have hset : LinkState.Follows ρ { s with symbols } ⟨symbols.respelled ρ, reports⟩ :=
      .intro reports hreports
    exact (Alike.set hset).next fun _ => .pure rfl

theorem ImportSpec.begin_respelled (s : ImportSpec) : (s.respelled ρ).begin = ρ.pos s.begin := by
  unfold ImportSpec.begin ImportSpec.respelled
  cases s.localName <;> rfl

theorem bindImport_respells (scopes : NameMap ScopeId) (b : BindState) (spec : ImportSpec) :
    Respells ρ id (bindImport scopes b spec) (bindImport scopes b (spec.respelled ρ)) := by
  unfold bindImport
  rw [ImportSpec.id?_respelled]
  cases spec.id? with
  | none => exact .pure rfl
  | some package =>
    dsimp only
    cases scopes.find? package with
    | none => exact report_respells.next fun _ => .pure rfl
    | some scope =>
      dsimp only
      rw [ImportSpec.begin_respelled]
      refine (importedObject_respells b.imports package spec.begin).next_id fun r => ?_
      rw [show (spec.respelled ρ).localName = spec.localName.map (Ident.respelled ρ) from rfl]
      cases spec.localName with
      | none => exact .pure rfl
      | some localName => exact .ite (.pure rfl) (.ite (.pure rfl) (.pure rfl))

end Link

/-! ### Names -/

theorem sortIdents_respelled (is : List Ident) :
    sortIdents (is.map (Ident.respelled ρ)) = (sortIdents is).map (Ident.respelled ρ) := by
  -- positions keep their order, and identifiers at one position are told apart by their numbers
  refine (List.map_mergeSort fun i _ j _ => ?_).symm
  simp only [Ident.respelled_pos, Ident.respelled_id, ρ.pos_lt_pos, ρ.pos_inj]
  rfl

/-- What is settled, the names without an object respelled. -/
def Settled.respelled (s : Settled) : Settled :=
  { s with unresolved := s.unresolved.map (Ident.respelled ρ) }

theorem Settled.add_respelled (s : Settled) (i : Ident) (object : Option ObjectId) :
    (s.respelled ρ).add (i.respelled ρ) object = (s.add i object).respelled ρ := by
  cases object with
  | none => simp [add, respelled]
  | some object => rfl

theorem Settled.addQualified_respelled (t : SymbolTable) (b : Bindings) (s : Settled)
    (q : QualifiedRef) : addQualified (t.respelled ρ) b (s.respelled ρ) (q.respelled ρ) =
      (addQualified t b s q).respelled ρ := by
  unfold addQualified
  rw [show (q.respelled ρ).qualifier = q.qualifier.respelled ρ from rfl,
    show (q.respelled ρ).name = q.name.respelled ρ from rfl, Ident.respelled_name]
  cases b.find? q.qualifier.name with
  | none => exact s.add_respelled ρ q.qualifier none
  | some r =>
    dsimp only
    rw [Settled.add_respelled, Settled.add_respelled]
    rfl

theorem resolveNames_respelled (t : SymbolTable) (scope : ScopeId) (b : BindState) (f : File) :
    resolveNames (t.respelled ρ) scope b (f.respelled ρ) =
      (resolveNames t scope b f).respelled ρ := by
  have hpending (is : List Ident) (s : Settled) :
      (is.map (Ident.respelled ρ)).foldl (fun (s : Settled) i =>
          s.add i (lookupPending (t.respelled ρ) scope b.bindings i.name)) (s.respelled ρ) =
        (is.foldl (fun (s : Settled) i =>
          s.add i (lookupPending t scope b.bindings i.name)) s).respelled ρ := by
    rw [List.foldl_map]
    exact List.foldl_hom (Settled.respelled ρ) fun s i => s.add_respelled ρ i _
  have hqualified (qs : List QualifiedRef) (s : Settled) :
      (qs.map (QualifiedRef.respelled ρ)).foldl
          (Settled.addQualified (t.respelled ρ) b.bindings) (s.respelled ρ) =
        (qs.foldl (Settled.addQualified t b.bindings) s).respelled ρ := by
    rw [List.foldl_map]
    exact List.foldl_hom (Settled.respelled ρ) fun s q =>
      Settled.addQualified_respelled ρ t b.bindings s q
  have hsettled : (f.qualified.map (QualifiedRef.respelled ρ)).foldl
        (Settled.addQualified (t.respelled ρ) b.bindings)
        ((f.unresolved.map (Ident.respelled ρ)).foldl (fun (s : Settled) i =>
          s.add i (lookupPending (t.respelled ρ) scope b.bindings i.name)) ⟨b.resolutions, []⟩) =
      (f.qualified.foldl (Settled.addQualified t b.bindings)
        (f.unresolved.foldl (fun (s : Settled) i =>
          s.add i (lookupPending t scope b.bindings i.name)) ⟨b.resolutions, []⟩)).respelled ρ := by
    rw [← hqualified, ← hpending]
    rfl
  unfold resolveNames
  dsimp only
  rw [show (f.respelled ρ).unresolved = f.unresolved.map (Ident.respelled ρ) from rfl,
    show (f.respelled ρ).qualified = f.qualified.map (QualifiedRef.respelled ρ) from rfl, hsettled]
  generalize f.qualified.foldl _ _ = settled
  unfold File.respelled Settled.respelled
  rw [sortIdents_respelled]

/-! ### Files and packages -/

namespace Link

variable {ρ : Respelling}

theorem linkFile_respells (scopes : NameMap ScopeId) (p : Package) (f : File) :
    Respells ρ (Package.respelled ρ) (linkFile scopes p f)
      (linkFile scopes (p.respelled ρ) (f.respelled ρ)) := by
  unfold linkFile
  rw [File.imports_respelled]
  refine (Alike.foldlM (P := fun a b => b = id a) ?_ f.imports rfl).next_id fun b =>
    Alike.get.bind fun s s' hs => ?_
  · rintro _ b rfl spec
    exact bindImport_respells scopes b spec
  have hfile : resolveNames s'.symbols p.scope b (f.respelled ρ) =
      (resolveNames s.symbols p.scope b f).respelled ρ := by
    cases hs
    exact resolveNames_respelled ρ s.symbols p.scope b f
  dsimp only
  rw [show (p.respelled ρ).scope = p.scope from rfl, hfile]
  generalize resolveNames s.symbols p.scope b f = g
  rw [show (p.respelled ρ).files = p.files.map (File.respelled ρ) from rfl, NameMap.contains_map,
    show (g.respelled ρ).filename = g.filename from rfl]
  refine .ite (report_respells.next fun _ => .pure rfl) (.pure ?_)
  rw [NameMap.insert_map]
  rfl

theorem linkPackage_respells (scopes : NameMap ScopeId) (name : String) (g : PackageFiles) :
    Respells ρ (Package.respelled ρ) (linkPackage scopes name g)
      (linkPackage scopes name (g.respelled ρ)) := by
  refine Alike.foldlM (P := fun a b => b = Package.respelled ρ a) ?_ g.files rfl
  rintro p _ rfl f
  exact linkFile_respells scopes p f

theorem linkPackages_respells (groups : NameMap PackageFiles) (files files' : FileSet) :
    Respells ρ (NameMap.map (Package.respelled ρ)) (linkPackages groups files)
      (linkPackages (groups.map (PackageFiles.respelled ρ)) files') := by
  have hscopes : (groups.map (PackageFiles.respelled ρ)).map (·.scope) = groups.map (·.scope) :=
    NameMap.ext fun k => by
      rw [NameMap.find?_map, NameMap.find?_map, NameMap.find?_map, Option.map_map]
      rfl
  have hentries : (groups.map (PackageFiles.respelled ρ)).entries =
      groups.entries.map fun e => (e.1, e.2.respelled ρ) := rfl
  unfold linkPackages
  rw [NameMap.values_map, hscopes, hentries]
  -- the scopes of all packages are filled before any file is linked
  have hmerge (g : PackageFiles) : Respells ρ id (g.files.forM (mergeFile files g.scope))
      ((g.files.map (File.respelled ρ)).forM (mergeFile files' g.scope)) :=
    Alike.forM (mergeFile_respells files files' g.scope) g.files
  refine (Alike.forM (φ := PackageFiles.respelled ρ) hmerge groups.values).next_id fun _ => ?_
  refine Alike.foldlM (P := fun a b => b = NameMap.map (Package.respelled ρ) a) ?_ _ rfl
  rintro packages _ rfl ⟨name, g⟩
  dsimp only
  generalize groups.map (·.scope) = scopes
  refine (linkPackage_respells scopes name g).next fun p => .pure ?_
  rw [NameMap.insert_map]

end Link

/-- Linking respelled files gives the linked files, respelled, and reports as much. -/
theorem link_respelled (parsed : List File) (t : SymbolTable) (files files' : FileSet) :
    (link (parsed.map (File.respelled ρ)) (t.respelled ρ) files').packages =
        (link parsed t files).packages.map (Package.respelled ρ) ∧
      (link (parsed.map (File.respelled ρ)) (t.respelled ρ) files').symbols =
        (link parsed t files).symbols.respelled ρ ∧
      (link (parsed.map (File.respelled ρ)) (t.respelled ρ) files').diagnostics.map (·.severity) =
        (link parsed t files).diagnostics.map (·.severity) := by
  unfold link
  rw [groupFiles_respelled]
  obtain ⟨groups, t⟩ := groupFiles parsed t
  obtain ⟨hpackages, hstate⟩ := Link.linkPackages_respells (ρ := ρ) groups files files'
    { symbols := t } ⟨t.respelled ρ, #[]⟩ (.intro #[] rfl)
  refine ⟨hpackages, hstate.symbols, ?_⟩
  have hreports := congrArg Array.toList hstate.reports
  rw [Array.toList_map, Array.toList_map] at hreports
  exact hreports

end Idl
