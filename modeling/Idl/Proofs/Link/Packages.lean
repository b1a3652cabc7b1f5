/-
Idl/Proofs/Link/Packages.lean

Packages, linked.

A linked package holds the first file of each name, and each of its files is the linked one
(`Package.Links`); the imports of its files have objects.  Since linking a file reads nothing but
scopes, and no scope changes once all of them are merged, packages do not depend on one another.
`link_links` says so about all packages of a run.
-/
import Idl.Proofs.Link.Settle

namespace Idl

/-! ### Errors -/

/-- The error about a file whose name another file of the package has. -/
def File.appearsTwice (package : String) (f : File) : Diagnostic :=
  .error ("file " ++ f.filename ++ " appears twice in package " ++ package) (.ofPos f.packagePos)

/-- What is reported while the files of a package are linked, some names of files being taken. -/
def linkErrors (scopes : NameMap ScopeId) (package : String) (taken : List String) :
    List File → List Diagnostic
  | [] => []
  | f :: fs =>
    f.imports.flatMap (ImportSpec.errors scopes) ++
      (if f.filename ∈ taken then [f.appearsTwice package] else []) ++
      linkErrors scopes package (f.filename :: taken) fs

theorem linkErrors_append (scopes : NameMap ScopeId) (package : String) (taken : List String)
    (fs : List File) (f : File) : linkErrors scopes package taken (fs ++ [f]) =
      linkErrors scopes package taken fs ++ (f.imports.flatMap (ImportSpec.errors scopes) ++
        if f.filename ∈ taken ∨ ∃ g ∈ fs, g.filename = f.filename then [f.appearsTwice package]
        else []) := by
  induction fs generalizing taken with
  | nil => simp [linkErrors]
  | cons g fs ih =>
    have hiff : (f.filename ∈ g.filename :: taken ∨ ∃ h ∈ fs, h.filename = f.filename) ↔
        (f.filename ∈ taken ∨ ∃ h ∈ g :: fs, h.filename = f.filename) := by
      rw [List.mem_cons, List.exists_mem_cons_iff, eq_comm, or_assoc, or_left_comm]
    rw [List.cons_append, linkErrors, linkErrors, ih, List.append_assoc, List.append_assoc,
      List.append_assoc]
    simp only [hiff]

/-! ### One package -/

/-- What is known of the package `n`, whose files are `fs`, when `t` holds all merged scopes. -/
structure Package.Links (t : SymbolTable) (scopes : NameMap ScopeId) (n : String) (i : ScopeId)
    (fs : List File) (p : Package) : Prop where
  name : p.name = n
  scope : p.scope = i
  /-- Whatever the files import has an object. -/
  found : ∀ id, (p.imports.find? id).isSome = true ↔
    ∃ f ∈ fs, ∃ spec ∈ f.imports, ∃ j, spec.target? scopes = some (id, j)
  /-- The first file of each name, linked. -/
  files : ∀ x, p.files.find? x =
    (fs.find? (·.filename = x)).map (linkedFile t scopes p.imports i)

/-- One more file in a package. -/
def Package.add (p : Package) (f : File) : Package :=
  { p with files := p.files.insert f.filename f }

namespace Package.Links

variable {t : SymbolTable} {scopes : NameMap ScopeId} {n : String} {i : ScopeId} {fs : List File}
  {p : Package} (h : p.Links t scopes n i fs)
include h

/-- A package has a file of each name that came. -/
theorem contains_iff (x : String) :
    p.files.contains x = true ↔ ∃ g ∈ fs, g.filename = x := by
  rw [NameMap.contains_eq_true, h.files]
  constructor
  · rintro ⟨v, hv⟩
    obtain ⟨g, hg, -⟩ := Option.map_eq_some_iff.1 hv
    exact ⟨g, List.mem_of_find?_eq_some hg, by simpa using List.find?_some hg⟩
  · rintro ⟨g, hg, hname⟩
    obtain ⟨y, hy⟩ := Option.isSome_iff_exists.1
      (List.find?_isSome (p := fun g => decide (g.filename = x)) |>.2
        ⟨g, hg, decide_eq_true hname⟩)
    exact ⟨_, by rw [hy]; rfl⟩

section Imports

variable {imports : NameMap ObjectId} (himports : p.imports.Within imports) {f : File}
  (hfound : ∀ id, (imports.find? id).isSome = true ↔
    ∃ g ∈ fs ++ [f], ∃ spec ∈ g.imports, ∃ j, spec.target? scopes = some (id, j))
include himports

/-- The files that are linked already stay as they are when more packages have objects. -/
theorem files_within (x : String) : p.files.find? x =
    (fs.find? (·.filename = x)).map (linkedFile t scopes imports i) := by
  have hold {g : File} (hg : g ∈ fs) : linkedFile t scopes p.imports i g =
      linkedFile t scopes imports i g := by
    refine (linkedFile_within _ himports (fun spec hspec id j ht => ?_) i).symm
    exact (h.found id).2 ⟨g, hg, spec, hspec, j, ht⟩
  rw [h.files x]
  cases hfind : fs.find? fun g => decide (g.filename = x) with
  | none => rfl
  | some g => exact congrArg some (hold (List.mem_of_find?_eq_some hfind))

include hfound

/-- A further file of a name only brings its imports. -/
theorem again (hname : p.files.contains f.filename = true) :
    Package.Links t scopes n i (fs ++ [f]) { p with imports := imports } := by
  refine ⟨h.name, h.scope, hfound, fun x => ?_⟩
  show p.files.find? x = _
  rw [h.files_within himports, List.find?_append]
  cases hfind : fs.find? fun g => decide (g.filename = x) with
  | some g => rfl
  | none =>
    have hne : f.filename ≠ x := fun heq => by
      obtain ⟨g, hg, hname⟩ := (h.contains_iff _).1 hname
      exact List.find?_eq_none.1 hfind g hg (decide_eq_true (hname.trans heq))
    simp [hne]

/-- The first file of a name is added, linked. -/
theorem add (hname : ¬ p.files.contains f.filename = true) :
    (Package.add { p with imports := imports } (linkedFile t scopes imports i f)).Links t scopes n i
      (fs ++ [f]) := by
  refine ⟨h.name, h.scope, hfound, fun x => ?_⟩
  show (p.files.insert f.filename (linkedFile t scopes imports i f)).find? x =
    ((fs ++ [f]).find? (·.filename = x)).map (linkedFile t scopes imports i)
  rw [NameMap.find?_insert, h.files_within himports, List.find?_append]
  split
  · next hx =>
    have hnone : fs.find? (fun g => decide (g.filename = x)) = none := by
      refine List.find?_eq_none.2 fun g hg heq => hname ((h.contains_iff _).2 ⟨g, hg, ?_⟩)
      exact (of_decide_eq_true heq).trans hx
    rw [hnone]
    simp [hx]
  · next hx =>
    have hne : ¬ f.filename = x := fun heq => hx heq.symm
    cases fs.find? fun g => decide (g.filename = x) <;> simp [hne]

end Imports

end Package.Links

/-- A file whose imports are bound is linked. -/
theorem Bound.links_file {scopes : NameMap ScopeId} {imports : NameMap ObjectId} {f : File}
    {t : SymbolTable} {s s' : LinkState} {b : BindState}
    (h : Bound scopes { imports, resolutions := f.resolutions } s f.imports b s')
    (ht : t.Extends s'.symbols) (scope : ScopeId) :
    resolveNames s'.symbols scope b f = linkedFile t scopes b.imports scope f := by
  have hbindings : b.bindings = f.bindings scopes b.imports := by
    have hnamed := h.named
    have hdotted := h.dotted
    simp only [List.append_nil, List.nil_append] at hnamed hdotted
    exact (congrArg₂ Bindings.mk hnamed hdotted : (⟨_, _⟩ : Bindings) = ⟨_, _⟩)
  have haliased : b.resolutions = f.aliased scopes b.imports := h.resolutions
  rw [resolveNames_congr _ ht.lookup?, resolveNames_eq, hbindings, haliased]
  rfl

/-- What is known while the files of a package are linked, after the files `fs`. -/
structure LinkState.Linking (s : LinkState) (scopes : NameMap ScopeId) (n : String)
    (scope : ScopeId) (fs : List File) (p : Package) (s' : LinkState) : Prop where
  links : p.Links s.symbols scopes n scope fs
  symbols : s.symbols.Extends s'.symbols
  objects : s'.symbols.Imports p.imports
  diagnostics : s'.diagnostics.toList = s.diagnostics.toList ++ linkErrors scopes n [] fs

namespace LinkState.Linking

variable {s s' : LinkState} {scopes : NameMap ScopeId} {n : String} {scope : ScopeId}
  {fs : List File} {p : Package}

theorem nothing (s : LinkState) (scopes : NameMap ScopeId) (n : String) (scope : ScopeId) :
    s.Linking scopes n scope [] ⟨n, scope, .empty, .empty⟩ s where
  links := ⟨rfl, rfl, fun id => by simp, fun x => by simp⟩
  symbols := .refl _
  objects h := by simp at h
  diagnostics := (List.append_nil _).symm

/-- One more file. -/
theorem step (h : s.Linking scopes n scope fs p s') (f : File) :
    s.Linking scopes n scope (fs ++ [f]) (linkFile scopes p f s').1 (linkFile scopes p f s').2 := by
  let start : BindState := { imports := p.imports, resolutions := f.resolutions }
  have hbound := bindImports_bound scopes start f.imports s'
  obtain ⟨b, s'', hb⟩ : ∃ b s'', f.imports.foldlM (bindImport scopes) start s' = (b, s'') :=
    ⟨_, _, rfl⟩
  rw [hb] at hbound
  have hsymbols := h.symbols.trans hbound.symbols
  have hobjects : s''.symbols.Imports b.imports := hbound.objects h.objects
  have hfound (id : String) : (b.imports.find? id).isSome = true ↔
      ∃ g ∈ fs ++ [f], ∃ spec ∈ g.imports, ∃ i, spec.target? scopes = some (id, i) := by
    rw [hbound.found id]
    refine (or_congr_left (h.links.found id)).trans ?_
    simp only [List.mem_append, List.mem_singleton, or_and_right, exists_or, exists_eq_left]
  have hmore : s''.diagnostics.toList = s.diagnostics.toList ++ linkErrors scopes n [] fs ++
      f.imports.flatMap (ImportSpec.errors scopes) := h.diagnostics ▸ hbound.diagnostics
  have htaken : (f.filename ∈ ([] : List String) ∨ ∃ g ∈ fs, g.filename = f.filename) ↔
      p.files.contains f.filename = true :=
    (or_iff_right List.not_mem_nil).trans (h.links.contains_iff _).symm
  by_cases hcontains : p.files.contains f.filename = true
  · have hstep : linkFile scopes p f s' = ({ p with imports := b.imports },
        { s'' with diagnostics := s''.diagnostics.push (f.appearsTwice n) }) := by
      unfold linkFile
      rw [Link.bind_eq hb, ← h.links.name]
      show (if p.files.contains f.filename = true then _ else _ : Link Package) s'' = _
      rw [if_pos hcontains]
      rfl
    rw [hstep]
    refine ⟨h.links.again hbound.imports hfound hcontains, hsymbols, hobjects, ?_⟩
    show (s''.diagnostics.push _).toList = _
    rw [Array.toList_push, hmore, linkErrors_append, if_pos (htaken.2 hcontains)]
    simp only [List.append_assoc]
  · have hstep : linkFile scopes p f s' = (Package.add { p with imports := b.imports }
        (linkedFile s.symbols scopes b.imports scope f), s'') := by
      unfold linkFile
      rw [Link.bind_eq hb, ← hbound.links_file hsymbols, ← h.links.scope]
      show (if p.files.contains f.filename = true then _ else _ : Link Package) s'' = _
      rw [if_neg hcontains]
      rfl
    rw [hstep]
    refine ⟨h.links.add hbound.imports hfound hcontains, hsymbols, hobjects, ?_⟩
    rw [hmore, linkErrors_append, if_neg (mt htaken.1 hcontains), List.append_nil]
    simp only [List.append_assoc]

end LinkState.Linking

/-- Linking the files of a package. -/
theorem linkPackage_linking (scopes : NameMap ScopeId) (n : String) (g : PackageFiles)
    (s : LinkState) : s.Linking scopes n g.scope g.files (linkPackage scopes n g s).1
      (linkPackage scopes n g s).2 := by
  unfold linkPackage
  rw [Link.foldlM_eq]
  induction g.files using List.reverseRecOn with
  | nil => exact .nothing s scopes n g.scope
  | append_singleton fs f ih =>
    rw [List.foldl_append]
    exact ih.step f

/-! ### All packages -/

/-- What is known after the packages with the given groups are linked. -/
structure LinkState.LinkingAll (s : LinkState) (scopes : NameMap ScopeId)
    (groups : List (String × PackageFiles)) (ps : NameMap Package) (s' : LinkState) : Prop where
  packages : ∀ n p, ps.find? n = some p → ∃ g, (n, g) ∈ groups ∧
    p.Links s.symbols scopes n g.scope g.files ∧ s'.symbols.Imports p.imports
  present : ∀ n g, (n, g) ∈ groups → (ps.find? n).isSome = true
  symbols : s.symbols.Extends s'.symbols
  diagnostics : s'.diagnostics.toList =
    s.diagnostics.toList ++ groups.flatMap fun x => linkErrors scopes x.1 [] x.2.files

/-- Packages are linked one after the other. -/
theorem linkGroups_linking (scopes : NameMap ScopeId) (groups : List (String × PackageFiles))
    (s : LinkState) :
    let r := groups.foldlM (fun packages (n, g) => do
      return packages.insert n (← linkPackage scopes n g) : NameMap Package → _ → Link _) .empty s
    s.LinkingAll scopes groups r.1 r.2 := by
  rw [Link.foldlM_eq]
  induction groups using List.reverseRecOn with
  | nil =>
    refine ⟨fun n p h => ?_, fun n g h => (nomatch h), .refl _, (List.append_nil _).symm⟩
    rw [show (List.foldl _ _ [] : NameMap Package × LinkState).1 = NameMap.empty from rfl,
      NameMap.find?_empty] at h
    cases h
  | append_singleton groups x ih =>
    obtain ⟨n, g⟩ := x
    rw [List.foldl_append]
    dsimp only at ih ⊢
    generalize List.foldl _ _ groups = r at ih
    obtain ⟨packages, s'⟩ := r
    have hpackage := linkPackage_linking scopes n g s'
    show s.LinkingAll scopes (groups ++ [(n, g)])
      (packages.insert n (linkPackage scopes n g s').1) (linkPackage scopes n g s').2
    generalize linkPackage scopes n g s' = r at hpackage
    obtain ⟨p, s''⟩ := r
    have hlookup := ih.symbols.lookup?
    have hlinks : p.Links s.symbols scopes n g.scope g.files := by
      refine ⟨hpackage.links.name, hpackage.links.scope, hpackage.links.found, fun y => ?_⟩
      rw [hpackage.links.files y, linkedFile_congr _ hlookup]
    refine ⟨fun m q hq => ?_, fun m h hm => ?_, ih.symbols.trans hpackage.symbols, ?_⟩
    · rw [NameMap.find?_insert] at hq
      split at hq
      · next hmn =>
        rw [← Option.some.inj hq, hmn]
        exact ⟨g, List.mem_append_right _ List.mem_cons_self, hlinks, hpackage.objects⟩
      · obtain ⟨h, hh, hl, ho⟩ := ih.packages m q hq
        exact ⟨h, List.mem_append_left _ hh, hl, hpackage.symbols.within.imports ho⟩
    · rw [NameMap.find?_insert]
      split
      · rfl
      · next hmn =>
        refine ih.present m h ((List.mem_append.1 hm).resolve_right fun hm => hmn ?_)
        exact (Prod.mk.inj (List.mem_singleton.1 hm)).1
    · rw [hpackage.diagnostics, ih.diagnostics, List.flatMap_append, List.append_assoc]
      simp

/-! ### The whole run -/

/-- The objects of the files of a package, in the order in which they are merged. -/
def packageEntries (t : SymbolTable) (fs : List File) (package : String) : List Entry :=
  (filesOf fs package).flatMap fun f => t.entries f.scope

/-- What is known of linked files, when `t` is the table that they were parsed into and `m` the one
that all scopes are merged in. -/
structure Linked.Links (files : FileSet) (t : SymbolTable) (fs : List File) (scopes : NameMap ScopeId)
    (m : SymbolTable) (l : Linked) : Prop where
  /-- There is a package for every name. -/
  named : ∀ n, (scopes.find? n).isSome = true ↔ ∃ f ∈ fs, f.name.name = n
  keys : l.packages.keys = scopes.keys
  merged : ∀ {n i}, scopes.find? n = some i → m.Names i (packageEntries t fs n)
  kept : t.Within m
  objects : m.objects = t.objects
  symbols : m.Extends l.symbols
  packages : ∀ {n p}, l.packages.find? n = some p → ∃ i, scopes.find? n = some i ∧
    p.Links m scopes n i (filesOf fs n) ∧ l.symbols.Imports p.imports
  diagnostics : l.diagnostics =
    (scopes.keys.flatMap fun n => mergeErrors files (packageEntries t fs n)) ++
      scopes.keys.flatMap fun n => linkErrors scopes n [] (filesOf fs n)
  unresolved : l.unresolved = l.packages.values.flatMap Package.unresolved

/-- Files that can be linked: their scopes are there, and so is all that these name. -/
structure Linkable (t : SymbolTable) (fs : List File) : Prop where
  scope : ∀ f ∈ fs, f.scope < t.scopes.size
  valid : ∀ f ∈ fs, LinkState.Valid t f.scope

namespace Linkable

variable {t t' : SymbolTable} {fs : List File} {groups : NameMap PackageFiles} (h : Linkable t fs)
  (hgrouped : Grouped t fs groups t')
include h hgrouped

/-- Grouping leaves the scopes of files as they are. -/
theorem scope_kept {f : File} (hf : f ∈ fs) : t'.scopes[f.scope]? = t.scopes[f.scope]? := by
  have hs := Array.getElem?_eq_getElem (h.scope f hf)
  rw [hs, hgrouped.within.scopes hs]

theorem entries_kept {f : File} (hf : f ∈ fs) : t'.entries f.scope = t.entries f.scope := by
  unfold SymbolTable.entries
  rw [LinkState.objectsIn_congr hgrouped.objects (h.scope_kept hgrouped hf), hgrouped.objects]

/-- What a group holds is what the files of its package do. -/
theorem group_entries {n : String} {g : PackageFiles} (hg : groups.find? n = some g) :
    g.entries t' = packageEntries t fs n := by
  unfold PackageFiles.entries packageEntries
  rw [hgrouped.files hg]
  exact List.flatMap_congr fun f hf => h.entries_kept hgrouped (mem_filesOf.1 hf).1

/-- The groups can be merged: their scopes are new and differ. -/
theorem mergeable : Mergeable t' groups.values := by
  have hfile {n : String} {g : PackageFiles} (hn : groups.find? n = some g) {f : File}
      (hf : f ∈ g.files) : f ∈ fs := (mem_filesOf.1 (hgrouped.files hn ▸ hf)).1
  refine ⟨fun g hg => ?_, ?_, fun g hg f hf x hx => ?_, fun g hg f hf => ?_⟩
  · obtain ⟨n, hn⟩ := NameMap.mem_values.1 hg
    exact (hgrouped.scope hn).2
  · refine List.pairwise_map.2 (groups.increasing.imp_of_mem fun {x y} hx hy hlt heq => ?_)
    have hxy := hgrouped.distinct (NameMap.find?_eq_some.2 hx) (NameMap.find?_eq_some.2 hy) heq
    exact String.lt_irrefl y.1 (hxy ▸ hlt)
  · obtain ⟨n, hn⟩ := NameMap.mem_values.1 hg
    obtain ⟨n', hn'⟩ := NameMap.mem_values.1 hx
    exact Nat.ne_of_lt (Nat.lt_of_lt_of_le (h.scope f (hfile hn hf)) (hgrouped.scope hn').1)
  · obtain ⟨n, hn⟩ := NameMap.mem_values.1 hg
    have hf := hfile hn hf
    unfold LinkState.Valid
    rw [h.entries_kept hgrouped hf,
      LinkState.objectsIn_congr hgrouped.objects (h.scope_kept hgrouped hf)]
    exact h.valid f hf

end Linkable

/-- There is a group for the name of every file. -/
theorem Grouped.isSome_iff {t t' : SymbolTable} {fs : List File} {groups : NameMap PackageFiles}
    (h : Grouped t fs groups t') (n : String) :
    (groups.find? n).isSome = true ↔ ∃ f ∈ fs, f.name.name = n := by
  constructor
  · intro hsome
    obtain ⟨g, hg⟩ := Option.isSome_iff_exists.1 hsome
    exact h.present hg
  · rintro ⟨f, hf, hn⟩
    by_contra hnone
    exact h.absent (Option.not_isSome_iff_eq_none.1 hnone) f hf hn

/-- There is a package for every group. -/
theorem LinkState.LinkingAll.isSome_iff {s s' : LinkState} {scopes : NameMap ScopeId}
    {groups : NameMap PackageFiles} {ps : NameMap Package}
    (h : s.LinkingAll scopes groups.entries ps s') (n : String) :
    (ps.find? n).isSome = true ↔ (groups.find? n).isSome = true := by
  constructor
  · intro hsome
    obtain ⟨p, hp⟩ := Option.isSome_iff_exists.1 hsome
    obtain ⟨g, hg, -⟩ := h.packages n p hp
    exact Option.isSome_iff_exists.2 ⟨g, NameMap.find?_eq_some.2 hg⟩
  · intro hsome
    obtain ⟨g, hg⟩ := Option.isSome_iff_exists.1 hsome
    exact h.present n g (NameMap.find?_eq_some.1 hg)

/-- Linking goes through three stages: files are grouped, then the scopes of all groups are merged,
and then the packages are linked. -/
theorem link_stages (fs : List File) (t : SymbolTable) (files : FileSet) :
    ∃ groups t' s ps s', groupFiles fs t = (groups, t') ∧
      (groups.values.forM fun g => g.files.forM (mergeFile files g.scope)) { symbols := t' } =
        ((), s) ∧
      s.LinkingAll (groups.map (·.scope)) groups.entries ps s' ∧
      link fs t files = ⟨ps, ps.values.flatMap Package.unresolved, s'.diagnostics.toList,
        s'.symbols⟩ := by
  obtain ⟨groups, t', hgroups⟩ : ∃ groups t', groupFiles fs t = (groups, t') := ⟨_, _, rfl⟩
  obtain ⟨s, hs⟩ : ∃ s, groups.values.forM (fun g => g.files.forM (mergeFile files g.scope))
      { symbols := t' } = ((), s) := ⟨_, rfl⟩
  have hlinking := linkGroups_linking (groups.map (·.scope)) groups.entries s
  obtain ⟨ps, s', hps⟩ : ∃ ps s', linkPackages groups files { symbols := t' } = (ps, s') :=
    ⟨_, _, rfl⟩
  have hall : linkPackages groups files { symbols := t' } =
      groups.entries.foldlM (fun packages (n, g) => do
        return packages.insert n (← linkPackage (groups.map (·.scope)) n g) :
          NameMap Package → _ → Link _) .empty s := by
    unfold linkPackages
    rw [Link.bind_eq hs]
  rw [← hall, hps] at hlinking
  refine ⟨groups, t', s, ps, s', hgroups, hs, hlinking, ?_⟩
  unfold link
  rw [hgroups]
  dsimp only
  rw [hps]

theorem link_links {t : SymbolTable} {fs : List File} (h : Linkable t fs) (files : FileSet) :
    ∃ scopes m, (link fs t files).Links files t fs scopes m := by
  obtain ⟨groups, t', s, ps, s', hgroups, hs, hlinking, hlink⟩ := link_stages fs t files
  have hgrouped := groupFiles_grouped fs t
  rw [hgroups] at hgrouped
  have hmerged := mergeGroups_merged files (h.mergeable hgrouped)
  rw [hs] at hmerged
  have hfind (n : String) : (groups.map (·.scope)).find? n = (groups.find? n).map (·.scope) :=
    NameMap.find?_map ..
  have hentry {x : String × PackageFiles} (hx : x ∈ groups.entries) : groups.find? x.1 = some x.2 :=
    NameMap.find?_eq_some.2 hx
  refine ⟨groups.map (·.scope), s.symbols, ?_⟩
  rw [hlink]
  refine ⟨fun n => ?_, ?_, fun {n i} hi => ?_, ⟨fun {i x} hi => ?_, fun ho => ?_⟩,
    hmerged.objects.trans hgrouped.objects, hlinking.symbols, fun {n p} hp => ?_, ?_, rfl⟩
  · rw [hfind, Option.isSome_map]
    exact hgrouped.isSome_iff n
  · refine NameMap.keys_eq fun n => ?_
    rw [hfind, Option.isSome_map, Bool.eq_iff_iff]
    exact hlinking.isSome_iff n
  · rw [hfind] at hi
    obtain ⟨g, hg, rfl⟩ := Option.map_eq_some_iff.1 hi
    exact h.group_entries hgrouped hg ▸ hmerged.names g (NameMap.mem_values.2 ⟨n, hg⟩)
  · -- the scopes of the groups are new, so merging enters nothing in those that were there
    have hx := hgrouped.within.scopes hi
    refine (hmerged.scopes i fun g hg heq => ?_).trans hx
    obtain ⟨n, hn⟩ := NameMap.mem_values.1 hg
    have hlt := (Array.getElem?_eq_some_iff.1 hi).1
    exact Nat.lt_irrefl _ (Nat.lt_of_lt_of_le (heq ▸ hlt) (hgrouped.scope hn).1)
  · exact (hmerged.objects.trans hgrouped.objects) ▸ ho
  · obtain ⟨g, hg, hl, ho⟩ := hlinking.packages n p hp
    have hg := hentry hg
    exact ⟨g.scope, by rw [hfind, hg]; rfl, hgrouped.files hg ▸ hl, ho⟩
  · have hkeys : (groups.map (·.scope)).keys = groups.entries.map (·.1) := NameMap.keys_map ..
    show s'.diagnostics.toList = _
    rw [hlinking.diagnostics, hmerged.diagnostics, hkeys, List.flatMap_map, List.flatMap_map]
    congr 1
    · unfold NameMap.values
      rw [List.flatMap_map]
      exact List.flatMap_congr fun x hx => congrArg _ (h.group_entries hgrouped (hentry hx))
    · refine List.flatMap_congr fun x hx => ?_
      rw [hgrouped.files (hentry hx)]

end Idl
