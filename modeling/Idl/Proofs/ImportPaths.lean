/-
Idl/Proofs/ImportPaths.lean

No import is passed over without a report, save for one kind.

The path of an import is looked at twice.  While a file is parsed, a literal that spells no import
path is reported; while files are linked, an import whose path has no last segment is passed over, as
one that was reported before.  The two agree on all paths but those that end in a slash
(`importId?_eq_none_iff`): these are taken for import paths, and yet they name no package.

An import of any other path is reported where it is parsed (`Source.importPath_reported`), or it is
reported that there is no such package (`Linked.Links.notFound_reported`), or the package has an
object (`Package.Links.imported`).

Main result: an import whose path does not end in a slash is bound or reported
(`import_bound_or_reported`).
-/
import Idl.Proofs.Ir.Clean

namespace Idl

/-! ### Two views of paths -/

/-- Whether a literal spells a path that ends in a slash. -/
def endsInSlash (raw : String) : Bool := (unquote? raw).any (·.toList.getLast? = some '/')

/-- A path has no last segment if it is empty or ends in a slash. -/
theorem lastSegment_eq_nil_iff (path : List Char) :
    lastSegment path = [] ↔ path = [] ∨ path.getLast? = some '/' := by
  unfold lastSegment
  rw [List.reverse_eq_nil_iff]
  induction path using List.reverseRecOn with
  | nil => simp
  | append_singleton path c =>
    by_cases hc : c = '/'
    · simp [hc]
    · simp [hc]

/-- What spells an import path names a package, unless it ends in a slash. -/
theorem importId?_eq_none_iff {raw : String} (h : isImportPath raw = true) :
    importId? raw = none ↔ endsInSlash raw = true := by
  unfold isImportPath at h
  unfold importId? endsInSlash
  cases hpath : unquote? raw with
  | none => simp [hpath] at h
  | some path =>
    rw [hpath] at h
    have hnonempty : path.toList ≠ [] := by
      intro hnil
      simp [String.toList_eq_nil_iff.1 hnil] at h
    have hsegment := lastSegment_eq_nil_iff path.toList
    rw [or_iff_right hnonempty] at hsegment
    rw [Option.bind_some, Option.any_some, decide_eq_true_iff, ← hsegment]
    by_cases hnil : lastSegment path.toList = []
    · simp [hnil]
    · simp [hnil]

/-! ### What is reported about paths -/

/-- What spells no import path is reported where it stands. -/
theorem Source.importPath_reported (s : Source) {spec : ImportSpec}
    (hspec : spec ∈ s.alone.file.imports) (h : isImportPath spec.path.text = false) :
    ∃ d ∈ s.alone.diagnostics, d.isError = true ∧ d.span.start = spec.path.pos := by
  obtain ⟨d, hd, hspec⟩ := List.mem_flatMap.1 hspec
  have hpath : spec.path.pos ∈ spec.account.faults :=
    List.mem_append_right _ (Lit.mem_faults_pathAccount.2 ⟨h, rfl⟩)
  have hfault : spec.path.pos ∈ s.account.faults := by
    refine List.mem_append_right _ (mem_faults_decls hd (fun scope index => ?_) _ _)
    cases d with
    | imports g => exact Account.mem_faults_all hspec hpath
    | _ => cases hspec
  -- every fault of a source that the account lists has a report of its own
  obtain ⟨reports, hperm, hplain, hfaults⟩ := s.reading.diagnostics
  obtain ⟨d, hd, hstart⟩ := hfaults _ hfault
  have hmem := hperm.symm.subset (List.mem_append_left _ (List.mem_append_right _ hd))
  exact ⟨d, hmem, (hplain d hd).1.isError, hstart⟩

/-- What spells no import path is reported in every compilation. -/
theorem importPath_reported {sources : List Source} {f : File}
    (hf : f ∈ (parseSources sources).parsed) {spec : ImportSpec} (hspec : spec ∈ f.imports)
    (h : isImportPath spec.path.text = false) :
    ∃ d ∈ (compile sources).diagnostics, d.isError = true ∧ d.span.start = spec.path.pos := by
  obtain ⟨s, ρ, hs, rfl⟩ := mem_parsed hf
  rw [File.imports_placed] at hspec
  obtain ⟨written, hwritten, rfl⟩ := List.mem_map.1 hspec
  obtain ⟨d, hd, herror, hstart⟩ := s.importPath_reported hwritten h
  refine ⟨d.placed ρ, placed_mem_diagnostics hs hd, herror, ?_⟩
  exact (Span.placed_start ρ d.span).trans (congrArg ρ.pos hstart)

/-! ### What linking does about paths -/

section Linked

variable {scopes : NameMap ScopeId}

/-- Whatever is reported about the imports of a file is reported about its package. -/
theorem mem_linkErrors {fs : List File} {f : File} (hf : f ∈ fs) {d : Diagnostic}
    (hd : d ∈ f.imports.flatMap (ImportSpec.errors scopes)) (package : String)
    (taken : List String) : d ∈ linkErrors scopes package taken fs := by
  induction fs generalizing taken with
  | nil => cases hf
  | cons g fs ih =>
    rcases List.mem_cons.1 hf with rfl | hf
    · exact List.mem_append_left _ (List.mem_append_left _ hd)
    · exact List.mem_append_right _ (ih hf _)

/-- An import of a package that is not there is reported. -/
theorem Linked.Links.notFound_reported {files : FileSet} {t m : SymbolTable} {fs : List File}
    {l : Linked} (h : l.Links files t fs scopes m) {n id : String} {f : File}
    (hf : f ∈ filesOf fs n) {spec : ImportSpec} (hspec : spec ∈ f.imports)
    (hid : spec.id? = some id) (hnone : scopes.find? id = none) :
    spec.notFound id ∈ l.diagnostics := by
  have herror : spec.notFound id ∈ spec.errors scopes := by
    unfold ImportSpec.errors
    simp [hid, hnone]
  have hpackage : n ∈ scopes.keys := by
    obtain ⟨hmem, hname⟩ := mem_filesOf.1 hf
    exact NameMap.mem_keys.2 (Option.isSome_iff_exists.1 ((h.named n).2 ⟨f, hmem, hname⟩))
  rw [h.diagnostics]
  refine List.mem_append_right _ (List.mem_flatMap.2 ⟨n, hpackage, ?_⟩)
  exact mem_linkErrors hf (List.mem_flatMap.2 ⟨spec, hspec, herror⟩) _ _

/-- An import of a package that is there is bound. -/
theorem Package.Links.imported {m : SymbolTable} {n id : String} {i j : ScopeId} {fs : List File}
    {p : Package} (h : p.Links m scopes n i fs) {f : File} (hf : f ∈ fs) {spec : ImportSpec}
    (hspec : spec ∈ f.imports) (hid : spec.id? = some id) (hscope : scopes.find? id = some j) :
    p.imports.contains id = true := by
  have htarget : spec.target? scopes = some (id, j) := by
    unfold ImportSpec.target?
    rw [hid, Option.bind_some, hscope]
    rfl
  exact (h.found id).2 ⟨f, hf, spec, hspec, j, htarget⟩

end Linked

/-! ### Imports of a compilation -/

/-- No import is passed over without a report, unless its path ends in a slash: its package is among
the imports of the package that it stands in, or else an error is reported where its path stands. -/
theorem import_bound_or_reported (sources : List Source) {p : Package}
    (hp : p ∈ (compile sources).packages.values) {f : File} (hf : f ∈ p.files.values)
    {spec : ImportSpec} (hspec : spec ∈ f.imports) (hslash : endsInSlash spec.path.text = false) :
    (∃ id, spec.id? = some id ∧ p.imports.contains id = true) ∨
      ∃ d ∈ (compile sources).diagnostics, d.isError = true ∧ d.span.start = spec.path.pos := by
  obtain ⟨scopes, m, hrun⟩ := linkSources_run sources
  obtain ⟨n, hn⟩ := NameMap.mem_values.1 hp
  obtain ⟨i, -, hlinks, -⟩ := hrun.links.packages hn
  obtain ⟨f₀, hf₀, rfl⟩ := hlinks.mem_values hf
  have hspec : spec ∈ f₀.imports := hspec
  by_cases hvalid : isImportPath spec.path.text = true
  · -- a path that is not reported where it is parsed names a package
    obtain ⟨id, hid⟩ : ∃ id, spec.id? = some id := by
      rw [← Option.ne_none_iff_exists']
      intro hnone
      rw [(importId?_eq_none_iff hvalid).1 hnone] at hslash
      cases hslash
    cases hscope : scopes.find? id with
    | some j => exact .inl ⟨id, hid, hlinks.imported hf₀ hspec hid hscope⟩
    | none =>
      have hreported := hrun.links.notFound_reported hf₀ hspec hid hscope
      refine .inr ⟨spec.notFound id, ?_, rfl, rfl⟩
      exact mem_sortDiagnostics.2 (List.mem_append_left _ (List.mem_append_right _ hreported))
  · exact .inr (importPath_reported (mem_filesOf.1 hf₀).1 hspec (eq_false_of_ne_true hvalid))

/-- Imports of a package that is there, of one that is not, and of what is no path. -/
def importing : List Source := [
  ⟨"a.mid", "package a\nimport (\n  \"x/b\"\n  \"c\"\n  \"x y\"\n)\n"⟩, ⟨"b.mid", "package b\n"⟩]

theorem import_bound_or_reported_importing :
    ∃ p ∈ (compile importing).packages.values, ∃ f ∈ p.files.values,
      f.imports.map (·.id?) = [some "b", some "c", some "x y"] ∧
      ∀ spec ∈ f.imports, endsInSlash spec.path.text = false ∧
        ((∃ id, spec.id? = some id ∧ p.imports.contains id = true) ∨
          ∃ d ∈ (compile importing).diagnostics, d.isError = true ∧
            d.span.start = spec.path.pos) := by
  have hfound : ∃ p ∈ (compile importing).packages.values, ∃ f ∈ p.files.values,
      f.imports.map (·.id?) = [some "b", some "c", some "x y"] ∧
      ∀ spec ∈ f.imports, endsInSlash spec.path.text = false := by decide +kernel
  obtain ⟨p, hp, f, hf, hids, hslash⟩ := hfound
  exact ⟨p, hp, f, hf, hids, fun spec hspec => ⟨hslash spec hspec,
    import_bound_or_reported importing hp hf hspec (hslash spec hspec)⟩⟩

/-- A file that imports a path that ends in a slash. -/
def slashed : List Source := [⟨"a.mid", "package p\nimport \"a/\"\n"⟩]

/-- A path that ends in a slash is passed over, and nothing is reported at all. -/
theorem slashed_passed_over :
    (∃ p ∈ (compile slashed).packages.values, ∃ f ∈ p.files.values, ∃ spec ∈ f.imports,
      spec.path.text = "\"a/\"" ∧
      ¬ ((∃ id, spec.id? = some id ∧ p.imports.contains id = true) ∨
        ∃ d ∈ (compile slashed).diagnostics, d.isError = true ∧ d.span.start = spec.path.pos)) ∧
      (compile slashed).diagnostics = [] := by
  have hnothing : (compile slashed).diagnostics = [] := List.isEmpty_iff.1 (by decide +kernel)
  have hspec : ∃ p ∈ (compile slashed).packages.values, ∃ f ∈ p.files.values,
      ∃ spec ∈ f.imports, spec.path.text = "\"a/\"" ∧ spec.id? = none := by decide +kernel
  obtain ⟨p, hp, f, hf, spec, hspec, htext, hid⟩ := hspec
  refine ⟨⟨p, hp, f, hf, spec, hspec, htext, ?_⟩, hnothing⟩
  rintro (⟨id, hsome, -⟩ | ⟨d, hd, -⟩)
  · rw [hid] at hsome
    cases hsome
  · rw [hnothing] at hd
    cases hd

end Idl
