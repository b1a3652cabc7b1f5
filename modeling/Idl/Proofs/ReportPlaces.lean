/-
Idl/Proofs/ReportPlaces.lean

Every report has a place.

Reports are made in four stages, and each is about the text of one source: about what is read of it,
about its declarations, its imports and its package clause when it is linked, about its types and its
bad nodes when it is lowered, and about the names in it that stand for nothing (`Source.Causes`).  What
a source causes is reported at a place in this source (`Source.Causes.owned`), however the file sits
among the others, so the place resolves to the name of the source and a line and a column of it.

Main result: where all sources are registered, every report of a compilation has a place in the source
that causes it (`diagnostics_placed`).
-/
import Idl.Proofs.Reordering.Reports
import Idl.Proofs.Syntax.Words

namespace Idl

/-! ### Causes of reports -/

/-- What the text of a source, which sits at `ρ`, is the cause of: one case for each way in which
reports are made. -/
inductive Source.Causes (sources : List Source) (s : Source) (ρ : Placement) : Diagnostic → Prop
  /-- It is about the tokens, the syntax or the scopes of the source. -/
  | read {d : Diagnostic} (h : d ∈ s.alone.diagnostics) : Causes sources s ρ (d.placed ρ)
  /-- It is about a declaration, of a name that another file of the package declares, too. -/
  | merged {e : Entry} (h : e.2 ∈ (s.alone.file.placed ρ).declarations) (first : Option Entry) :
    Causes sources s ρ (mergeError (compile sources).files first e)
  /-- It is about an import of a package that is not there. -/
  | imported {spec : ImportSpec} (h : spec ∈ (s.alone.file.placed ρ).imports) (id : String) :
    Causes sources s ρ (spec.notFound id)
  /-- It is about the source itself, another file of the package having its name. -/
  | repeated (package : String) :
    Causes sources s ρ ((s.alone.file.placed ρ).appearsTwice package)
  /-- It is about a bad node, a tag or the size of an array. -/
  | lowered {d : Diagnostic} {names : File}
    (h : d ∈ (s.alone.file.placed ρ).remarks (loweringEnv sources) names) : Causes sources s ρ d
  /-- It is about a name that stands for nothing. -/
  | unresolved {i : Ident} (h : i ∈ (s.alone.file.placed ρ).references ++
      (s.alone.file.placed ρ).qualifiedNames.flatMap QualifiedRef.idents) (package : String) :
    Causes sources s ρ (UnresolvedIdent.error ⟨package, s.name, i.name, i.pos⟩)

namespace Source

/-- The package clause of a source stands in it. -/
theorem packagePos_owned (s : Source) : s.alone.source.Owns s.alone.file.packagePos := by
  apply s.reading.covers
  exact ⟨.inr (.inr (.inr List.mem_cons_self))⟩

/-- Whatever name a source uses stands in it. -/
theorem used_owned (s : Source) {i : Ident} (hi : i ∈ s.alone.file.references ++
    s.alone.file.qualifiedNames.flatMap QualifiedRef.idents) : s.alone.source.Owns i.pos := by
  apply s.ident_owned
  apply s.mem_idents
  apply List.mem_append_right
  rcases List.mem_append.1 hi with hi | hi
  · exact List.mem_append_left _ ((s.known.mem_refs i).2 hi)
  · exact List.mem_append_right _ hi

/-- What a source causes is reported at a place in it. -/
theorem Causes.owned {sources : List Source} {s : Source} {ρ : Placement} {d : Diagnostic}
    (h : s.Causes sources ρ d) : ∃ p, s.alone.source.Owns p ∧ d.span.start = ρ.pos p := by
  cases h with
  | read h => exact ⟨_, s.diagnostics_owned h, Span.placed_start ..⟩
  | merged h first =>
    rw [File.declarations_placed] at h
    obtain ⟨o, ho, heq⟩ := List.mem_map.1 h
    refine ⟨o.pos, s.declaration_owned ho, ?_⟩
    exact congrArg Object.pos heq.symm
  | imported h id =>
    rw [File.imports_placed] at h
    obtain ⟨spec, hspec, rfl⟩ := List.mem_map.1 h
    exact ⟨spec.path.pos, s.importPath_owned hspec, rfl⟩
  | repeated package => exact ⟨_, s.packagePos_owned, rfl⟩
  | @lowered d names h =>
    have howned : ∀ x ∈ s.alone.file.remarks (loweringEnv sources) names,
        s.alone.source.Owns x.span.start := fun x hx => s.remarks_owned hx
    rw [File.remarks_placed ρ _ _ names fun x hx => (howned x hx).1] at h
    obtain ⟨x, hx, rfl⟩ := List.mem_map.1 h
    exact ⟨_, howned x hx, Span.placed_start ..⟩
  | @unresolved i h package =>
    have hplaced : i ∈ (s.alone.file.references ++
        s.alone.file.qualifiedNames.flatMap QualifiedRef.idents).map (Ident.placed ρ) := by
      rw [List.map_append, List.map_flatMap, ← File.references_placed]
      rw [File.qualifiedNames_placed, List.flatMap_map] at h
      exact h
    obtain ⟨j, hj, rfl⟩ := List.mem_map.1 hplaced
    exact ⟨j.pos, s.used_owned hj, rfl⟩

end Source

/-! ### Reports and their causes -/

/-- Every source has its positions, its number and its lines. -/
def AllRegistered (sources : List Source) : Prop :=
  (compile sources).files.files.size = sources.length

instance (sources : List Source) : Decidable (AllRegistered sources) :=
  inferInstanceAs (Decidable (_ = _))

namespace Board

/-- A file is registered for each source for which there is a place. -/
theorem size_after (b : Board) (sources : List Source) :
    (b.after sources).files.files.size =
      b.files.files.size + (seated (b.layout sources)).length := by
  induction sources generalizing b with
  | nil => rfl
  | cons s sources ih =>
    cases hfit : b.fits s with
    | true =>
      rw [b.after_cons_of_fits s sources hfit, b.layout_cons_of_fits s sources hfit, ih]
      show (b.files.files.push _).size + _ = _ + (List.length _ + 1)
      rw [Array.size_push, Nat.add_right_comm]
      rfl
    | false =>
      rw [b.after_cons_of_not_fits s sources hfit, b.layout_cons_of_not_fits s sources hfit, ih]
      rfl

end Board

/-- Where all sources are registered, all of them are seated. -/
theorem AllRegistered.seated {sources : List Source} (h : AllRegistered sources) :
    ∀ x ∈ Board.empty.layout sources, x.2.isSome = true := by
  have hfiles : (compile sources).files.files.size = (seats sources).length := by
    show (parseSources sources).files.files.size = _
    rw [parseSources_eq]
    show (Board.empty.after sources).files.files.size = _
    rw [Board.size_after]
    exact Nat.zero_add _
  have hall : (seats sources).length = (Board.empty.layout sources).length := by
    have hlength := congrArg List.length (Board.layout_sources .empty sources)
    rw [List.length_map] at hlength
    rw [hlength, ← hfiles]
    exact h
  intro x hx
  have hsome := List.filterMap_length_eq_length.1 hall x hx
  rwa [Option.isSome_map] at hsome

/-- What is reported while the files of a package are linked is about the imports of one of them, or
about one of them that has the name of another. -/
theorem exists_of_mem_linkErrors {scopes : NameMap ScopeId} {n : String} {taken : List String}
    {fs : List File} {d : Diagnostic} (h : d ∈ linkErrors scopes n taken fs) :
    ∃ f ∈ fs, (∃ spec ∈ f.imports, ∃ id, d = spec.notFound id) ∨ d = f.appearsTwice n := by
  induction fs generalizing taken with
  | nil => cases h
  | cons f fs ih =>
    rcases List.mem_append.1 h with h | h
    · refine ⟨f, List.mem_cons_self, ?_⟩
      rcases List.mem_append.1 h with h | h
      · obtain ⟨spec, hspec, hd⟩ := List.mem_flatMap.1 h
        unfold ImportSpec.errors at hd
        split at hd
        · split at hd
          · cases hd
          · exact .inl ⟨spec, hspec, _, List.mem_singleton.1 hd⟩
        · cases hd
      · split at h
        · exact .inr (List.mem_singleton.1 h)
        · cases h
    · obtain ⟨g, hg, hd⟩ := ih h
      exact ⟨g, List.mem_cons_of_mem f hg, hd⟩

section Causes

variable {sources : List Source} {d : Diagnostic}

/-- What is reported while sources are read is caused by one of them. -/
theorem exists_cause_of_parsed (h : AllRegistered sources)
    (hd : d ∈ (parseSources sources).diagnostics) :
    ∃ s ρ, (s, ρ) ∈ seats sources ∧ s.Causes sources ρ d := by
  rw [parseSources_eq] at hd
  obtain ⟨⟨s, ρ?⟩, hx, hd⟩ := List.mem_flatMap.1 hd
  -- a source without a place would be reported without one
  obtain ⟨ρ, rfl⟩ := Option.isSome_iff_exists.1 (h.seated _ hx)
  obtain ⟨x, hread, rfl⟩ := List.mem_map.1 hd
  exact ⟨s, ρ, List.mem_filterMap.2 ⟨_, hx, rfl⟩, .read hread⟩

/-- What is reported while sources are linked is caused by one of them. -/
theorem exists_cause_of_linked (hd : d ∈ (linkSources sources).diagnostics) :
    ∃ s ρ, (s, ρ) ∈ seats sources ∧ s.Causes sources ρ d := by
  obtain ⟨scopes, m, hrun⟩ := linkSources_run sources
  rw [hrun.links.diagnostics] at hd
  rcases List.mem_append.1 hd with hd | hd
  · obtain ⟨n, -, hd⟩ := List.mem_flatMap.1 hd
    obtain ⟨e, he, rfl⟩ := List.mem_map.1 hd
    obtain ⟨-, f, hf, ho⟩ := mem_packageEntries hrun ((repeats_sublist [] _).subset he)
    obtain ⟨s, ρ, hs, rfl⟩ := mem_parsed hf
    exact ⟨s, ρ, hs, .merged ho _⟩
  · obtain ⟨n, -, hd⟩ := List.mem_flatMap.1 hd
    obtain ⟨f, hf, hd⟩ := exists_of_mem_linkErrors hd
    obtain ⟨s, ρ, hs, rfl⟩ := mem_parsed (mem_filesOf.1 hf).1
    rcases hd with ⟨spec, hspec, id, rfl⟩ | rfl
    · exact ⟨s, ρ, hs, .imported hspec id⟩
    · exact ⟨s, ρ, hs, .repeated n⟩

/-- Whatever is reported while sources are read is an error. -/
theorem isError_of_parsed (hd : d ∈ (parseSources sources).diagnostics) : d.isError = true := by
  rw [parseSources_eq] at hd
  obtain ⟨⟨s, ρ?⟩, -, hd⟩ := List.mem_flatMap.1 hd
  cases ρ? with
  | none =>
    rw [List.mem_singleton.1 hd]
    rfl
  | some ρ =>
    obtain ⟨x, hx, rfl⟩ := List.mem_map.1 hd
    have herror : x.isError = true := s.isError_of_mem hx
    exact herror

/-- Whatever is reported while sources are linked is an error. -/
theorem isError_of_linked (hd : d ∈ (linkSources sources).diagnostics) : d.isError = true := by
  obtain ⟨scopes, m, hrun⟩ := linkSources_run sources
  rw [hrun.links.diagnostics] at hd
  rcases List.mem_append.1 hd with hd | hd
  · obtain ⟨n, -, hd⟩ := List.mem_flatMap.1 hd
    obtain ⟨e, -, rfl⟩ := List.mem_map.1 hd
    rfl
  · obtain ⟨n, -, hd⟩ := List.mem_flatMap.1 hd
    obtain ⟨f, -, ⟨spec, -, id, rfl⟩ | rfl⟩ := exists_of_mem_linkErrors hd
    · rfl
    · rfl

/-- A linked file is one of the sources, of which only the resolutions and the unresolved names have
changed. -/
theorem exists_seat_of_file {p : Package} (hp : p ∈ (linkSources sources).packages.values)
    {g : File} (hg : g ∈ p.files.values) :
    ∃ s ρ, (s, ρ) ∈ seats sources ∧ g.filename = s.name ∧
      (∀ env, g.warnings env = (s.alone.file.placed ρ).remarks env g) ∧
      ∀ i ∈ g.unresolved, i ∈ (s.alone.file.placed ρ).references ++
        (s.alone.file.placed ρ).qualifiedNames.flatMap QualifiedRef.idents := by
  obtain ⟨scopes, m, hrun⟩ := linkSources_run sources
  obtain ⟨n, hn⟩ := NameMap.mem_values.1 hp
  obtain ⟨j, -, hlinks, -⟩ := hrun.links.packages hn
  obtain ⟨f, hf, rfl⟩ := hlinks.mem_values hg
  obtain ⟨s, ρ, hs, rfl⟩ := mem_parsed (mem_filesOf.1 hf).1
  refine ⟨s, ρ, hs, s.reading.filename, fun env => File.warnings_eq env _, fun i hi => ?_⟩
  -- what is listed in the end is one of the names that had no answer while the source was read
  have hk := known_of_seated hs
  have hsettled := List.mem_map_of_mem (f := Prod.fst) (mem_linkedFile_unresolved.1 hi)
  have hwaiting := (hk.answers_sublist _ _ _).subset hsettled
  rcases List.mem_append.1 hwaiting with hmem | hmem
  · exact List.mem_append_left _ ((hk.mem_refs i).1 (List.mem_filter.1 hmem).1)
  · exact List.mem_append_right _ hmem

/-- What is reported while sources are lowered is caused by one of them. -/
theorem exists_cause_of_lowered
    (hd : d ∈ loweringWarnings (linkSources sources).packages (linkSources sources).symbols) :
    ∃ s ρ, (s, ρ) ∈ seats sources ∧ s.Causes sources ρ d := by
  obtain ⟨p, hp, hd⟩ := List.mem_flatMap.1 hd
  obtain ⟨g, hg, hd⟩ := List.mem_flatMap.1 hd
  obtain ⟨s, ρ, hs, -, hwarnings, -⟩ := exists_seat_of_file hp hg
  rw [hwarnings] at hd
  exact ⟨s, ρ, hs, .lowered hd⟩

/-- A name that stands for nothing is one that a source uses. -/
theorem exists_cause_of_unresolved (hd : d ∈ (compile sources).unresolvedErrors) :
    ∃ s ρ, (s, ρ) ∈ seats sources ∧ s.Causes sources ρ d := by
  obtain ⟨u, hu, rfl⟩ := List.mem_map.1 hd
  obtain ⟨scopes, m, hrun⟩ := linkSources_run sources
  have hlisted : u ∈ (linkSources sources).packages.values.flatMap Package.unresolved :=
    hrun.links.unresolved ▸ hu
  obtain ⟨p, hp, hu⟩ := List.mem_flatMap.1 hlisted
  obtain ⟨g, hg, hu⟩ := List.mem_flatMap.1 hu
  obtain ⟨i, hi, rfl⟩ := List.mem_map.1 hu
  obtain ⟨s, ρ, hs, hname, -, hunresolved⟩ := exists_seat_of_file hp hg
  rw [hname]
  exact ⟨s, ρ, hs, .unresolved (hunresolved i hi) p.name⟩

end Causes

/-! ### Places of reports -/

/-- A report about a file: it starts in the file, at a line and in a column of it, and it is shown
behind these. -/
structure Diagnostic.StandsIn (files : FileSet) (f : SourceFile) (d : Diagnostic) : Prop where
  owned : f.Owns d.span.start
  filename : (d.position files).filename = f.name
  line : 1 ≤ (d.position files).line
  column : 1 ≤ (d.position files).column
  render : d.render files = (if f.name.isEmpty then "<input>" else f.name) ++ ":" ++
    toString (d.position files).line ++ ":" ++ toString (d.position files).column ++ ": " ++ d.message

/-- What a source causes is shown at a line and in a column of it. -/
theorem Source.Causes.standsIn {sources : List Source} {s : Source} {ρ : Placement}
    {d : Diagnostic} (hs : (s, ρ) ∈ seats sources) (h : s.Causes sources ρ d) :
    d.StandsIn (compile sources).files (s.alone.source.placed ρ) := by
  obtain ⟨p, hp, hstart⟩ := h.owned
  obtain ⟨hname, hbase, -⟩ := s.alone_source
  obtain ⟨-, hle⟩ := Source.owns_bounds hp
  -- the place is looked up in the source alone, where the lines are known
  have hplace : d.position (compile sources).files = s.alone.source.position p := by
    show (parseSources sources).files.position d.span.start = _
    rw [hstart]
    exact position_of_seated hs hp
  have hoffset : p - s.alone.source.base ≤ (bytesOf s.text).length := by
    rw [hbase, bytesOf_eq, length_utf8, ← utf8ByteSize_eq]
    exact Nat.sub_le_iff_le_add'.2 hle
  have hcounted := s.lined.position_eq hp
  have hline : 1 ≤ (d.position (compile sources).files).line := by
    rw [hplace, hcounted]
    show 1 ≤ s.alone.source.lineNumber _
    rw [SourceFile.lineNumber_eq s.hasLinesOf hoffset]
    exact Nat.le_add_right ..
  have hcolumn : 1 ≤ (d.position (compile sources).files).column := by
    rw [hplace, hcounted]
    show 1 ≤ s.alone.source.column _
    rw [SourceFile.column_eq s.hasLinesOf hoffset]
    exact Nat.le_add_left ..
  have hfilename : (d.position (compile sources).files).filename = s.alone.source.name := by
    rw [hplace]
    exact (s.lined.position hp).2
  have hvalid : (d.position (compile sources).files).isValid = true := decide_eq_true hline
  refine ⟨?_, hfilename, hline, hcolumn, ?_⟩
  · rw [hstart]
    exact hp.placed ρ
  · unfold Diagnostic.render Position.text
    rw [if_pos hvalid, if_pos hvalid, hfilename]
    rfl

/-- Every report has a place: if all sources are registered, every report of a compilation, and every
one of a name that stands for nothing, is caused by one of the sources and stands in the file of this
source. -/
theorem diagnostics_placed (sources : List Source) (h : AllRegistered sources) {d : Diagnostic}
    (hd : d ∈ (compile sources).diagnostics ∨ d ∈ (compile sources).unresolvedErrors) :
    ∃ s ∈ sources, ∃ ρ : Placement, s.Causes sources ρ d ∧
      ∃ f, (compile sources).files.files[ρ.fileId]? = some f ∧ f.name = s.name ∧
        f.size = s.text.utf8ByteSize ∧ d.StandsIn (compile sources).files f := by
  have hcause : ∃ s ρ, (s, ρ) ∈ seats sources ∧ s.Causes sources ρ d := by
    rcases hd with hd | hd
    · rcases List.mem_append.1 (mem_sortDiagnostics.1 hd) with hd | hd
      · rcases List.mem_append.1 hd with hd | hd
        · exact exists_cause_of_parsed h hd
        · exact exists_cause_of_linked hd
      · exact exists_cause_of_lowered hd
    · exact exists_cause_of_unresolved hd
  obtain ⟨s, ρ, hs, hcause⟩ := hcause
  obtain ⟨hname, -, hsize⟩ := s.alone_source
  refine ⟨s, mem_of_seat hs, ρ, hcause, s.alone.source.placed ρ, ?_, hname, hsize,
    hcause.standsIn hs⟩
  show (parseSources sources).files.files[ρ.fileId]? = _
  rw [parseSources_eq]
  exact (Board.seats_after sources hs).file

/-- Files about which something is reported at each stage, the first one of which has no name. -/
def troubled : List Source := [
  ⟨"", "package p\nimport \"none\"\nstruct S \x7b\n  X x\n  vector<> y\n\x7d \"\n"⟩,
  ⟨"b.mid", "package p\nenum S \x7b\n\x7d\n"⟩, ⟨"b.mid", "package p\n"⟩]

theorem diagnostics_placed_troubled : AllRegistered troubled ∧
    (parseSources troubled).diagnostics.map (·.message) =
      ["string literal not terminated", "expected type, found '>'",
        "expected declaration, found 'STRING' \""] ∧
    (linkSources troubled).diagnostics.map (·.message) =
      ["S redeclared in this block\n\tprevious declaration at <input>:3:8",
        "package \x60none\x60 not found", "file b.mid appears twice in package p"] ∧
    (loweringWarnings (linkSources troubled).packages (linkSources troubled).symbols).map
      (·.message) = ["malformed type lowered as invalid", "malformed declaration lowered as invalid"] ∧
    (compile troubled).unresolvedErrors.map (·.message) = ["undefined: X"] ∧
    ∀ d, d ∈ (compile troubled).diagnostics ∨ d ∈ (compile troubled).unresolvedErrors →
      ∃ s ∈ troubled, ∃ ρ : Placement, s.Causes troubled ρ d ∧
        ∃ f, (compile troubled).files.files[ρ.fileId]? = some f ∧ f.name = s.name ∧
          f.size = s.text.utf8ByteSize ∧ d.StandsIn (compile troubled).files f := by
  have h : AllRegistered troubled := by decide +kernel
  refine ⟨h, ?_, ?_, ?_, ?_, fun d hd => diagnostics_placed troubled h hd⟩
  · decide +kernel
  · decide +kernel
  · decide +kernel
  · decide +kernel

end Idl
