/-
Idl/Proofs/Reordering/Reports.lean

Reports in two orders.

What is shown of a report is its place and its message, and reports are sorted by place, which keeps
the order of those in one place.  A place lies in one source only.  So it is enough that every source
brings the same reports, in the same order (`filter_flatMap_of_perm`), whatever comes in between: when
it is read (`Source.reports`), when its imports are looked for (`Source.importReports`), and when it
is lowered (`Interchangeable.remarks_eq`).

Main result: the order of sources does not matter (`compile_perm`).
-/
import Idl.Proofs.Reordering.Lowering

namespace Idl

/-! ### Places in order -/

namespace Position

theorem le_iff {p q : Position} : p.le q = true ↔ p.filename < q.filename ∨
    p.filename = q.filename ∧ (p.line < q.line ∨ p.line = q.line ∧ p.column ≤ q.column) := by
  unfold le
  split
  · next hname =>
    have hirrefl : ¬ p.filename < q.filename := hname ▸ String.lt_irrefl _
    split
    · next hline => simp [hname, hline]
    · next hline => simp [hname, hline]
  · next hname => simp [hname]

theorem le_trans (p q r : Position) (h : p.le q = true) (h' : q.le r = true) : p.le r = true := by
  rw [le_iff] at *
  rcases h with h | ⟨hname, h⟩ <;> rcases h' with h' | ⟨hname', h'⟩
  · exact .inl (String.lt_trans h h')
  · exact .inl (hname' ▸ h)
  · exact .inl (hname ▸ h')
  · exact .inr ⟨hname.trans hname', by omega⟩

theorem le_total (p q : Position) : (p.le q || q.le p) = true := by
  rw [Bool.or_eq_true, le_iff, le_iff]
  by_cases hname : p.filename = q.filename
  · rcases Nat.lt_trichotomy p.line q.line with h | h | h
    · exact .inl (.inr ⟨hname, .inl h⟩)
    · exact (Nat.le_total p.column q.column).imp (fun hc => .inr ⟨hname, .inr ⟨h, hc⟩⟩)
        fun hc => .inr ⟨hname.symm, .inr ⟨h.symm, hc⟩⟩
    · exact .inr (.inr ⟨hname.symm, .inl h⟩)
  · by_cases hlt : p.filename < q.filename
    · exact .inl (.inl hlt)
    · exact .inr (.inl (NameMap.lt_of_not_lt_of_ne hlt hname))

/-- Places of one rank are in one file. -/
theorem filename_eq {p q : Position} (h : p.le q = true) (h' : q.le p = true) :
    p.filename = q.filename := by
  rw [le_iff] at *
  rcases h with h | ⟨hname, -⟩
  · rcases h' with h' | ⟨hname, -⟩
    · exact absurd (String.lt_trans h h') (String.lt_irrefl _)
    · exact hname.symm
  · exact hname

end Position

/-! ### What is shown of a report -/

/-- A place and a message. -/
abbrev Shown := Position × String

/-- The message behind its place, or alone if the place is unknown. -/
def Shown.text (x : Shown) : String := if x.1.isValid then x.1.text ++ ": " ++ x.2 else x.2

namespace Shown

/-- The order of places. -/
def le (x y : Shown) : Bool := x.1.le y.1

theorem le_trans (x y z : Shown) (h : x.le y = true) (h' : y.le z = true) : x.le z = true :=
  Position.le_trans _ _ _ h h'

theorem le_total (x y : Shown) : (x.le y || y.le x) = true := Position.le_total ..

end Shown

namespace Diagnostic

/-- What is shown of a report. -/
def shown (files : FileSet) (d : Diagnostic) : Shown := (d.position files, d.message)

/-- What is shown of a report about one file, before that is placed. -/
def shownIn (f : SourceFile) (d : Diagnostic) : Shown := (f.position d.span.start, d.message)

/-- A report about a source is shown alike wherever the source sits. -/
theorem shown_placed {sources : List Source} {s : Source} {ρ : Placement}
    (hs : (s, ρ) ∈ seats sources) {ds : List Diagnostic}
    (howned : ∀ d ∈ ds, s.alone.source.Owns d.span.start) :
    (ds.map (Diagnostic.placed ρ)).map (shown (parseSources sources).files) =
      ds.map (shownIn s.alone.source) := by
  rw [List.map_map]
  refine List.map_congr_left fun d hd => ?_
  have hplace : (parseSources sources).files.position (d.span.placed ρ).start =
      s.alone.source.position d.span.start := by
    rw [Span.placed_start]
    exact position_of_seated hs (howned d hd)
  exact congrArg (·, d.message) hplace

end Diagnostic

/-- Sorted reports are what is shown of all reports, sorted. -/
theorem render_sortDiagnostics (files : FileSet) (ds : List Diagnostic) :
    (sortDiagnostics files ds).map (·.render files) =
      ((ds.map (Diagnostic.shown files)).mergeSort Shown.le).map Shown.text := by
  let shown (x : Position × Diagnostic) : Shown := (x.1, x.2.message)
  have hsort : ((ds.map fun d => (d.position files, d)).mergeSort fun a b => a.1.le b.1).map shown =
      (ds.map (Diagnostic.shown files)).mergeSort Shown.le := by
    have hmap := List.map_mergeSort (f := shown) (r := fun a b => a.1.le b.1) (s := Shown.le)
      (l := ds.map fun d => (d.position files, d)) fun _ _ _ _ => rfl
    rwa [List.map_map] at hmap
  unfold sortDiagnostics
  rw [← hsort, List.map_map, List.map_map]
  refine List.map_congr_left fun x hx => ?_
  obtain ⟨d, -, rfl⟩ := List.mem_map.1 (List.mem_mergeSort.1 hx)
  rfl

/-! ### One place in one source -/

/-- Where the elements that count come from one part only, the order of the parts does not matter. -/
theorem filter_flatMap_of_perm {α β κ : Type} {φ : α → κ} {xs ys : List α} (hperm : xs.Perm ys)
    (hnodup : (xs.map φ).Nodup) {f : α → List β} {p : β → Bool}
    (hone : ∀ x ∈ xs, ∀ y ∈ xs, (∃ b ∈ f x, p b = true) → (∃ b ∈ f y, p b = true) → φ x = φ y) :
    (xs.flatMap f).filter p = (ys.flatMap f).filter p := by
  have hempty {x : α} (h : ¬ ∃ b ∈ f x, p b = true) : (f x).filter p = [] :=
    List.filter_eq_nil_iff.2 fun b hb hp => h ⟨b, hb, hp⟩
  rw [List.filter_flatMap, List.filter_flatMap]
  induction hperm with
  | nil => rfl
  | cons x _ ih =>
    rw [List.flatMap_cons, List.flatMap_cons, ih (List.nodup_cons.1 hnodup).2 fun y hy z hz =>
      hone y (List.mem_cons_of_mem x hy) z (List.mem_cons_of_mem x hz)]
  | swap x y xs =>
    have hne : φ y ≠ φ x := fun heq =>
      (List.nodup_cons.1 hnodup).1 (List.mem_map.2 ⟨x, List.mem_cons_self, heq.symm⟩)
    simp only [List.flatMap_cons]
    -- of two neighbours one brings nothing that counts
    by_cases hx : ∃ b ∈ f x, p b = true
    · have hy : ¬ ∃ b ∈ f y, p b = true := fun hy =>
        hne (hone y List.mem_cons_self x (List.mem_cons_of_mem y List.mem_cons_self) hy hx)
      rw [hempty hy, List.nil_append, List.nil_append]
    · rw [hempty hx, List.nil_append, List.nil_append]
  | trans hxy _ ih ih' =>
    rw [ih hnodup hone, ih' ((hxy.map φ).nodup_iff.1 hnodup) fun x hx y hy =>
      hone x (hxy.symm.subset hx) y (hxy.symm.subset hy)]

/-! ### Reports by sources -/

/-- What is shown of the reports that a source brings. -/
def Source.shownReports (f : Source → List Diagnostic) (s : Source) : List Shown :=
  (f s).map (Diagnostic.shownIn s.alone.source)

/-- Reports of which each is about the source that brings it. -/
def OwnReports (f : Source → List Diagnostic) : Prop :=
  ∀ s, ∀ d ∈ f s, s.alone.source.Owns d.span.start

namespace OwnReports

variable {f : Source → List Diagnostic} (h : OwnReports f)
include h

/-- The rank of a report tells which source brings it. -/
theorem name_eq {s : Source} {a : Shown}
    (hb : ∃ b ∈ s.shownReports f, ranksAlike Shown.le a b = true) : s.name = a.1.filename := by
  obtain ⟨b, hb, ha⟩ := hb
  obtain ⟨d, hd, rfl⟩ := List.mem_map.1 hb
  obtain ⟨hab, hba⟩ := Bool.and_eq_true_iff.1 ha
  have hplace : (d.shownIn s.alone.source).1.filename = s.name :=
    (s.lined.position (h s d hd)).2.trans s.alone_source.1
  exact hplace.symm.trans (Position.filename_eq hba hab)

/-- The reports of one rank come in one order, whatever the order of the sources. -/
theorem filter_eq {sources sources' : List Source} (hperm : sources.Perm sources')
    (hnames : (sources.map (·.name)).Nodup) (a : Shown) :
    (sources.flatMap (Source.shownReports f)).filter (ranksAlike Shown.le a) =
      (sources'.flatMap (Source.shownReports f)).filter (ranksAlike Shown.le a) :=
  filter_flatMap_of_perm hperm hnames fun _ _ _ _ hb hb' => (h.name_eq hb).trans (h.name_eq hb').symm

end OwnReports

/-- Where there are positions for all sources, each of them brings its reports. -/
theorem Board.diagnosticsOf_layout {b : Board} {sources : List Source}
    (h : b.files.next + (sources.map Source.extent).sum < positionBound) :
    diagnosticsOf (b.layout sources) = (seated (b.layout sources)).flatMap fun x =>
      x.1.alone.diagnostics.map (Diagnostic.placed x.2) := by
  induction sources generalizing b with
  | nil => rfl
  | cons s sources ih =>
    rw [List.map_cons, List.sum_cons, Source.extent] at h
    have hfit : b.fits s = true := decide_eq_true (by unfold Pos at *; omega)
    have hrest : (b.put s).files.next + (sources.map Source.extent).sum < positionBound := by
      show b.files.next + s.text.utf8ByteSize + 1 + _ < _
      unfold Pos at *
      omega
    rw [b.layout_cons_of_fits s sources hfit]
    exact congrArg (s.alone.diagnostics.map (Diagnostic.placed b.placement) ++ ·) (ih hrest)

/-! ### Reports about imports -/

/-- What is reported about an import. -/
def ImportSpec.missing (fs : List File) (spec : ImportSpec) : List Diagnostic :=
  match spec.id? with
  | some id => if fs.any (·.name.name = id) then [] else [spec.notFound id]
  | none => []

/-- What is reported about the imports of a file. -/
def File.missingImports (fs : List File) (f : File) : List Diagnostic :=
  f.imports.flatMap (ImportSpec.missing fs)

theorem File.missingImports_placed (ρ : Placement) (fs : List File) (f : File) :
    (f.placed ρ).missingImports fs = (f.missingImports fs).map (Diagnostic.placed ρ) := by
  unfold missingImports
  rw [File.imports_placed, List.flatMap_map, List.map_flatMap]
  refine List.flatMap_congr fun spec _ => ?_
  have hid : (spec.placed ρ).id? = spec.id? := rfl
  have hnotFound (id : String) : (spec.placed ρ).notFound id = (spec.notFound id).placed ρ :=
    congrArg (Diagnostic.error _) (Lit.placed_span ρ spec.path)
  unfold ImportSpec.missing
  rw [hid]
  cases spec.id? with
  | none => rfl
  | some id =>
    dsimp only
    rw [hnotFound]
    split <;> rfl

/-- The path of an import stands in its source. -/
theorem Source.importPath_owned (s : Source) {spec : ImportSpec}
    (h : spec ∈ s.alone.file.imports) : s.alone.source.Owns spec.path.pos := by
  obtain ⟨d, hd, hspec⟩ := List.mem_flatMap.1 h
  refine s.reading.covers _ (Account.Covers.append_right (covers_decls hd (fun scope index => ?_) _ _) _)
  cases d with
  | imports g =>
    have hpath : spec.account.Covers spec.path.pos := Account.Covers.append_right
      ⟨.inr (.inr (.inr List.mem_cons_self))⟩ _
    exact Account.covers_all hspec hpath
  | _ => cases hspec

theorem Source.missingImports_owned (s : Source) (fs : List File) {d : Diagnostic}
    (hd : d ∈ s.alone.file.missingImports fs) : s.alone.source.Owns d.span.start := by
  obtain ⟨spec, hspec, hd⟩ := List.mem_flatMap.1 hd
  unfold ImportSpec.missing at hd
  split at hd
  · split at hd
    · cases hd
    · rw [List.mem_singleton.1 hd]
      exact s.importPath_owned hspec
  · cases hd

/-- Where no two files have one name, only imports are reported while files are linked. -/
theorem linkErrors_eq (scopes : NameMap ScopeId) (package : String) {taken : List String}
    {fs : List File} (hnames : (fs.map File.filename).Nodup)
    (htaken : ∀ f ∈ fs, f.filename ∉ taken) : linkErrors scopes package taken fs =
      fs.flatMap fun f => f.imports.flatMap (ImportSpec.errors scopes) := by
  induction fs generalizing taken with
  | nil => rfl
  | cons f fs ih =>
    obtain ⟨hnew, hnames⟩ := List.nodup_cons.1 hnames
    have htail : ∀ g ∈ fs, g.filename ∉ f.filename :: taken := by
      intro g hg hmem
      rcases List.mem_cons.1 hmem with heq | hmem
      · exact hnew (heq ▸ List.mem_map_of_mem hg)
      · exact htaken g (List.mem_cons_of_mem f hg) hmem
    rw [linkErrors, if_neg (htaken f List.mem_cons_self), ih hnames htail, List.append_nil,
      List.flatMap_cons]

/-- Where no name comes twice, nothing is repeated. -/
theorem repeats_eq_nil {α κ : Type} [DecidableEq κ] {φ : α → Option κ} {xs : List α}
    (h : (xs.filterMap φ).Nodup) : repeats φ [] xs = [] := by
  refine List.eq_nil_iff_forall_not_mem.2 fun x hx => ?_
  obtain ⟨as, bs, k, rfl, hk, hseen⟩ := mem_repeats.1 hx
  obtain ⟨y, hy, hyk⟩ := hseen.resolve_left List.not_mem_nil
  rw [List.filterMap_append, List.filterMap_cons_some hk, List.nodup_append] at h
  exact h.2.2 k (List.mem_filterMap.2 ⟨y, hy, hyk⟩) k List.mem_cons_self rfl

/-- What is shown of all reports of a run, in the order in which they are made. -/
def shownOf (sources : List Source) : List Shown :=
  (parseSources sources).diagnostics.map (Diagnostic.shown (parseSources sources).files) ++
    (linkSources sources).diagnostics.map (Diagnostic.shown (parseSources sources).files) ++
      (loweringWarnings (linkSources sources).packages (linkSources sources).symbols).map
        (Diagnostic.shown (parseSources sources).files)

theorem render_compile (sources : List Source) :
    (compile sources).diagnostics.map (·.render (compile sources).files) =
      ((shownOf sources).mergeSort Shown.le).map Shown.text := by
  refine (render_sortDiagnostics (parseSources sources).files _).trans ?_
  rw [List.map_append, List.map_append]
  rfl

namespace Interchangeable

variable {sources : List Source} (h : Interchangeable sources)
include h

/-- No two parsed files have one name. -/
theorem filenames_nodup : ((parseSources sources).parsed.map File.filename).Nodup := by
  have hnames := h.names
  rw [← h.map_fst_seats, List.map_map] at hnames
  rw [parseSources_eq]
  have hfilename (x : Source × Placement) : (x.1.alone.file.placed x.2).filename = x.1.name :=
    x.1.reading.filename
  show ((((seats sources).map _)).map _).Nodup
  rw [List.map_map]
  simpa only [Function.comp_def, hfilename] using hnames

/-- Merging scopes reports nothing, for no name is declared twice. -/
theorem mergeErrors_eq_nil (n : String) : mergeErrors (parseSources sources).files
    (packageEntries (parseSources sources).symbols (parseSources sources).parsed n) = [] := by
  obtain ⟨scopes, m, hrun⟩ := linkSources_run sources
  have hfile {f : File} (hf : f ∈ filesOf (parseSources sources).parsed n) :
      ((parseSources sources).symbols.entries f.scope).filterMap Entry.key =
        (firsts Object.key [] f.declarations).filterMap Object.key := by
    obtain ⟨refs, hk⟩ := hrun.known f (mem_filesOf.1 hf).1
    rw [← hk.entries, List.filterMap_map]
    refine List.filterMap_congr fun e he => ?_
    have hmem : e ∈ packageEntries (parseSources sources).symbols (parseSources sources).parsed n :=
      List.mem_flatMap.2 ⟨f, hf, he⟩
    exact (mem_packageEntries hrun hmem).1.symm
  have hdeclared {f : File} {k : String}
      (hk : k ∈ (firsts Object.key [] f.declarations).filterMap Object.key) :
      k ≠ "_" ∧ ∃ i ∈ f.declared, i.name = k := by
    obtain ⟨o, ho, hkey⟩ := List.mem_filterMap.1 hk
    obtain ⟨rfl, hne⟩ := Object.key_eq_some.1 hkey
    exact ⟨hne, File.exists_declared ((firsts_sublist [] _).subset ho)⟩
  have honce : (filesOf (parseSources sources).parsed n).Pairwise fun f g =>
      ∀ i ∈ f.declared, ∀ j ∈ g.declared, i.name = j.name → i.isBlank = true := by
    refine (h.once.sublist (List.filter_sublist (p := fun f => f.name.name = n))).imp_of_mem ?_
    intro f g hf hg hfg
    exact hfg ((mem_filesOf.1 hf).2.trans (mem_filesOf.1 hg).2.symm)
  -- a file keeps one declaration of each name, and two files of the package keep different names
  unfold mergeErrors complaints
  rw [List.map_eq_nil_iff]
  refine repeats_eq_nil ?_
  unfold packageEntries
  rw [List.filterMap_flatMap, List.flatMap_congr fun f hf => hfile hf, List.nodup_flatMap]
  refine ⟨fun f _ => (firsts_keys [] f.declarations).1, honce.imp fun {f g} hfg => ?_⟩
  intro k hk hk'
  obtain ⟨hne, i, hi, rfl⟩ := hdeclared hk
  obtain ⟨-, j, hj, hname⟩ := hdeclared hk'
  exact hne (of_decide_eq_true (hfg i hi j hj hname.symm))

/-- What is reported while sources are linked: imports of packages that are not there, package by
package. -/
theorem linked_diagnostics : ∃ names : List String,
    (names.flatMap (filesOf (parseSources sources).parsed)).Perm (parseSources sources).parsed ∧
    (linkSources sources).diagnostics = (names.flatMap (filesOf (parseSources sources).parsed)).flatMap
      (File.missingImports (parseSources sources).parsed) := by
  obtain ⟨scopes, m, hrun⟩ := linkSources_run sources
  refine ⟨scopes.keys, flatMap_filesOf_perm (NameMap.keys_nodup _) fun f hf => ?_, ?_⟩
  · exact NameMap.mem_keys.2 (Option.isSome_iff_exists.1 ((hrun.links.named _).2 ⟨f, hf, rfl⟩))
  · have hmerge : (scopes.keys.flatMap fun n => mergeErrors (parseSources sources).files
        (packageEntries (parseSources sources).symbols (parseSources sources).parsed n)) = [] :=
      List.flatMap_eq_nil_iff.2 fun n _ => h.mergeErrors_eq_nil n
    have herrors : ImportSpec.errors scopes = ImportSpec.missing (parseSources sources).parsed := by
      funext spec
      unfold ImportSpec.errors ImportSpec.missing
      cases spec.id? with
      | none => rfl
      | some id =>
        have hany : (scopes.find? id).isSome =
            (parseSources sources).parsed.any fun f => f.name.name = id := by
          rw [Bool.eq_iff_iff, hrun.links.named, List.any_eq_true]
          simp only [decide_eq_true_eq]
        dsimp only
        rw [hany]
    rw [hrun.links.diagnostics, hmerge, List.nil_append, List.flatMap_assoc]
    refine List.flatMap_congr fun n _ => ?_
    have hnames : ((filesOf (parseSources sources).parsed n).map File.filename).Nodup :=
      h.filenames_nodup.sublist (List.filter_sublist.map _)
    rw [linkErrors_eq scopes n hnames fun _ _ => List.not_mem_nil, herrors]
    rfl

/-! ### Reports of one run -/

/-- What is shown of reports that each source brings, wherever it sits. -/
theorem shown_seats {f : Source → List Diagnostic} (hf : OwnReports f) :
    (seats sources).flatMap (fun x => ((f x.1).map (Diagnostic.placed x.2)).map
        (Diagnostic.shown (parseSources sources).files)) =
      sources.flatMap (Source.shownReports f) := by
  have hfirst : sources.flatMap (Source.shownReports f) =
      (seats sources).flatMap fun x => x.1.shownReports f := by
    conv_lhs => rw [← h.map_fst_seats]
    exact List.flatMap_map ..
  rw [hfirst]
  exact List.flatMap_congr fun x hx => Diagnostic.shown_placed hx (hf x.1)

/-- What is shown of the reports while sources are read. -/
theorem shown_parsed : (parseSources sources).diagnostics.map
    (Diagnostic.shown (parseSources sources).files) =
      sources.flatMap (Source.shownReports fun s => s.alone.diagnostics) := by
  have hreports : (parseSources sources).diagnostics = (seats sources).flatMap fun x =>
      x.1.alone.diagnostics.map (Diagnostic.placed x.2) := by
    rw [parseSources_eq]
    exact Board.diagnosticsOf_layout h.room
  rw [hreports, List.map_flatMap]
  exact h.shown_seats fun s _ hd => s.diagnostics_owned hd

omit h in
/-- The reports about imports that sources bring are about these sources. -/
theorem missingImports_own (fs : List File) :
    OwnReports fun s => s.alone.file.missingImports fs := fun s _ hd => s.missingImports_owned fs hd

/-- What is shown of the reports while sources are linked, at one rank. -/
theorem filter_shown_linked (a : Shown) : ((linkSources sources).diagnostics.map
    (Diagnostic.shown (parseSources sources).files)).filter (ranksAlike Shown.le a) =
      (sources.flatMap (Source.shownReports fun s =>
        s.alone.file.missingImports (parseSources sources).parsed)).filter (ranksAlike Shown.le a) := by
  have hown := missingImports_own (parseSources sources).parsed
  -- files are linked package by package, so they come in the order of the sources at each rank only
  obtain ⟨names, hperm, hreports⟩ := h.linked_diagnostics
  have hshown {x : Source × Placement} (hx : x ∈ seats sources) :
      ((x.1.alone.file.placed x.2).missingImports (parseSources sources).parsed).map
        (Diagnostic.shown (parseSources sources).files) = x.1.shownReports fun s =>
          s.alone.file.missingImports (parseSources sources).parsed := by
    rw [File.missingImports_placed]
    exact Diagnostic.shown_placed hx (hown x.1)
  have hname {f : File} (hf : f ∈ (parseSources sources).parsed)
      (hb : ∃ b ∈ (f.missingImports (parseSources sources).parsed).map
        (Diagnostic.shown (parseSources sources).files), ranksAlike Shown.le a b = true) :
      f.filename = a.1.filename := by
    obtain ⟨s, ρ, hs, rfl⟩ := mem_parsed hf
    rw [hshown hs] at hb
    exact s.reading.filename.trans (hown.name_eq hb)
  have hnodup := (hperm.map File.filename).nodup_iff.2 h.filenames_nodup
  have hparsed : (parseSources sources).parsed =
      (seats sources).map fun x => x.1.alone.file.placed x.2 := by
    rw [parseSources_eq]
    rfl
  rw [hreports, List.map_flatMap, filter_flatMap_of_perm hperm hnodup fun f hf g hg hb hb' =>
    (hname (hperm.subset hf) hb).trans (hname (hperm.subset hg) hb').symm]
  congr 1
  refine Eq.trans ?_ (h.shown_seats hown)
  conv_lhs => rw [hparsed]
  rw [List.flatMap_map]
  refine List.flatMap_congr fun x hx => ?_
  rw [← hparsed, File.missingImports_placed]

end Interchangeable

/-! ### Unresolved names -/

/-- What is shown of an unresolved name: its package, its file, its spelling and its place. -/
def UnresolvedIdent.shown (files : FileSet) (u : UnresolvedIdent) :
    String × String × String × Position :=
  (u.package, u.filename, u.name, files.position u.pos)

/-- A name that stands for nothing stands in its source. -/
theorem Source.lost_owned (s : Source) (fs : List File) {i : Ident}
    (hi : i ∈ s.alone.file.lost fs) : s.alone.source.Owns i.pos := by
  refine s.ident_owned (s.mem_idents (List.mem_append_right _ (List.mem_append.2 ?_)))
  rcases List.mem_append.1 hi with hi | hi
  · have hi := (List.mem_filter.1 hi).1
    rw [s.known.unresolved] at hi
    exact .inl (List.mem_filter.1 hi).1
  · obtain ⟨q, hq, hi⟩ := List.mem_flatMap.1 hi
    rw [s.known.qualified] at hq
    refine .inr (List.mem_flatMap.2 ⟨q, hq, ?_⟩)
    unfold QualifiedRef.lost at hi
    split at hi
    · exact List.mem_singleton.1 hi ▸ List.mem_cons_self
    · split at hi
      · exact List.mem_singleton.1 hi ▸ List.mem_cons_of_mem _ List.mem_cons_self
      · cases hi

/-- What is shown of the unresolved names of a linked file. -/
theorem Source.LinkedAs.shown_unresolved {sources : List Source} {s : Source} {ρ : Placement}
    {g : File} (h : s.LinkedAs sources ρ g) (package : String) :
    (g.unresolved.map fun i => ⟨package, g.filename, i.name, i.pos⟩).map
        (UnresolvedIdent.shown (parseSources sources).files) =
      (sortIdents (s.alone.file.lost (parseSources sources).parsed)).map fun i =>
        (package, s.name, i.name, s.alone.source.position i.pos) := by
  rw [h.unresolved, h.filename, List.map_map, List.map_map]
  refine List.map_congr_left fun i hi => ?_
  have howned := s.lost_owned _ (List.mem_mergeSort.1 hi)
  exact congrArg (fun p => (package, s.name, i.name, p)) (position_of_seated h.seat howned)

/-! ### Two orders -/

namespace Interchangeable

variable {sources sources' : List Source} (h : Interchangeable sources)
  (hperm : sources.Perm sources')
include h hperm

/-- In both orders the same imports find no package. -/
theorem missingImports_eq (f : File) : f.missingImports (parseSources sources).parsed =
    f.missingImports (parseSources sources').parsed := by
  have hany (n : String) : (parseSources sources).parsed.any (·.name.name = n) =
      (parseSources sources').parsed.any (·.name.name = n) := by
    rw [h.any_package, (h.perm hperm).any_package, hperm.any_eq]
  unfold File.missingImports ImportSpec.missing
  simp only [hany]

/-- In both orders the same warnings are shown. -/
theorem shown_warnings_eq :
    (loweringWarnings (linkSources sources).packages (linkSources sources).symbols).map
      (Diagnostic.shown (parseSources sources).files) =
    (loweringWarnings (linkSources sources').packages (linkSources sources').symbols).map
      (Diagnostic.shown (parseSources sources').files) := by
  unfold loweringWarnings
  rw [List.map_flatMap, List.map_flatMap]
  refine flatMap_eq_of_forall₂ (h.packages_twins hperm) fun p p' hp => ?_
  rw [List.map_flatMap, List.map_flatMap]
  refine flatMap_eq_of_forall₂ hp.files fun g g' hg => ?_
  obtain ⟨s, ρ, ρ', hg, hg'⟩ := hg
  rw [hg.warnings, hg'.warnings, ← h.remarks_eq hperm hg hg',
    Diagnostic.shown_placed hg.seat fun d hd => s.remarks_owned hd,
    Diagnostic.shown_placed hg'.seat fun d hd => s.remarks_owned hd]

/-- In both orders the same is shown of all reports. -/
theorem render_eq : (compile sources).diagnostics.map (·.render (compile sources).files) =
    (compile sources').diagnostics.map (·.render (compile sources').files) := by
  have h' := h.perm hperm
  have hown := missingImports_own (parseSources sources).parsed
  have hsame : (fun s : Source => s.alone.file.missingImports (parseSources sources).parsed) =
      fun s => s.alone.file.missingImports (parseSources sources').parsed :=
    funext fun s => h.missingImports_eq hperm s.alone.file
  rw [render_compile, render_compile]
  refine congrArg (List.map Shown.text) (mergeSort_eq_of_filter Shown.le_trans
    Shown.le_total fun a => ?_)
  -- at each rank, the reports come of one source, and from one stage after the other
  unfold shownOf
  simp only [List.filter_append]
  rw [h.shown_parsed, h'.shown_parsed, h.filter_shown_linked, h'.filter_shown_linked,
    h.shown_warnings_eq hperm, ← hsame, hown.filter_eq hperm h.names,
    OwnReports.filter_eq (fun s _ hd => s.diagnostics_owned hd) hperm h.names]

/-- In both orders the same names are listed as unresolved. -/
theorem unresolved_eq :
    (compile sources).unresolved.map (UnresolvedIdent.shown (compile sources).files) =
      (compile sources').unresolved.map (UnresolvedIdent.shown (compile sources').files) := by
  show ((linkSources sources).packages.values.flatMap Package.unresolved).map
      (UnresolvedIdent.shown (parseSources sources).files) =
    ((linkSources sources').packages.values.flatMap Package.unresolved).map
      (UnresolvedIdent.shown (parseSources sources').files)
  rw [List.map_flatMap, List.map_flatMap]
  refine flatMap_eq_of_forall₂ (h.packages_twins hperm) fun p p' hp => ?_
  unfold Package.unresolved
  rw [List.map_flatMap, List.map_flatMap]
  refine flatMap_eq_of_forall₂ hp.files fun g g' hg => ?_
  obtain ⟨s, ρ, ρ', hg, hg'⟩ := hg
  rw [hg.shown_unresolved, hg'.shown_unresolved, hp.name, h.lost_eq hperm (mem_of_seat hg.seat)]

end Interchangeable

/-- The order of sources does not matter.  If sources have different names, if there are positions for
all of them, and if none declares a top-level name that another one of its package declares, then in
every order they are compiled to the same representation, with the same reports and the same
unresolved names, in the same order and at the same places. -/
theorem compile_perm {sources sources' : List Source} (h : Interchangeable sources)
    (hperm : sources.Perm sources') :
    (compile sources).ir = (compile sources').ir ∧
    (compile sources).diagnostics.map (·.render (compile sources).files) =
      (compile sources').diagnostics.map (·.render (compile sources').files) ∧
    (compile sources).unresolved.map (UnresolvedIdent.shown (compile sources).files) =
      (compile sources').unresolved.map (UnresolvedIdent.shown (compile sources').files) :=
  ⟨h.ir_eq hperm, h.render_eq hperm, h.unresolved_eq hperm⟩

/-- Sources of two packages, with a chain of constants from file to file, a name that stands for
nothing, a package that is not there, and a character that starts no token. -/
def crossed : List Source := [
  ⟨"c.mid", "package a\nimport \"b\"\nimport \"d\"\nstruct S \x7b\n  array<int, N> xs\n  T t\n\x7d\n"⟩,
  ⟨"b.mid", "package a\nconst N = M ?\n"⟩,
  ⟨"a.mid", "package b\nconst U = 1\n"⟩,
  ⟨"d.mid", "package a\nconst M = 3\n"⟩]

theorem compile_perm_crossed : Interchangeable crossed ∧ crossed.Perm crossed.reverse ∧
    (shownOf crossed).map Shown.text =
      ["b.mid:2:13: illegal character '?'", "c.mid:3:8: package \x60d\x60 not found"] ∧
    (compile crossed).ir = (compile crossed.reverse).ir ∧
    (compile crossed).diagnostics.map (·.render (compile crossed).files) =
      (compile crossed.reverse).diagnostics.map (·.render (compile crossed.reverse).files) ∧
    (compile crossed).unresolved.map (UnresolvedIdent.shown (compile crossed).files) =
      (compile crossed.reverse).unresolved.map
        (UnresolvedIdent.shown (compile crossed.reverse).files) := by
  have hinterchangeable : Interchangeable crossed :=
    ⟨by decide, by decide +kernel, by decide +kernel⟩
  have hperm : crossed.Perm crossed.reverse := (List.reverse_perm crossed).symm
  exact ⟨hinterchangeable, hperm, by decide +kernel, compile_perm hinterchangeable hperm⟩

end Idl
