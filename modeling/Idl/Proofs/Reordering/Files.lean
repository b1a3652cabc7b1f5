/-
Idl/Proofs/Reordering/Files.lean

Linked files, as they come of their sources.

Of a file that is linked in a run, its source says all but three things: where it sits, what its names
stand for, and which of them stand for nothing.  `Source.LinkedAs` says what is known of these, and
looks no further into linking than to what names should stand for.
-/
import Idl.Proofs.Reordering.Sources

namespace Idl

/-! ### Names that stand for nothing -/

section Lost

variable (fs : List File)

/-- The part of a qualified name that should stand for nothing: the qualifier, or else the name. -/
def QualifiedRef.lost (f : File) (q : QualifiedRef) : List Ident :=
  match f.imported? fs q.qualifier.name with
  | none => [q.qualifier]
  | some id => if (declarationOf? fs id q.name.name).isNone then [q.name] else []

/-- The names of a file that wait, and should stand for nothing. -/
def File.lost (f : File) : List Ident :=
  f.unresolved.filter (fun i => (f.meaning? fs i.name).isNone) ++
    f.qualified.flatMap (QualifiedRef.lost fs f)

/-- Whether a name stands for nothing does not depend on where its file stands. -/
theorem File.isNone_meaning?_placed (ρ : Placement) (f : File) (name : String) :
    ((f.placed ρ).meaning? fs name).isNone = (f.meaning? fs name).isNone := by
  have himports : ((f.placed ρ).imports.findSome? fun spec =>
      if spec.isDotted then (spec.package? fs).bind (declarationOf? fs · name) else none) =
        f.imports.findSome? fun spec =>
          if spec.isDotted then (spec.package? fs).bind (declarationOf? fs · name) else none := by
    rw [f.imports_placed, List.findSome?_map]
    refine findSome?_congr fun spec _ => ?_
    show (if (spec.placed ρ).isDotted then _ else _) = _
    rw [spec.isDotted_placed]
    rfl
  unfold meaning?
  rw [himports, f.declaration?_placed]
  cases f.declaration? name <;> rfl

/-- The lost names of a placed file are the placed ones of the file. -/
theorem File.lost_placed (ρ : Placement) (f : File) :
    (f.placed ρ).lost fs = (f.lost fs).map (Ident.placed ρ) := by
  have hqualified (q : QualifiedRef) : QualifiedRef.lost fs (f.placed ρ) (q.placed ρ) =
      (QualifiedRef.lost fs f q).map (Ident.placed ρ) := by
    unfold QualifiedRef.lost
    rw [f.imported?_placed]
    show (match f.imported? fs q.qualifier.name with
      | none => _
      | some id => _) = _
    cases f.imported? fs q.qualifier.name with
    | none => rfl
    | some id =>
      show (if (declarationOf? fs id q.name.name).isNone then _ else _) = List.map _ (ite _ _ _)
      split <;> rfl
  unfold lost
  rw [List.map_append, List.map_flatMap]
  show (f.unresolved.map (Ident.placed ρ)).filter _ ++ (f.qualified.map _).flatMap _ = _
  rw [List.filter_map, List.flatMap_map]
  simp only [Function.comp_def, Ident.placed_name, f.isNone_meaning?_placed, hqualified]

end Lost

/-- Where a file stands does not matter for the order of its names. -/
theorem sortIdents_placed (ρ : Placement) (is : List Ident) :
    sortIdents (is.map (Ident.placed ρ)) = (sortIdents is).map (Ident.placed ρ) := by
  refine (List.map_mergeSort fun i _ j _ => ?_).symm
  show (decide (i.pos < j.pos) || _) = (decide (ρ.pos i.pos < ρ.pos j.pos) ||
    (decide (ρ.pos i.pos = ρ.pos j.pos) && _))
  rw [decide_eq_decide.2 ρ.pos_lt_pos, decide_eq_decide.2 ρ.pos_inj]
  rfl

namespace Linked.Run

variable {files : FileSet} {t m : SymbolTable} {fs : List File} {scopes : NameMap ScopeId}
  {l : Linked} {f : File} {refs : List Ident} {p : Package} {i : ScopeId}

/-- A name that an import binds to a package is bound to the scope of it. -/
theorem binding_of_imported (h : l.Run files t fs scopes m) {n : String}
    (hlinks : p.Links m scopes n i (filesOf fs n)) (hf : f ∈ filesOf fs n) {name id : String}
    (himported : f.imported? fs name = some id) :
    ∃ o j, scopes.find? id = some j ∧ (f.bindings scopes p.imports).find? name = some (o, j) := by
  have hbindings := h.find?_bindings hlinks hf name
  obtain ⟨spec, hspec, hid⟩ := List.exists_of_findSome?_eq_some himported
  have hid : spec.package? fs = some id := by
    split at hid
    · exact hid
    · cases hid
  obtain ⟨j, hj⟩ := h.scope_of_package hid
  have ht : spec.target? scopes = some (id, j) := by
    rw [h.target?, hid, Option.bind_some, hj]
    rfl
  obtain ⟨o, ho⟩ := Option.isSome_iff_exists.1 ((hlinks.found id).2
    ⟨f, hf, spec, List.mem_reverse.1 hspec, j, ht⟩)
  rw [himported, Option.bind_some, ho, Option.bind_some, hj, Option.map_some] at hbindings
  exact ⟨o, j, hj, hbindings⟩

/-- A linked file lists the names that should stand for nothing. -/
theorem linked_unresolved (h : l.Run files t fs scopes m) (hmem : f ∈ fs) (hk : f.Known t refs)
    (hi : scopes.find? f.name.name = some i)
    (hlinks : p.Links m scopes f.name.name i (filesOf fs f.name.name)) :
    (linkedFile m scopes p.imports i f).unresolved = sortIdents (f.lost fs) := by
  have hwaiting : ∀ j ∈ f.unresolved,
      (lookupPending m i (f.bindings scopes p.imports) j.name).isNone =
        (f.meaning? fs j.name).isNone := by
    intro j hj
    rw [hk.unresolved] at hj
    obtain ⟨-, hj⟩ := List.mem_filter.1 hj
    have hnone : t.lookup? f.scope j.name = none :=
      Option.isNone_iff_eq_none.1 (Bool.and_eq_true_iff.1 hj).2
    -- the name waits, so the file itself does not declare it
    have hown := h.file_lookup hmem j.name
    rw [hnone, Option.bind_none] at hown
    unfold File.meaning?
    rw [← hown, Option.none_or, ← h.pending hi p.imports]
    cases ho : lookupPending m i (f.bindings scopes p.imports) j.name with
    | none => rfl
    | some o =>
      obtain ⟨x, hx⟩ := Option.isSome_iff_exists.1 (h.isSome_of_pending hi ho)
      rw [Option.bind_some, hx]
      rfl
  have hqualified : ∀ q ∈ f.qualified,
      ((q.settlements m (f.bindings scopes p.imports)).filter (·.2.isNone)).map (·.1) =
        q.lost fs f := by
    intro q hq
    have hbindings := h.find?_bindings hlinks (mem_filesOf.2 ⟨hmem, rfl⟩) q.qualifier.name
    unfold QualifiedRef.settlements QualifiedRef.lost
    cases himported : f.imported? fs q.qualifier.name with
    | none =>
      rw [himported, Option.bind_none] at hbindings
      rw [hbindings]
      rfl
    | some id =>
      obtain ⟨o, j, hj, hfind⟩ := h.binding_of_imported hlinks (mem_filesOf.2 ⟨hmem, rfl⟩) himported
      rw [hfind]
      have hlookup : (m.lookup? j q.name.name).isNone =
          (declarationOf? fs id q.name.name).isNone := by
        rw [← h.package_lookup hj]
        cases ho : m.lookup? j q.name.name with
        | none => rfl
        | some o =>
          obtain ⟨x, hx⟩ := Option.isSome_iff_exists.1 (h.isSome_of_lookup hj ho)
          rw [Option.bind_some, hx]
          rfl
      cases hnone : (m.lookup? j q.name.name).isNone with
      | true => simp [← hlookup, hnone]
      | false => simp [← hlookup, hnone]
  show sortIdents (((f.settlements m (f.bindings scopes p.imports) i).filter
    (·.2.isNone)).map (·.1)) = _
  congr 1
  unfold File.settlements File.lost
  rw [List.filter_append, List.map_append, List.filter_flatMap, List.map_flatMap, List.filter_map,
    List.map_map]
  congr 1
  · have hkept : f.unresolved.filter ((fun x : Settlement => x.2.isNone) ∘ fun j =>
        (j, lookupPending m i (f.bindings scopes p.imports) j.name)) =
          f.unresolved.filter fun j => (f.meaning? fs j.name).isNone := List.filter_congr hwaiting
    rw [hkept]
    exact List.map_id _
  · exact List.flatMap_congr hqualified

/-- A blank reference stands for nothing. -/
theorem blank_reference (hk : f.Known t refs) {r : Ident} (hr : r ∈ f.references)
    (hb : r.isBlank = true) :
    l.objectOf? (linkedFile m scopes p.imports i f) r = none := by
  have hr := (hk.mem_refs r).2 hr
  have hdone : r ∉ f.unresolved := by
    rw [hk.unresolved]
    intro hmem
    have hkept := (List.mem_filter.1 hmem).2
    simp [hb] at hkept
  unfold Linked.objectOf?
  rw [hk.linked_get?_other scopes p.imports (List.mem_append_left _ hr)
    fun a ha => hk.not_mem_answers hr hdone ha, hk.blank r hr hb]
  rfl

end Linked.Run

/-! ### Linked files and their sources -/

/-- A linked file that comes of a source, which sits at `ρ`. -/
structure Source.LinkedAs (sources : List Source) (s : Source) (ρ : Placement) (g : File) :
    Prop where
  seat : (s, ρ) ∈ seats sources
  file : g = { s.alone.file.placed ρ with
    resolutions := g.resolutions, unresolved := g.unresolved }
  unresolved : g.unresolved =
    (sortIdents (s.alone.file.lost (parseSources sources).parsed)).map (Ident.placed ρ)
  reference : ∀ r ∈ s.alone.file.references, (linkSources sources).objectOf? g r =
    if r.isBlank then none
    else (s.alone.file.placed ρ).meaning? (parseSources sources).parsed r.name
  qualifier : ∀ q ∈ s.alone.file.qualifiedNames,
    ((linkSources sources).objectOf? g q.qualifier).map Object.origin =
      (s.alone.file.imported? (parseSources sources).parsed q.qualifier.name).map .package

/-- A package has the name under which it is found. -/
theorem linkSources_package_name {sources : List Source} {n : String} {p : Package}
    (hp : (linkSources sources).packages.find? n = some p) : p.name = n := by
  obtain ⟨scopes, m, hrun⟩ := linkSources_run sources
  obtain ⟨i, -, hlinks, -⟩ := hrun.links.packages hp
  exact hlinks.name

namespace Interchangeable

variable {sources : List Source} (h : Interchangeable sources)
include h

/-- Every source is linked. -/
theorem linkedAs_of_seat {s : Source} {ρ : Placement} (hs : (s, ρ) ∈ seats sources) :
    ∃ p g, (linkSources sources).packages.find? s.package = some p ∧
      p.files.find? s.name = some g ∧ s.LinkedAs sources ρ g := by
  obtain ⟨scopes, m, hrun⟩ := linkSources_run sources
  have hmem := mem_parsed_of_seat hs
  have hk := known_of_seated hs
  obtain ⟨p, i, hp, hi, hlinks, himports, hfile⟩ := hrun.linked h.distinctNames hmem
  have hname : (s.alone.file.placed ρ).filename = s.name := s.reading.filename
  refine ⟨p, _, hp, hname ▸ hfile, hs, rfl, ?_, fun r hr => ?_, fun q hq => ?_⟩
  · rw [hrun.linked_unresolved hmem hk hi hlinks, File.lost_placed, sortIdents_placed]
  · have hmemr : r.placed ρ ∈ (s.alone.file.placed ρ).references :=
      File.references_placed ρ _ ▸ List.mem_map_of_mem hr
    split
    · next hb => exact Linked.Run.blank_reference (r := r.placed ρ) hk hmemr hb
    · next hb =>
      exact (hrun.settles_reference hmem hk hp hi hfile hmemr (Bool.eq_false_iff.2 hb)).1
  · have hmemq : q.placed ρ ∈ (s.alone.file.placed ρ).qualifiedNames :=
      File.qualifiedNames_placed ρ _ ▸ List.mem_map_of_mem hq
    have hsettles := hrun.settles_qualified hmem hk hp hlinks himports hfile hmemq
    have himported := File.imported?_placed ρ (parseSources sources).parsed s.alone.file
      q.qualifier.name
    unfold Linked.SettlesQualified at hsettles
    change match (s.alone.file.placed ρ).imported? (parseSources sources).parsed
      q.qualifier.name with
      | none => _
      | some id => _ at hsettles
    rw [himported] at hsettles
    cases hid : s.alone.file.imported? (parseSources sources).parsed q.qualifier.name with
    | none =>
      rw [hid] at hsettles
      exact congrArg (Option.map Object.origin) hsettles.1.1
    | some id =>
      rw [hid] at hsettles
      obtain ⟨⟨o, pos, -, -, hobject⟩, -⟩ := hsettles
      exact congrArg (Option.map Object.origin) hobject.1

/-- Every linked file comes of a source. -/
theorem linkedAs_of_file {n x : String} {p : Package} {g : File}
    (hp : (linkSources sources).packages.find? n = some p) (hg : p.files.find? x = some g) :
    ∃ (s : Source) (ρ : Placement), s.LinkedAs sources ρ g ∧ s.package = n ∧ s.name = x := by
  obtain ⟨scopes, m, hrun⟩ := linkSources_run sources
  obtain ⟨i, -, hlinks, -⟩ := hrun.links.packages hp
  have hfile := hg
  rw [hlinks.files] at hfile
  obtain ⟨f, hf, -⟩ := Option.map_eq_some_iff.1 hfile
  obtain ⟨hmem, hn⟩ := mem_filesOf.1 (List.mem_of_find?_eq_some hf)
  have hx : f.filename = x := by simpa using List.find?_some hf
  obtain ⟨s, ρ, hs, rfl⟩ := mem_parsed hmem
  have hpackage : s.package = n := hn
  have hname : s.name = x := s.reading.filename.symm.trans hx
  obtain ⟨p', g', hp', hg', hlinked⟩ := h.linkedAs_of_seat hs
  rw [hpackage, hp] at hp'
  obtain rfl := Option.some.inj hp'
  rw [hname, hg] at hg'
  obtain rfl := Option.some.inj hg'
  exact ⟨s, ρ, hlinked, hpackage, hname⟩

/-- There is a package for the name of every package of a source. -/
theorem exists_package {n : String} : (∃ p, (linkSources sources).packages.find? n = some p) ↔
    ∃ s ∈ sources, s.package = n := by
  obtain ⟨scopes, m, hrun⟩ := linkSources_run sources
  rw [← NameMap.mem_keys, hrun.links.keys, NameMap.mem_keys, ← Option.isSome_iff_exists,
    hrun.links.named]
  have hany := h.any_package n
  rw [Bool.eq_iff_iff, List.any_eq_true, List.any_eq_true] at hany
  simpa only [decide_eq_true_eq] using hany

/-- There is a file for every source. -/
theorem exists_file {n x : String} {p : Package}
    (hp : (linkSources sources).packages.find? n = some p) :
    (∃ g, p.files.find? x = some g) ↔ ∃ s ∈ sources, s.package = n ∧ s.name = x := by
  constructor
  · rintro ⟨g, hg⟩
    obtain ⟨s, ρ, hlinked, hn, hx⟩ := h.linkedAs_of_file hp hg
    exact ⟨s, mem_of_seat hlinked.seat, hn, hx⟩
  · rintro ⟨s, hs, rfl, rfl⟩
    obtain ⟨ρ, hs⟩ := h.exists_seat hs
    obtain ⟨p', g, hp', hg, -⟩ := h.linkedAs_of_seat hs
    obtain rfl := Option.some.inj (hp'.symm.trans hp)
    exact ⟨g, hg⟩

/-- A package has imported what its sources import. -/
theorem contains_imports {n id : String} {p : Package}
    (hp : (linkSources sources).packages.find? n = some p) :
    p.imports.contains id = true ↔ ∃ s ∈ sources, s.package = n ∧
      ∃ spec ∈ s.alone.file.imports, spec.package? (parseSources sources).parsed = some id := by
  obtain ⟨scopes, m, hrun⟩ := linkSources_run sources
  obtain ⟨i, -, hlinks, -⟩ := hrun.links.packages hp
  have htarget (spec : ImportSpec) : (∃ j, spec.target? scopes = some (id, j)) ↔
      spec.package? (parseSources sources).parsed = some id := by
    rw [hrun.target?]
    constructor
    · rintro ⟨j, hj⟩
      obtain ⟨id', hid', hj⟩ := Option.bind_eq_some_iff.1 hj
      obtain ⟨_, -, heq⟩ := Option.map_eq_some_iff.1 hj
      exact (Prod.mk.inj heq).1 ▸ hid'
    · intro hid
      obtain ⟨j, hj⟩ := hrun.scope_of_package hid
      exact ⟨j, by rw [hid, Option.bind_some, hj]; rfl⟩
  refine (hlinks.found id).trans ?_
  simp only [htarget]
  constructor
  · rintro ⟨f, hf, spec, hspec, hid⟩
    obtain ⟨hmem, hn⟩ := mem_filesOf.1 hf
    obtain ⟨s, ρ, hs, rfl⟩ := mem_parsed hmem
    rw [File.imports_placed] at hspec
    obtain ⟨written, hwritten, rfl⟩ := List.mem_map.1 hspec
    exact ⟨s, mem_of_seat hs, hn, written, hwritten, hid⟩
  · rintro ⟨s, hs, hn, spec, hspec, hid⟩
    obtain ⟨ρ, hs⟩ := h.exists_seat hs
    refine ⟨_, mem_filesOf.2 ⟨mem_parsed_of_seat hs, hn⟩, spec.placed ρ, ?_, hid⟩
    exact File.imports_placed ρ _ ▸ List.mem_map_of_mem hspec

end Interchangeable

end Idl
