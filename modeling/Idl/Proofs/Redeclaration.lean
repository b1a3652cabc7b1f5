/-
Idl/Proofs/Redeclaration.lean

Redeclarations are reported exactly.

Names that are repeated inside a file or a bean are reported while the file is parsed, and those that
several files of a package declare are reported when scopes are merged.  Together these are the
repetitions of all blocks, each one once (`redeclarations_exact`): what a package repeats is what one
of its files repeats, or what is the first one of its name in a file but not in the package
(`repeats_flatMap_perm`).
-/
import Idl.Proofs.Blocks
import Idl.Proofs.Meaning
import Idl.Proofs.Messages

namespace Idl

/-! ### Reports of a source -/

/-- The name that an error says is redeclared, with the place of the error. -/
def Diagnostic.redeclaredSpot? (d : Diagnostic) : Option Spot :=
  d.redeclared?.map (·, d.span.start)

theorem Diagnostic.redeclaredSpot?_of_plain {d : Diagnostic} (h : d.Plain) :
    d.redeclaredSpot? = none := by
  unfold redeclaredSpot?
  rw [redeclared?_of_plain h]
  rfl

theorem Diagnostic.redeclaredSpot?_error {name : String} (hname : Spelled name) {p : Position}
    (hp : p.isValid = true) (pos : Pos) (w : Nat) :
    (Diagnostic.error (redeclaredMessage name (some p)) (.ofWidth pos w)).redeclaredSpot? =
      some (name, pos) := by
  unfold redeclaredSpot?
  rw [redeclared?_error (hname.not_mem (by decide +kernel)) hp]
  rfl

theorem Diagnostic.redeclaredSpot?_placed (ρ : Placement) (d : Diagnostic) :
    (d.placed ρ).redeclaredSpot? = d.redeclaredSpot?.map fun x => (x.1, ρ.pos x.2) := by
  have hstart : (d.placed ρ).span.start = ρ.pos d.span.start := Span.placed_start ..
  have hsame : (d.placed ρ).redeclared? = d.redeclared? := rfl
  unfold redeclaredSpot?
  rw [hsame, hstart, Option.map_map]
  rfl

namespace Source

variable (s : Source)

/-- A declaration of a source has a name and a place of the source. -/
theorem declaration_spot {d : Declaration} (hd : d ∈ declarations s.events) :
    Spelled d.2.name ∧ s.alone.source.Owns d.2.pos := by
  obtain ⟨i, hi, hname, hpos⟩ := s.exists_declared hd
  exact ⟨hname ▸ s.reading.spelled i hi, hpos ▸ s.ident_owned hi⟩

theorem redeclaredSpot?_redeclaration {ds : List Declaration} (h : ds ⊆ declarations s.events)
    {d : Declaration} (hd : d ∈ ds) :
    (redeclaration s.alone.source (ds.find? fun e => e.key = d.key) d).redeclaredSpot? =
      some d.2.spot := by
  obtain ⟨e, he⟩ : ∃ e, ds.find? (fun e => decide (e.key = d.key)) = some e :=
    Option.isSome_iff_exists.1 (List.find?_isSome.2 ⟨d, hd, decide_eq_true rfl⟩)
  have howned := (s.declaration_spot (h (List.mem_of_find?_eq_some he))).2
  have hvalid : Pos.isValid e.2.pos = true := bne_iff_ne.2 howned.1
  unfold redeclaration Object.redeclaredAt
  rw [he]
  show Diagnostic.redeclaredSpot? (.error (redeclaredMessage d.2.name
    (if Pos.isValid e.2.pos then some (s.alone.source.position e.2.pos) else none)) _) = _
  rw [if_pos hvalid]
  exact Diagnostic.redeclaredSpot?_error (s.declaration_spot (h hd)).1
    (s.lined.position howned).1 ..

/-- While a source is read, the repetitions in its scopes are reported. -/
theorem reported (ρ : Placement) :
    ((s.alone.diagnostics.map (Diagnostic.placed ρ)).filterMap Diagnostic.redeclaredSpot?).Perm
      ((repeats Entrance.key [] (s.entrances ρ)).map (·.2)) := by
  obtain ⟨reports, hperm, hplain, -⟩ := s.reading.diagnostics
  have hlexical : s.lexical.filterMap Diagnostic.redeclaredSpot? = [] := by
    refine List.filterMap_eq_nil_iff.2 fun d hd => ?_
    obtain ⟨e, -, rfl⟩ := List.mem_map.1 hd
    exact Diagnostic.redeclaredSpot?_of_plain e.plain
  have hreports : reports.filterMap Diagnostic.redeclaredSpot? = [] :=
    List.filterMap_eq_nil_iff.2 fun d hd => Diagnostic.redeclaredSpot?_of_plain (hplain d hd).1
  have hrepeats : (redeclarations s.alone.source (declarations s.events)).filterMap
      Diagnostic.redeclaredSpot? =
        (repeats Declaration.key [] (declarations s.events)).map (·.2.spot) := by
    unfold redeclarations complaints
    rw [List.filterMap_map, ← List.filterMap_eq_map]
    refine List.filterMap_congr fun d hd => ?_
    exact s.redeclaredSpot?_redeclaration (fun _ h => h) ((repeats_sublist [] _).subset hd)
  have halone := hperm.filterMap Diagnostic.redeclaredSpot?
  rw [List.filterMap_append, List.filterMap_append, hlexical, hreports, hrepeats, List.nil_append,
    List.nil_append] at halone
  have hplaced : (s.alone.diagnostics.map (Diagnostic.placed ρ)).filterMap
      Diagnostic.redeclaredSpot? =
        (s.alone.diagnostics.filterMap Diagnostic.redeclaredSpot?).map
          fun x => (x.1, ρ.pos x.2) := by
    rw [List.filterMap_map, List.map_filterMap]
    exact List.filterMap_congr fun d _ => d.redeclaredSpot?_placed ρ
  have hkey : Entrance.key ∘ (fun d : Declaration => ((d.1, d.2.name, ρ.pos d.2.pos) : Entrance)) =
      Declaration.key := by
    funext d
    exact d.key_eq.symm
  unfold entrances
  rw [hplaced, repeats_map, hkey, List.map_map]
  have hmap := halone.map fun x : Spot => (x.1, ρ.pos x.2)
  rw [List.map_map] at hmap
  exact hmap

end Source

/-! ### Reports of a run -/

/-- A declaration of a run has a name and a place. -/
theorem declaration_place {sources : List Source} {f : File}
    (hf : f ∈ (parseSources sources).parsed) {o : Object} (ho : o ∈ f.declarations) :
    Spelled o.name ∧ ((parseSources sources).files.position o.pos).isValid = true := by
  obtain ⟨s, ρ, hs, rfl⟩ := mem_parsed hf
  rw [File.declarations_placed] at ho
  obtain ⟨x, hx, rfl⟩ := List.mem_map.1 ho
  have hspot : x.spot ∈ s.alone.file.declared.map Ident.spot := by
    rw [← s.alone.file.spot_declarations]
    exact List.mem_map_of_mem hx
  obtain ⟨i, hi, heq⟩ := List.mem_map.1 hspot
  have hname : i.name = x.name := (Prod.mk.inj heq).1
  have howned := s.declaration_owned hx
  refine ⟨?_, ?_⟩
  · exact hname ▸ s.reading.spelled i (s.declared_sublist.subset hi)
  · show ((parseSources sources).files.position (ρ.pos x.pos)).isValid = true
    rw [position_of_seated hs howned]
    exact (s.lined.position howned).1

/-- The name of a package is spelled like one. -/
theorem package_spelled {sources : List Source} {f : File}
    (hf : f ∈ (parseSources sources).parsed) : Spelled f.name.name := by
  obtain ⟨s, ρ, -, rfl⟩ := mem_parsed hf
  exact s.reading.spelled s.alone.file.name List.mem_cons_self

/-- The first ones of the names that a file declares. -/
def File.firstSpots (f : File) : List Spot := firsts Spot.key [] (f.declared.map Ident.spot)

/-- Linking files reports nothing more about names that are declared twice. -/
theorem linkErrors_reported (scopes : NameMap ScopeId) (n : String) (hn : Spelled n) (taken : List String) (fs : List File) :
    (linkErrors scopes n taken fs).filterMap Diagnostic.redeclaredSpot? = [] := by
  induction fs generalizing taken with
  | nil => rfl
  | cons f fs ih =>
    have himports : (f.imports.flatMap (ImportSpec.errors scopes)).filterMap
        Diagnostic.redeclaredSpot? = [] := by
      refine List.filterMap_eq_nil_iff.2 fun d hd => ?_
      obtain ⟨spec, -, hd⟩ := List.mem_flatMap.1 hd
      unfold ImportSpec.errors at hd
      split at hd
      · split at hd
        · cases hd
        · exact List.mem_singleton.1 hd ▸ Diagnostic.redeclaredSpot?_of_plain (spec.notFound_plain _)
      · cases hd
    have htwice : (f.appearsTwice n).redeclaredSpot? = none := by
      unfold Diagnostic.redeclaredSpot?
      rw [f.redeclared?_appearsTwice hn]
      rfl
    rw [linkErrors, List.filterMap_append, List.filterMap_append, himports, ih]
    split
    · simp [htwice]
    · rfl

/-- What is repeated in the scopes of a source. -/
def Source.repetitions (s : Source) (ρ : Placement) : List Spot :=
  (repeats Entrance.key [] (s.entrances ρ)).map (·.2)

/-- While sources are read, the repetitions in their scopes are reported. -/
theorem diagnosticsOf_reported (layout : List (Source × Option Placement)) :
    ((diagnosticsOf layout).filterMap Diagnostic.redeclaredSpot?).Perm
      ((seated layout).flatMap fun x => x.1.repetitions x.2) := by
  induction layout with
  | nil => exact .nil
  | cons x layout ih =>
    obtain ⟨s, ρ⟩ := x
    unfold diagnosticsOf at ih ⊢
    rw [List.flatMap_cons, List.filterMap_append]
    cases ρ with
    | some ρ => exact (s.reported ρ).append ih
    | none =>
      have hnone : s.refusal.redeclaredSpot? = none := by
        unfold Diagnostic.redeclaredSpot?
        rw [s.redeclared?_refusal]
        rfl
      rw [show [s.refusal].filterMap Diagnostic.redeclaredSpot? = [] by simp [hnone]]
      exact ih

section Linked

variable {sources : List Source} {scopes : NameMap ScopeId} {m : SymbolTable}
  (h : (linkSources sources).Run (parseSources sources).files (parseSources sources).symbols
    (parseSources sources).parsed scopes m)
include h

theorem spot_packageEntries (n : String) :
    (packageEntries (parseSources sources).symbols (parseSources sources).parsed n).map
      (·.2.spot) = (filesOf (parseSources sources).parsed n).flatMap File.firstSpots := by
  unfold packageEntries
  rw [List.map_flatMap]
  refine List.flatMap_congr fun f hf => ?_
  obtain ⟨refs, hk⟩ := h.known f (mem_filesOf.1 hf).1
  have hentries := congrArg (List.map Object.spot) hk.entries
  rw [List.map_map] at hentries
  unfold File.firstSpots
  rw [← f.spot_declarations, firsts_map]
  exact hentries

theorem mem_packageEntries {n : String} {e : Entry}
    (he : e ∈ packageEntries (parseSources sources).symbols (parseSources sources).parsed n) :
    e.2.key = some e.2.name ∧ ∃ f ∈ (parseSources sources).parsed, e.2 ∈ f.declarations := by
  obtain ⟨f, hf, he⟩ := List.mem_flatMap.1 he
  obtain ⟨hparsed, -⟩ := mem_filesOf.1 hf
  obtain ⟨refs, hk⟩ := h.known f hparsed
  have hmem : e.2 ∈ firsts Object.key [] f.declarations := hk.entries ▸ List.mem_map_of_mem he
  obtain ⟨k, hkey, -⟩ := (firsts_keys (φ := Object.key) [] f.declarations).2 e.2 hmem
  obtain ⟨rfl, hne⟩ := Object.key_eq_some.1 hkey
  exact ⟨hkey, f, hparsed, (firsts_sublist [] _).subset hmem⟩

/-- When the scopes of a package are merged, the repetitions among the files are reported. -/
theorem merge_reported (n : String) :
    (mergeErrors (parseSources sources).files (packageEntries (parseSources sources).symbols
      (parseSources sources).parsed n)).filterMap Diagnostic.redeclaredSpot? =
        repeats Spot.key [] ((filesOf (parseSources sources).parsed n).flatMap File.firstSpots) := by
  have hkey : ∀ e ∈ packageEntries (parseSources sources).symbols (parseSources sources).parsed n,
      e.2.key = (Entry.key e).map id := fun e he => (mem_packageEntries h he).1
  have hrepeats := repeats_renamed (φ := Entry.key) (ψ := fun e : Entry => e.2.key) (f := id)
    (fun a b hab => hab) [] hkey
  rw [← spot_packageEntries h, repeats_map]
  show _ = (repeats (fun e : Entry => e.2.key) [] _).map _
  rw [show ([] : List String) = [].map id from rfl, hrepeats]
  unfold mergeErrors complaints
  rw [List.filterMap_map, ← List.filterMap_eq_map]
  refine List.filterMap_congr fun e he => ?_
  have he := (repeats_sublist [] _).subset he
  obtain ⟨-, f, hf, ho⟩ := mem_packageEntries h he
  obtain ⟨e', he'⟩ : ∃ e', (packageEntries (parseSources sources).symbols
      (parseSources sources).parsed n).find? (fun x => decide (Entry.key x = Entry.key e)) =
        some e' := Option.isSome_iff_exists.1 (List.find?_isSome.2 ⟨e, he, decide_eq_true rfl⟩)
  obtain ⟨-, f', hf', ho'⟩ := mem_packageEntries h (List.mem_of_find?_eq_some he')
  show (mergeError _ _ e).redeclaredSpot? = some e.2.spot
  unfold mergeError
  rw [he']
  exact Diagnostic.redeclaredSpot?_error (declaration_place hf ho).1 (declaration_place hf' ho').2 ..

theorem linked_reported : (linkSources sources).diagnostics.filterMap Diagnostic.redeclaredSpot? =
    scopes.keys.flatMap fun n => repeats Spot.key []
      ((filesOf (parseSources sources).parsed n).flatMap File.firstSpots) := by
  have hspelled : ∀ n ∈ scopes.keys, Spelled n := by
    intro n hn
    obtain ⟨i, hi⟩ := NameMap.mem_keys.1 hn
    obtain ⟨f, hf, rfl⟩ := (h.links.named n).1 (by rw [hi]; rfl)
    exact package_spelled hf
  rw [h.links.diagnostics, List.filterMap_append, List.filterMap_flatMap, List.filterMap_flatMap]
  have hnone : (scopes.keys.flatMap fun n => (linkErrors scopes n []
      (filesOf (parseSources sources).parsed n)).filterMap Diagnostic.redeclaredSpot?) = [] :=
    List.flatMap_eq_nil_iff.2 fun n hn => linkErrors_reported scopes n (hspelled n hn) [] _
  rw [hnone, List.append_nil]
  exact List.flatMap_congr fun n _ => merge_reported h n

end Linked

/-! ### Repetitions of blocks -/

/-- All reports on the way to linked packages. -/
def linkDiagnostics (sources : List Source) : List Diagnostic :=
  (parseSources sources).diagnostics ++ (linkSources sources).diagnostics

/-- What is reported of redeclared names, with the places of the reports. -/
def reportedSpots (sources : List Source) : List Spot :=
  (linkDiagnostics sources).filterMap Diagnostic.redeclaredSpot?

theorem reportedSpots_perm (sources : List Source) : ∃ names : List String, names.Nodup ∧
    (∀ n, n ∈ names ↔ ∃ f ∈ (parseSources sources).parsed, f.name.name = n) ∧
    (reportedSpots sources).Perm
      (((seated (Board.empty.layout sources)).flatMap fun x => x.1.repetitions x.2) ++
        names.flatMap fun n => repeats Spot.key []
          ((filesOf (parseSources sources).parsed n).flatMap File.firstSpots)) := by
  obtain ⟨scopes, m, h⟩ := linkSources_run sources
  refine ⟨scopes.keys, NameMap.keys_nodup _, fun n => ?_, ?_⟩
  · rw [NameMap.mem_keys, ← h.links.named, Option.isSome_iff_exists]
  · have hparsed : (parseSources sources).diagnostics = diagnosticsOf (Board.empty.layout sources) := by
      rw [parseSources_eq]
      rfl
    unfold reportedSpots linkDiagnostics
    rw [List.filterMap_append, linked_reported h, hparsed]
    exact (diagnosticsOf_reported _).append_right _

/-- The repetitions for one scope of a source. -/
theorem Source.mem_repetitions (s : Source) (ρ : Placement) {x : Spot} :
    x ∈ s.repetitions ρ ↔ ∃ i, x ∈ repeats Spot.key [] (((s.entrances ρ).filter (·.1 = i)).map (·.2)) := by
  have hsort (i : ScopeId) (x y : Entrance) (hx : x.key ≠ none) (hxy : x.key = y.key) :
      decide (x.1 = i) = decide (y.1 = i) := by
    obtain ⟨⟨j, name⟩, hk⟩ := Option.ne_none_iff_exists'.1 hx
    rw [(Entrance.key_eq_some.1 hk).1, (Entrance.key_eq_some.1 (hxy.symm.trans hk)).1]
  have hone (i : ScopeId) : repeats Spot.key [] (((s.entrances ρ).filter (·.1 = i)).map (·.2)) =
      ((repeats Entrance.key [] (s.entrances ρ)).filter (·.1 = i)).map (·.2) := by
    rw [filter_repeats (hsort i), repeats_map]
    congr 1
    refine (repeats_renamed (f := fun name => (i, name)) (fun a b h => (Prod.mk.inj h).2) []
      fun y hy => ?_).symm
    rw [← of_decide_eq_true (List.mem_filter.1 hy).2]
    rfl
  simp only [hone]
  unfold repetitions
  constructor
  · intro hx
    obtain ⟨y, hy, rfl⟩ := List.mem_map.1 hx
    exact ⟨y.1, List.mem_map_of_mem (List.mem_filter.2 ⟨hy, decide_eq_true rfl⟩)⟩
  · rintro ⟨i, hx⟩
    exact (List.filter_sublist.map _).subset hx

/-- What is reported is what some block repeats. -/
theorem mem_reportedSpots {sources : List Source} {x : Spot} : x ∈ reportedSpots sources ↔
    ∃ B, Block (parseSources sources).parsed B ∧ x ∈ repeats Spot.key [] B := by
  obtain ⟨names, -, hnames, hperm⟩ := reportedSpots_perm sources
  have hblock (n : String) : (repeats Spot.key []
      (((filesOf (parseSources sources).parsed n).flatMap File.declared).map Ident.spot)).Perm
        (((filesOf (parseSources sources).parsed n).flatMap fun f =>
          repeats Spot.key [] (f.declared.map Ident.spot)) ++
        repeats Spot.key [] ((filesOf (parseSources sources).parsed n).flatMap File.firstSpots)) := by
    rw [List.map_flatMap]
    exact repeats_flatMap_perm ..
  rw [hperm.mem_iff, List.mem_append, List.mem_flatMap, List.mem_flatMap]
  constructor
  · rintro (⟨⟨s, ρ⟩, hs, hx⟩ | ⟨n, -, hx⟩)
    · have hf : s.alone.file.placed ρ ∈ (parseSources sources).parsed := by
        rw [parseSources_eq]
        exact List.mem_map_of_mem (f := fun x : Source × Placement => x.1.alone.file.placed x.2) hs
      obtain ⟨i, hx⟩ := (s.mem_repetitions ρ).1 hx
      by_cases hi : i = 0
      · rw [hi, s.block_outer] at hx
        refine ⟨_, .package (s.alone.file.placed ρ).name.name, (hblock _).mem_iff.2 ?_⟩
        exact List.mem_append_left _ (List.mem_flatMap.2 ⟨_, mem_filesOf.2 ⟨hf, rfl⟩, hx⟩)
      · rcases s.block_inner ρ hi with hnil | ⟨b, hb, heq⟩
        · rw [hnil] at hx
          cases hx
        · rw [heq] at hx
          exact ⟨_, .bean hf hb, hx⟩
    · exact ⟨_, .package n, (hblock n).mem_iff.2 (List.mem_append_right _ hx)⟩
  · rintro ⟨B, hB, hx⟩
    cases hB with
    | package n =>
      rcases List.mem_append.1 ((hblock n).mem_iff.1 hx) with hx | hx
      · obtain ⟨f, hf, hx⟩ := List.mem_flatMap.1 hx
        obtain ⟨s, ρ, hs, rfl⟩ := mem_parsed (mem_filesOf.1 hf).1
        refine .inl ⟨(s, ρ), hs, (s.mem_repetitions ρ).2 ⟨0, ?_⟩⟩
        rwa [s.block_outer]
      · refine .inr ⟨n, (hnames n).2 ?_, hx⟩
        have hmem := (repeats_sublist [] _).subset hx
        obtain ⟨f, hf, -⟩ := List.mem_flatMap.1 hmem
        exact ⟨f, (mem_filesOf.1 hf).1, (mem_filesOf.1 hf).2⟩
    | bean hf hb =>
      obtain ⟨s, ρ, hs, rfl⟩ := mem_parsed hf
      obtain ⟨i, -, heq⟩ := s.block_bean ρ hb
      refine .inl ⟨(s, ρ), hs, (s.mem_repetitions ρ).2 ⟨i, ?_⟩⟩
      rwa [heq]

/-! ### No place twice -/

namespace Source

variable (s : Source) (ρ : Placement)

theorem named_nodup : (((s.entrances ρ).filter fun x => x.key.isSome).map (·.2.2)).Nodup := by
  refine List.pairwise_map.2 (((s.entrances_apart ρ).filter _).imp_of_mem fun {x y} hx _ h => h ?_)
  have hsome := (List.mem_filter.1 hx).2
  intro hnone
  unfold Entrance.key at hsome
  rw [hnone] at hsome
  cases hsome

/-- The first ones of the file are those of its scope. -/
theorem firstSpots_placed : (s.alone.file.placed ρ).firstSpots =
    ((firsts Entrance.key [] (s.entrances ρ)).filter (·.1 = 0)).map (·.2) := by
  have hsort (x y : Entrance) (hx : x.key ≠ none) (hxy : x.key = y.key) :
      decide (x.1 = 0) = decide (y.1 = 0) := by
    obtain ⟨⟨j, name⟩, hk⟩ := Option.ne_none_iff_exists'.1 hx
    rw [(Entrance.key_eq_some.1 hk).1, (Entrance.key_eq_some.1 (hxy.symm.trans hk)).1]
  unfold File.firstSpots
  rw [← s.block_outer, firsts_map, filter_firsts hsort]
  congr 1
  refine (firsts_renamed (f := fun name => ((0 : ScopeId), name)) (fun a b h => (Prod.mk.inj h).2) []
    fun y hy => ?_).symm
  rw [← of_decide_eq_true (List.mem_filter.1 hy).2]
  rfl

/-- Of one source, repetitions and the first ones of the file have places of their own. -/
theorem spots_nodup :
    ((s.repetitions ρ ++ (s.alone.file.placed ρ).firstSpots).map (·.2)).Nodup := by
  have hperm := List.perm_append_comm.trans
    (firsts_append_repeats_perm (φ := Entrance.key) [] (s.entrances ρ))
  have hall := ((hperm.map fun x : Entrance => x.2.2).nodup_iff).2 (s.named_nodup ρ)
  rw [firstSpots_placed]
  unfold repetitions
  rw [← List.map_append, List.map_map]
  exact hall.sublist (((List.Sublist.refl _).append List.filter_sublist).map _)

theorem mem_spots {x : Spot}
    (hx : x ∈ s.repetitions ρ ++ (s.alone.file.placed ρ).firstSpots) :
    ∃ p, s.alone.source.Owns p ∧ x.2 = ρ.pos p := by
  obtain ⟨y, hy, rfl⟩ : ∃ y ∈ s.entrances ρ, y.2 = x := by
    rw [firstSpots_placed] at hx
    rcases List.mem_append.1 hx with hx | hx
    · obtain ⟨y, hy, rfl⟩ := List.mem_map.1 hx
      exact ⟨y, (repeats_sublist [] _).subset hy, rfl⟩
    · obtain ⟨y, hy, rfl⟩ := List.mem_map.1 hx
      exact ⟨y, (firsts_sublist [] _).subset (List.mem_filter.1 hy).1, rfl⟩
  obtain ⟨i, hi, heq⟩ := s.mem_entrances ρ hy
  exact ⟨i.pos, s.ident_owned hi, congrArg Prod.snd heq⟩

end Source

/-- No place is reported twice. -/
theorem reportedSpots_nodup (sources : List Source) :
    ((reportedSpots sources).map (·.2)).Nodup := by
  obtain ⟨names, hnames, hmem, hperm⟩ := reportedSpots_perm sources
  have hfiles : (names.flatMap fun n =>
      (filesOf (parseSources sources).parsed n).flatMap File.firstSpots).Perm
        ((seated (Board.empty.layout sources)).flatMap fun x =>
          (x.1.alone.file.placed x.2).firstSpots) := by
    have hnamed : ∀ f ∈ (parseSources sources).parsed, f.name.name ∈ names :=
      fun f hf => (hmem _).2 ⟨f, hf, rfl⟩
    have hgroups := (flatMap_filesOf_perm hnames hnamed).flatMap_right File.firstSpots
    rw [List.flatMap_assoc] at hgroups
    refine hgroups.trans (.of_eq ?_)
    rw [parseSources_eq]
    exact List.flatMap_map ..
  have hsub : (reportedSpots sources).Subperm ((seated (Board.empty.layout sources)).flatMap
      fun x => x.1.repetitions x.2 ++ (x.1.alone.file.placed x.2).firstSpots) := by
    refine hperm.subperm.trans (List.Subperm.trans ?_ (List.flatMap_append_perm ..).subperm)
    refine List.Subperm.append (.refl _) (List.Subperm.trans ?_ hfiles.subperm)
    exact (flatMap_sublist _ fun n => repeats_sublist [] _).subperm
  have hall : (((seated (Board.empty.layout sources)).flatMap fun x =>
      x.1.repetitions x.2 ++ (x.1.alone.file.placed x.2).firstSpots).map (·.2)).Nodup := by
    rw [List.map_flatMap, List.nodup_flatMap]
    refine ⟨fun x _ => x.1.spots_nodup x.2, ?_⟩
    refine (Board.layout_pairwise (b := .empty) Nat.one_ne_zero sources).imp ?_
    rintro ⟨s, ρ⟩ ⟨s', ρ'⟩ hlt p hp hp'
    obtain ⟨x, hx, rfl⟩ := List.mem_map.1 hp
    obtain ⟨y, hy, heq⟩ := List.mem_map.1 hp'
    obtain ⟨q, hq, hxq⟩ := s.mem_spots ρ hx
    obtain ⟨q', hq', hyq⟩ := s'.mem_spots ρ' hy
    exact Nat.ne_of_lt (hlt.pos_lt hq hq') (hxq.symm.trans (heq.symm.trans hyq))
  obtain ⟨xs, hxs, hsublist⟩ := hsub
  exact (hxs.map _).nodup_iff.1 (hall.sublist (hsublist.map _))

/-! ### Exactness -/

/-- In a list in order, what is repeated has its name at a smaller position. -/
theorem mem_repeats_of_behind {B : List Spot} (h : B.Pairwise Spot.Behind) {x : Spot} :
    x ∈ repeats Spot.key [] B ↔
      x.key ≠ none ∧ x ∈ B ∧ ∃ y ∈ B, y.key = x.key ∧ y.2 < x.2 := by
  rw [mem_repeats]
  constructor
  · rintro ⟨as, bs, k, rfl, hk, hseen⟩
    obtain ⟨y, hy, hyk⟩ := hseen.resolve_left List.not_mem_nil
    have hbehind := (List.pairwise_append.1 h).2.2 y hy x List.mem_cons_self
    exact ⟨by simp [hk], List.mem_append_right _ List.mem_cons_self, y, List.mem_append_left _ hy,
      hyk.trans hk.symm, hbehind.lt (by simp [hyk])⟩
  · rintro ⟨hne, hx, y, hy, hkey, hlt⟩
    obtain ⟨k, hk⟩ := Option.ne_none_iff_exists'.1 hne
    obtain ⟨as, bs, rfl⟩ := List.append_of_mem hx
    refine ⟨as, bs, k, rfl, hk, .inr ⟨y, ?_, hkey.trans hk⟩⟩
    rcases List.mem_append.1 hy with hy | hy
    · exact hy
    · rcases List.mem_cons.1 hy with rfl | hy
      · exact absurd hlt (Nat.lt_irrefl _)
      · have hbehind := (List.pairwise_cons.1 (List.pairwise_append.1 h).2.1).1 y hy
        exact absurd hlt (Nat.not_lt.2 hbehind.1)

/-- What is reported about redeclared names while the files `fs` are parsed and linked, and what
their packages name in the end. -/
structure Redeclarations (fs : List File) (ds : List Diagnostic) (l : Linked) : Prop where
  /-- Errors stand where a name is declared that is declared in the same block before. -/
  placed : ∀ name pos, (∃ d ∈ ds, d.redeclared? = some name ∧ d.span.start = pos) ↔
    name ≠ "_" ∧ ∃ B, Block fs B ∧ (name, pos) ∈ B ∧ ∃ first < pos, (name, first) ∈ B
  /-- No place has two errors. -/
  apart : ds.Pairwise fun d d' => d.redeclared?.isSome → d'.redeclared?.isSome →
    d.span.start ≠ d'.span.start
  /-- Of the declarations of a name in a block, all but one are errors. -/
  counted : ∀ B, Block fs B → ∀ name, name ≠ "_" →
    ds.countP (fun d => decide (d.redeclared? = some name ∧ (name, d.span.start) ∈ B)) =
      B.countP (·.1 = name) - 1
  /-- The scope of a package names the first declarations of its files, and nothing else. -/
  scopes : ∀ f ∈ fs, ∃ p scope, l.packages.find? f.name.name = some p ∧
    l.symbols.scopes[p.scope]? = some scope ∧ (scope.names.map (·.1)).Nodup ∧
    ∀ name, (scope.find? name).bind (fun o => l.symbols.objects[o]?) =
        declarationOf? fs f.name.name name ∧
      (name ∈ scope.names.map (·.1) → (declarationOf? fs f.name.name name).isSome = true)

theorem mem_reportedSpots_iff {sources : List Source} {name : String} {pos : Pos} :
    (name, pos) ∈ reportedSpots sources ↔
      ∃ d ∈ linkDiagnostics sources, d.redeclared? = some name ∧ d.span.start = pos := by
  unfold reportedSpots Diagnostic.redeclaredSpot?
  rw [List.mem_filterMap]
  refine exists_congr fun d => and_congr_right fun _ => ?_
  rw [Option.map_eq_some_iff]
  simp only [Prod.mk.injEq]
  exact ⟨fun ⟨_, hn, heq, hpos⟩ => ⟨heq ▸ hn, hpos⟩, fun ⟨hn, hpos⟩ => ⟨name, hn, rfl, hpos⟩⟩

/-- Of the declarations of a name in a block, all but the first one are reported. -/
theorem countP_reportedSpots {sources : List Source} {B : List Spot}
    (hB : Block (parseSources sources).parsed B) {name : String} (hname : name ≠ "_") :
    (reportedSpots sources).countP (fun x => decide (x.1 = name ∧ x ∈ B)) =
      B.countP (·.1 = name) - 1 := by
  have hkey (x : Spot) : x.key = some name ↔ x.1 = name :=
    Spot.key_eq_some.trans (and_iff_left hname)
  have hnodup : ((repeats Spot.key [] B).filter fun x => decide (x.key = some name)).Nodup := by
    refine (hB.behind.sublist (repeats_sublist [] B)).filter _ |>.imp_of_mem fun {x y} hx _ h heq => ?_
    have hx := of_decide_eq_true (List.mem_filter.1 hx).2
    have hlt := h.lt (show x.key ≠ none by simp [hx])
    exact Nat.lt_irrefl _ (heq ▸ hlt)
  have hperm : ((reportedSpots sources).filter fun x => decide (x.1 = name ∧ x ∈ B)).Perm
      ((repeats Spot.key [] B).filter fun x => decide (x.key = some name)) := by
    refine (List.perm_ext_iff_of_nodup
      ((List.Nodup.of_map _ (reportedSpots_nodup sources)).filter _) hnodup).2 fun x => ?_
    rw [List.mem_filter, List.mem_filter, decide_eq_true_eq, decide_eq_true_eq, hkey,
      mem_reportedSpots]
    constructor
    · rintro ⟨⟨B', hB', hx⟩, hn, hxB⟩
      have hne : x.key ≠ none := by simp [(hkey x).2 hn]
      exact ⟨hB.unique hB' hxB ((repeats_sublist [] _).subset hx) hne ▸ hx, hn⟩
    · exact fun ⟨hx, hn⟩ => ⟨⟨B, hB, hx⟩, hn, (repeats_sublist [] _).subset hx⟩
  have hcount := countP_repeats (φ := Spot.key) name B
  rw [List.countP_eq_length_filter, hperm.length_eq, ← List.countP_eq_length_filter, hcount]
  simp only [hkey]

/-- The scope of a package names what its files declare, and nothing else. -/
theorem Linked.Run.package_scope {files : FileSet} {t m : SymbolTable} {fs : List File}
    {scopes : NameMap ScopeId} {l : Linked} (h : l.Run files t fs scopes m) {f : File}
    (hf : f ∈ fs) : ∃ p scope, l.packages.find? f.name.name = some p ∧
      l.symbols.scopes[p.scope]? = some scope ∧ (scope.names.map (·.1)).Nodup ∧
      ∀ name, (scope.find? name).bind (fun o => l.symbols.objects[o]?) =
          declarationOf? fs f.name.name name ∧
        (name ∈ scope.names.map (·.1) → (declarationOf? fs f.name.name name).isSome = true) := by
  obtain ⟨i, hi⟩ := Option.isSome_iff_exists.1 ((h.links.named f.name.name).2 ⟨f, hf, rfl⟩)
  obtain ⟨p, hp⟩ : ∃ p, l.packages.find? f.name.name = some p := by
    rw [← NameMap.mem_keys, h.links.keys, NameMap.mem_keys]
    exact ⟨i, hi⟩
  obtain ⟨j, hj, hlinks, -⟩ := h.links.packages hp
  obtain rfl : j = i := Option.some.inj (hj.symm.trans hi)
  have hnames := h.links.merged hi
  have hscope : l.symbols.scopes[p.scope]? = some { outer := none, names :=
      ((firsts Entry.key [] (packageEntries t fs f.name.name)).map fun e =>
        (e.2.name, e.1)).reverse } := by
    rw [hlinks.scope, h.links.symbols.scopes]
    exact hnames
  have hfind (name : String) : Scope.find? { outer := none, names :=
      ((firsts Entry.key [] (packageEntries t fs f.name.name)).map fun e =>
        (e.2.name, e.1)).reverse } name = m.lookup? j name := by
    unfold SymbolTable.lookup?
    rw [show m.scopes[j]? = _ from hnames]
    rfl
  refine ⟨p, _, hp, hscope, ?_, fun name => ⟨?_, fun hmem => ?_⟩⟩
  · have hfirsts := (firsts_keys (φ := Entry.key) [] (packageEntries t fs f.name.name)).1
    rw [show Entry.key = some ∘ fun e : Entry => e.2.name from rfl, List.filterMap_eq_map] at hfirsts
    show (((firsts _ _ _).map _).reverse.map _).Nodup
    rw [List.map_reverse, List.map_map]
    exact List.nodup_reverse.2 hfirsts
  · rw [hfind]
    exact h.package_lookup hi name
  · rw [← h.package_lookup hi name, ← hfind]
    have hsome : (Scope.find? _ name).isSome = true := Option.isSome_map.trans
      (List.find?_isSome.2 (by
        obtain ⟨x, hx, heq⟩ := List.mem_map.1 hmem
        exact ⟨x, hx, decide_eq_true heq⟩))
    obtain ⟨o, ho⟩ := Option.isSome_iff_exists.1 hsome
    rw [ho]
    exact h.isSome_of_lookup hi ((hfind name).symm.trans ho)

/-- Redeclarations are reported exactly, and packages name the first declarations. -/
theorem redeclarations_exact (sources : List Source) :
    Redeclarations (parseSources sources).parsed (linkDiagnostics sources) (linkSources sources) where
  placed name pos := by
    rw [← mem_reportedSpots_iff, mem_reportedSpots]
    constructor
    · rintro ⟨B, hB, hx⟩
      obtain ⟨hne, hx, ⟨n, q⟩, hy, hkey, hlt⟩ := (mem_repeats_of_behind hB.behind).1 hx
      obtain ⟨k, hk⟩ := Option.ne_none_iff_exists'.1 hne
      obtain ⟨rfl, hblank⟩ := Spot.key_eq_some.1 hk
      obtain ⟨rfl, -⟩ := Spot.key_eq_some.1 (hkey.trans hk)
      exact ⟨hblank, B, hB, hx, q, hlt, hy⟩
    · rintro ⟨hblank, B, hB, hx, q, hlt, hy⟩
      have hkey (p : Pos) : Spot.key (name, p) = some name := Spot.key_eq_some.2 ⟨rfl, hblank⟩
      refine ⟨B, hB, (mem_repeats_of_behind hB.behind).2 ⟨?_, hx, (name, q), hy, ?_, hlt⟩⟩
      · simp [hkey]
      · rw [hkey, hkey]
  apart := by
    have h := reportedSpots_nodup sources
    unfold reportedSpots at h
    rw [List.map_filterMap] at h
    refine (List.pairwise_filterMap.1 h).imp fun {d d'} hne hd hd' => ?_
    obtain ⟨n, hn⟩ := Option.isSome_iff_exists.1 hd
    obtain ⟨n', hn'⟩ := Option.isSome_iff_exists.1 hd'
    refine hne _ ?_ _ ?_
    · rw [Diagnostic.redeclaredSpot?, hn]
      rfl
    · rw [Diagnostic.redeclaredSpot?, hn']
      rfl
  counted B hB name hname := by
    rw [← countP_reportedSpots hB hname]
    unfold reportedSpots
    rw [List.countP_filterMap]
    refine List.countP_congr fun d _ => ?_
    unfold Diagnostic.redeclaredSpot?
    cases d.redeclared? with
    | none => simp
    | some n =>
      have hiff : (some n = some name ∧ (name, d.span.start) ∈ B) ↔
          n = name ∧ (n, d.span.start) ∈ B := by
        rw [Option.some_inj]
        exact and_congr_right fun h => h ▸ Iff.rfl
      rw [decide_eq_true_eq, hiff]
      simp
  scopes f hf := by
    obtain ⟨scopes, m, h⟩ := linkSources_run sources
    exact h.package_scope hf

end Idl
