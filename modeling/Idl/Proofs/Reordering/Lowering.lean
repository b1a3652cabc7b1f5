/-
Idl/Proofs/Reordering/Lowering.lean

Lowering in two orders.

Two files that come of one source, linked in two orders, agree on all that lowering looks up: an
identifier stands for one declaration, which only sits elsewhere (`Interchangeable.objectOf?_twins`),
so chains of constants end in the same numbers (`Interchangeable.constValue?_eq`, by induction on the
length of the chain, which may pass from file to file), and qualifiers stand for the same packages.
Hence both are lowered to the same representation (`FileTwins.lower_eq`).
-/
import Idl.Proofs.Ir.ImportMaps
import Idl.Proofs.Ir.Placed
import Idl.Proofs.Reordering.Files

namespace Idl

/-! ### Values by their names -/

/-- Maps that answer alike have values that are alike. -/
theorem NameMap.forall₂_values {α β : Type} {R : α → β → Prop} {m : NameMap α} {m' : NameMap β}
    (h : ∀ k, Option.Rel R (m.find? k) (m'.find? k)) : m.values.Forall₂ R m'.values := by
  have hkeys : m.entries.map Prod.fst = m'.entries.map Prod.fst := NameMap.keys_eq fun k => by
    have hk := h k
    generalize m.find? k = o at hk
    generalize m'.find? k = o' at hk
    cases hk <;> rfl
  have hentries : m.entries.Forall₂ (fun e e' => R e.2 e'.2) m'.entries := by
    have hsame : m.entries.Forall₂ (fun e e' => e.1 = e'.1) m'.entries := by
      have heq : (m.entries.map Prod.fst).Forall₂ Eq (m'.entries.map Prod.fst) :=
        List.forall₂_eq_eq_eq ▸ hkeys
      rwa [List.forall₂_map_left_iff, List.forall₂_map_right_iff] at heq
    rw [List.forall₂_iff_get] at hsame ⊢
    refine ⟨hsame.1, fun i hi hi' => ?_⟩
    have hk := h (m.entries.get ⟨i, hi⟩).1
    rw [NameMap.find?_eq_some.2 (List.get_mem m.entries ⟨i, hi⟩), hsame.2 i hi hi',
      NameMap.find?_eq_some.2 (List.get_mem m'.entries ⟨i, hi'⟩)] at hk
    cases hk with
    | some hab => exact hab
  unfold NameMap.values
  rwa [List.forall₂_map_left_iff, List.forall₂_map_right_iff]

/-- Lists of which the parts correspond are mapped to the same. -/
theorem map_eq_of_forall₂ {α β γ : Type} {R : α → β → Prop} {xs : List α} {ys : List β}
    (h : xs.Forall₂ R ys) {f : α → γ} {g : β → γ} (hfg : ∀ x y, R x y → f x = g y) :
    xs.map f = ys.map g := by
  induction h with
  | nil => rfl
  | cons hxy _ ih => rw [List.map_cons, List.map_cons, hfg _ _ hxy, ih]

theorem flatMap_eq_of_forall₂ {α β γ : Type} {R : α → β → Prop} {xs : List α} {ys : List β}
    (h : xs.Forall₂ R ys) {f : α → List γ} {g : β → List γ} (hfg : ∀ x y, R x y → f x = g y) :
    xs.flatMap f = ys.flatMap g := by
  rw [List.flatMap_def, List.flatMap_def, map_eq_of_forall₂ h hfg]

/-! ### One run -/

/-- What the linked sources are lowered in. -/
abbrev loweringEnv (sources : List Source) : LowerEnv :=
  .ofPackages (linkSources sources).packages (linkSources sources).symbols

section Linked

variable {sources : List Source}

/-- Two linked files with one number have one name, and are of one package. -/
theorem linked_unique {p q : Package} (hp : p ∈ (linkSources sources).packages.values)
    (hq : q ∈ (linkSources sources).packages.values) {f g : File} (hf : f ∈ p.files.values)
    (hg : g ∈ q.files.values) (hid : f.id = g.id) : p.name = q.name ∧ f.filename = g.filename := by
  obtain ⟨f₀, hf₀, hpname, _, _, rfl⟩ := exists_parsed hp hf
  obtain ⟨g₀, hg₀, hqname, _, _, rfl⟩ := exists_parsed hq hg
  obtain ⟨s, ρ, hs, rfl⟩ := mem_parsed hf₀
  obtain ⟨s', ρ', hs', rfl⟩ := mem_parsed hg₀
  obtain ⟨rfl, rfl⟩ := Prod.mk.inj (seat_unique hs hs' hid)
  exact ⟨hpname.trans hqname.symm, rfl⟩

/-- Linked files have numbers of their own. -/
theorem loweringEnv_files_nodup : ((loweringEnv sources).files.map (·.id)).Nodup := by
  obtain ⟨scopes, m, hrun⟩ := linkSources_run sources
  have hnames : ((linkSources sources).packages.values.map (·.name)).Nodup :=
    hrun.package_names ▸ NameMap.keys_nodup _
  show (((linkSources sources).packages.values.flatMap fun p => p.files.values).map _).Nodup
  rw [List.map_flatMap, List.nodup_flatMap]
  constructor
  · intro p hp
    obtain ⟨n, hn⟩ := NameMap.mem_values.1 hp
    obtain ⟨i, -, hlinks, -⟩ := hrun.links.packages hn
    have hfiles : (p.files.values.map (·.filename)).Nodup := hlinks.filenames ▸ NameMap.keys_nodup _
    refine List.pairwise_map.2 ((List.pairwise_map.1 hfiles).imp_of_mem fun {f g} hf hg hne hid => ?_)
    exact hne (linked_unique hp hp hf hg hid).2
  · refine (List.pairwise_map.1 hnames).imp_of_mem fun {p q} hp hq hne x hx hy => ?_
    obtain ⟨f, hf, hfx⟩ := List.mem_map.1 hx
    obtain ⟨g, hg, hgx⟩ := List.mem_map.1 hy
    exact hne (linked_unique hp hq hf hg (hfx.trans hgx.symm)).1

/-- A linked file is found by its number. -/
theorem loweringEnv_file? {f : File} (hf : f ∈ (loweringEnv sources).files) :
    (loweringEnv sources).file? f.id = some f := by
  refine find?_eq_some_of_unique hf (decide_eq_true rfl) fun g hg hid => ?_
  exact List.inj_on_of_nodup_map loweringEnv_files_nodup hg hf (of_decide_eq_true hid)

end Linked

/-- What there is to say about a source is about a place in it. -/
theorem Source.remarks_owned (s : Source) {env : LowerEnv} {names : File} {d : Diagnostic}
    (hd : d ∈ s.alone.file.remarks env names) : s.alone.source.Owns d.span.start :=
  s.reading.covers _ (File.remarks_covers env s.alone.file names 1 d hd)

namespace Source.LinkedAs

variable {sources : List Source} {s : Source} {ρ : Placement} {g : File}
  (h : s.LinkedAs sources ρ g)
include h

theorem id : g.id = ρ.fileId := congrArg File.id h.file

theorem filename : g.filename = s.name := (congrArg File.filename h.file).trans s.reading.filename

theorem decls : g.decls = s.alone.file.decls.map (Decl.placed ρ) := congrArg File.decls h.file

theorem imports : g.imports = s.alone.file.imports.map (ImportSpec.placed ρ) :=
  (congrArg File.imports h.file).trans (File.imports_placed ρ _)

/-- What a linked file is lowered to, up to its beans. -/
theorem lower (env : LowerEnv) : g.lower env = {
    filename := s.name
    doc := lowerDoc s.alone.file.doc
    package := s.package
    beans := (s.alone.file.decls.filterMap Decl.bean?).map (Bean.lower env g)
    decls := s.alone.file.decls.filterMap Decl.lowerGroup?
    unresolved := (sortIdents (s.alone.file.lost (parseSources sources).parsed)).map (·.name) } := by
  have hdoc : lowerDoc g.doc = lowerDoc s.alone.file.doc :=
    (congrArg (fun f : File => lowerDoc f.doc) h.file).trans (lowerDoc_placed ρ _)
  have hname : g.name = s.alone.file.name.placed ρ := congrArg File.name h.file
  have hbeans : (g.decls.filterMap Decl.bean?).map (Bean.lower env g) =
      (s.alone.file.decls.filterMap Decl.bean?).map (Bean.lower env g) := by
    rw [h.decls, Decl.filterMap_bean?_placed, List.map_map]
    exact List.map_congr_left fun b _ => b.lower_placed ρ env g
  have hgroups : g.decls.filterMap Decl.lowerGroup? =
      s.alone.file.decls.filterMap Decl.lowerGroup? := by
    rw [h.decls, List.filterMap_map]
    exact List.filterMap_congr fun d _ => d.lowerGroup?_placed ρ
  unfold File.lower
  rw [h.filename, hdoc, hname, hbeans, hgroups, h.unresolved, map_name_placed]
  rfl

/-- What there is to say about a linked file. -/
theorem warnings (env : LowerEnv) : g.warnings env =
    (s.alone.file.remarks env g).map (Diagnostic.placed ρ) := by
  have hsame : g.remarks env g = (s.alone.file.placed ρ).remarks env g :=
    (congrArg (fun f : File => f.remarks env g) h.file).trans rfl
  rw [File.warnings_eq, hsame, File.remarks_placed ρ env _ _ fun d hd => (s.remarks_owned hd).1]

end Source.LinkedAs

/-- The file of a source is found by its number. -/
theorem Interchangeable.file?_eq_some {sources : List Source} (h : Interchangeable sources)
    {s : Source} {ρ : Placement} (hs : (s, ρ) ∈ seats sources) :
    ∃ g, (loweringEnv sources).file? ρ.fileId = some g ∧ s.LinkedAs sources ρ g := by
  obtain ⟨p, g, hp, hg, hlinked⟩ := h.linkedAs_of_seat hs
  have hmem : g ∈ (loweringEnv sources).files :=
    List.mem_flatMap.2 ⟨p, NameMap.mem_values.2 ⟨_, hp⟩, NameMap.mem_values.2 ⟨_, hg⟩⟩
  exact ⟨g, hlinked.id ▸ loweringEnv_file? hmem, hlinked⟩

/-! ### Two orders -/

/-- One source, linked in two orders. -/
def FileTwins (sources sources' : List Source) (g g' : File) : Prop :=
  ∃ (s : Source) (ρ ρ' : Placement), s.LinkedAs sources ρ g ∧ s.LinkedAs sources' ρ' g'

/-- One constant of a source, found in two orders. -/
def SpecTwins (sources sources' : List Source) (x x' : File × ConstSpec) : Prop :=
  ∃ (s : Source) (ρ ρ' : Placement) (spec : ConstSpec),
    (s.LinkedAs sources ρ x.1 ∧ x.2 = spec.placed ρ) ∧
    (s.LinkedAs sources' ρ' x'.1 ∧ x'.2 = spec.placed ρ') ∧
    ∀ i, spec.value = some (.ident i) → i ∈ s.alone.file.references

/-- A chain of constants starts where its first name leads to, wherever that name stands. -/
theorem LowerEnv.constValue?_placed (env : LowerEnv) (ρ : Placement) (n : Nat) (f : File)
    (i : Ident) : env.constValue? n f (i.placed ρ) = env.constValue? n f i := by
  cases n <;> rfl

namespace Interchangeable

variable {sources sources' : List Source} (h : Interchangeable sources)
  (hperm : sources.Perm sources')
include h hperm

section Files

variable {s : Source} {ρ ρ' : Placement} {g g' : File} (hg : s.LinkedAs sources ρ g)
  (hg' : s.LinkedAs sources' ρ' g')
include hg hg'

/-- In both orders an identifier stands for the same declaration. -/
theorem objectOf?_twins {r : Ident} (hr : r ∈ s.alone.file.references) :
    Option.Rel (Twins sources sources') ((loweringEnv sources).objectOf? g r)
      ((loweringEnv sources').objectOf? g' r) := by
  show Option.Rel _ ((linkSources sources).objectOf? g r) ((linkSources sources').objectOf? g' r)
  rw [hg.reference r hr, hg'.reference r hr]
  split
  · exact .none
  · exact h.meaning?_twins hperm hg.seat hg'.seat r.name

/-- In both orders a qualifier stands for the same package. -/
theorem lowerQualifier_eq {q : QualifiedRef} (hq : q ∈ s.alone.file.qualifiedNames) :
    lowerQualifier (loweringEnv sources) g q.qualifier =
      lowerQualifier (loweringEnv sources') g' q.qualifier := by
  have horigin : ((loweringEnv sources).objectOf? g q.qualifier).map Object.origin =
      ((loweringEnv sources').objectOf? g' q.qualifier).map Object.origin := by
    refine (hg.qualifier q hq).trans (Eq.trans ?_ (hg'.qualifier q hq).symm)
    rw [h.imported?_eq hperm]
  unfold lowerQualifier
  rw [horigin]

end Files

/-- In both orders a declaration leads to the same constant. -/
theorem constSpec?_twins {o o' : Object} (ho : Twins sources sources' o o') :
    Option.Rel (SpecTwins sources sources') ((loweringEnv sources).constSpec? o.origin)
      ((loweringEnv sources').constSpec? o'.origin) := by
  obtain ⟨s, ρ, ρ', x, hs, hs', -, rfl, rfl⟩ := ho
  obtain ⟨g, hg, hlinked⟩ := h.file?_eq_some hs
  obtain ⟨g', hg', hlinked'⟩ := (h.perm hperm).file?_eq_some hs'
  rw [Object.placed_origin, Object.placed_origin]
  cases x.origin with
  | spec file decl index =>
    show Option.Rel _ (((loweringEnv sources).file? ρ.fileId).bind _)
      (((loweringEnv sources').file? ρ'.fileId).bind _)
    rw [hg, hg', Option.bind_some, Option.bind_some, hlinked.decls, hlinked'.decls,
      List.getElem?_map, List.getElem?_map]
    cases hd : s.alone.file.decls[decl]? with
    | none => exact .none
    | some d =>
      cases d with
      | consts group =>
        show Option.Rel _ (((group.specs.map _)[index]?).map _) (((group.specs.map _)[index]?).map _)
        rw [List.getElem?_map, List.getElem?_map]
        cases hspec : group.specs[index]? with
        | none => exact .none
        | some spec =>
          refine .some ⟨s, ρ, ρ', spec, ⟨hlinked, rfl⟩, ⟨hlinked', rfl⟩, fun i hi => ?_⟩
          have hreference : spec.reference? = some i := by
            unfold ConstSpec.reference?
            rw [hi]
          exact List.mem_flatMap.2 ⟨_, List.mem_of_getElem? hd,
            List.mem_filterMap.2 ⟨spec, List.mem_of_getElem? hspec, hreference⟩⟩
      | _ => exact .none
  | _ => exact .none

/-- In both orders a chain of constants ends in the same number.  By induction on the length of the
chain: the next constant may be one of another source, so it goes for all sources at once. -/
theorem constValue?_eq (n : Nat) {s : Source} {ρ ρ' : Placement} {g g' : File}
    (hg : s.LinkedAs sources ρ g) (hg' : s.LinkedAs sources' ρ' g') {i : Ident}
    (hi : i ∈ s.alone.file.references) : (loweringEnv sources).constValue? n g i =
      (loweringEnv sources').constValue? n g' i := by
  induction n generalizing s ρ ρ' g g' i with
  | zero => rfl
  | succ n ih =>
    have hobject := h.objectOf?_twins hperm hg hg' hi
    unfold LowerEnv.constValue?
    generalize (loweringEnv sources).objectOf? g i = o at hobject
    generalize (loweringEnv sources').objectOf? g' i = o' at hobject
    cases hobject with
    | none => rfl
    | @some o o' htwins =>
      have hspec := h.constSpec?_twins hperm htwins
      have hkind : o.kind = o'.kind := by
        obtain ⟨_, _, _, x, -, -, -, rfl, rfl⟩ := htwins
        rfl
      rw [Option.bind_some, Option.bind_some, hkind]
      -- only constants lead on
      split
      · generalize (loweringEnv sources).constSpec? o.origin = x at hspec
        generalize (loweringEnv sources').constSpec? o'.origin = x' at hspec
        cases hspec with
        | none => rfl
        | @some x x' hx =>
          obtain ⟨f, spec⟩ := x
          obtain ⟨f', spec'⟩ := x'
          obtain ⟨s₁, ρ₁, ρ₁', written, ⟨hf, rfl⟩, ⟨hf', rfl⟩, hnext⟩ := hx
          rw [Option.bind_some, Option.bind_some]
          cases hvalue : written.value with
          | none => simp [ConstSpec.placed, hvalue]
          | some v =>
            cases v with
            | bad p => simp [ConstSpec.placed, hvalue, Value.placed]
            | lit l =>
              obtain ⟨p, kind, text⟩ := l
              cases kind <;> simp [ConstSpec.placed, hvalue, Value.placed, Lit.placed]
            | ident next =>
              simp only [ConstSpec.placed, hvalue, Option.map_some, Value.placed,
                LowerEnv.constValue?_placed]
              exact ih hf hf' (hnext next hvalue)
      · rfl

/-- In both orders the same names of a source stand for nothing. -/
theorem lost_eq {s : Source} (hs : s ∈ sources) :
    s.alone.file.lost (parseSources sources).parsed =
      s.alone.file.lost (parseSources sources').parsed := by
  obtain ⟨ρ, hseat⟩ := h.exists_seat hs
  obtain ⟨ρ', hseat'⟩ := (h.perm hperm).exists_seat (hperm.subset hs)
  have hmeaning (name : String) : (s.alone.file.meaning? (parseSources sources).parsed name).isNone =
      (s.alone.file.meaning? (parseSources sources').parsed name).isNone := by
    have htwins := rel_isNone (h.meaning?_twins hperm hseat hseat' name)
    rwa [File.isNone_meaning?_placed, File.isNone_meaning?_placed] at htwins
  have hqualified (q : QualifiedRef) : q.lost (parseSources sources).parsed s.alone.file =
      q.lost (parseSources sources').parsed s.alone.file := by
    have hdeclaration (id : String) := rel_isNone (h.declarationOf?_twins hperm id q.name.name)
    unfold QualifiedRef.lost
    rw [h.imported?_eq hperm]
    simp only [hdeclaration]
  unfold File.lost
  simp only [hmeaning, funext hqualified]

section Files

variable {s : Source} {ρ ρ' : Placement} {g g' : File} (hg : s.LinkedAs sources ρ g)
  (hg' : s.LinkedAs sources' ρ' g')
include hg hg'

/-- In both orders the names in the types of a bean come to the same. -/
theorem agrees {b : Bean} (hb : Decl.bean b ∈ s.alone.file.decls) {t : TypeExpr}
    (ht : t ∈ b.types) : t.Agrees (loweringEnv sources) (loweringEnv sources') g g' where
  size v hv := by
    cases v with
    | ident i =>
      have hi : i ∈ s.alone.file.references :=
        List.mem_flatMap.2 ⟨_, hb, List.mem_flatMap.2 ⟨t, ht, t.reference_of_size hv⟩⟩
      exact congrArg (Ir.ArraySize.const i.name) (h.constValue?_eq hperm _ hg hg' hi)
    | _ => rfl
  qualifier q hq := h.lowerQualifier_eq hperm hg hg'
    (List.mem_flatMap.2 ⟨_, hb, List.mem_flatMap.2 ⟨t, ht, hq⟩⟩)

/-- In both orders a source is lowered to the same. -/
theorem lower_eq : g.lower (loweringEnv sources) = g'.lower (loweringEnv sources') := by
  have hbeans : (s.alone.file.decls.filterMap Decl.bean?).map (Bean.lower (loweringEnv sources) g) =
      (s.alone.file.decls.filterMap Decl.bean?).map (Bean.lower (loweringEnv sources') g') :=
    List.map_congr_left fun b hb => Bean.lower_congr fun _ ht =>
      h.agrees hperm hg hg' (Decl.mem_filterMap_bean?.1 hb) ht
  rw [hg.lower, hg'.lower, hbeans, h.lost_eq hperm (mem_of_seat hg.seat)]

/-- In both orders there is the same to say about a source. -/
theorem remarks_eq : s.alone.file.remarks (loweringEnv sources) g =
    s.alone.file.remarks (loweringEnv sources') g' :=
  File.remarks_congr fun _ hb _ ht => h.agrees hperm hg hg' hb ht

end Files

end Interchangeable

/-! ### Packages in two orders -/

/-- One package, linked in two orders. -/
structure PackageTwins (sources sources' : List Source) (p p' : Package) : Prop where
  name : p.name = p'.name
  imports : ∀ id, p.imports.contains id = p'.imports.contains id
  files : p.files.values.Forall₂ (FileTwins sources sources') p'.files.values

/-- The paths of imports depend on which packages are imported, and on the texts of all paths. -/
theorem Package.lowerImports_congr {p p' : Package}
    (hcontains : ∀ id, p.imports.contains id = p'.imports.contains id)
    (htexts : (p.files.values.flatMap File.imports).map (·.path.text) =
      (p'.files.values.flatMap File.imports).map (·.path.text)) :
    p.lowerImports = p'.lowerImports := by
  have hfirst (specs : List ImportSpec) (key : String) :
      ((specs.find? (·.id? = some key)).bind fun spec => unquote? spec.path.text) =
        ((specs.map (·.path.text)).find? (importId? · = some key)).bind unquote? := by
    rw [List.find?_map, Option.bind_map]
    rfl
  refine NameMap.ext fun key => ?_
  rw [p.find?_lowerImports, p'.find?_lowerImports, hcontains, hfirst, hfirst, htexts]

namespace Interchangeable

variable {sources sources' : List Source} (h : Interchangeable sources)
  (hperm : sources.Perm sources')
include h hperm

/-- In both orders there are the same packages, with the same files. -/
theorem packages_twins : (linkSources sources).packages.values.Forall₂
    (PackageTwins sources sources') (linkSources sources').packages.values := by
  have h' := h.perm hperm
  have hpackage {n : String} {p p' : Package} (hp : (linkSources sources).packages.find? n = some p)
      (hp' : (linkSources sources').packages.find? n = some p') :
      PackageTwins sources sources' p p' := by
    refine ⟨(linkSources_package_name hp).trans (linkSources_package_name hp').symm, fun id => ?_,
      NameMap.forall₂_values fun x => rel_of_some (fun g hg => ?_) fun g hg => ?_⟩
    · rw [Bool.eq_iff_iff, h.contains_imports hp, h'.contains_imports hp']
      simp only [h.package?_eq hperm, hperm.mem_iff]
    · obtain ⟨s, ρ, hlinked, rfl, rfl⟩ := h.linkedAs_of_file hp hg
      obtain ⟨ρ', hs'⟩ := h'.exists_seat (hperm.subset (mem_of_seat hlinked.seat))
      obtain ⟨q, g', hq, hg', hlinked'⟩ := h'.linkedAs_of_seat hs'
      obtain rfl := Option.some.inj (hq.symm.trans hp')
      exact ⟨g', hg', s, ρ, ρ', hlinked, hlinked'⟩
    · obtain ⟨s, hs, hn⟩ := (h'.exists_file hp').1 ⟨g, hg⟩
      exact (h.exists_file hp).2 ⟨s, hperm.symm.subset hs, hn⟩
  refine NameMap.forall₂_values fun n => rel_of_some (fun p hp => ?_) fun p' hp' => ?_
  · obtain ⟨s, hs, hn⟩ := h.exists_package.1 ⟨p, hp⟩
    obtain ⟨p', hp'⟩ := h'.exists_package.2 ⟨s, hperm.subset hs, hn⟩
    exact ⟨p', hp', hpackage hp hp'⟩
  · obtain ⟨s, hs, hn⟩ := h'.exists_package.1 ⟨p', hp'⟩
    exact h.exists_package.2 ⟨s, hperm.symm.subset hs, hn⟩

/-- Packages are lowered to the same. -/
theorem lower_package_eq {p p' : Package} (hp : PackageTwins sources sources' p p') :
    p.lower (loweringEnv sources) = p'.lower (loweringEnv sources') := by
  have htexts : (p.files.values.flatMap File.imports).map (·.path.text) =
      (p'.files.values.flatMap File.imports).map (·.path.text) := by
    rw [List.map_flatMap, List.map_flatMap]
    refine flatMap_eq_of_forall₂ hp.files fun g g' hg => ?_
    obtain ⟨s, ρ, ρ', hg, hg'⟩ := hg
    rw [hg.imports, hg'.imports, List.map_map, List.map_map]
    rfl
  have hfiles : p.files.values.map (File.lower (loweringEnv sources)) =
      p'.files.values.map (File.lower (loweringEnv sources')) := by
    refine map_eq_of_forall₂ hp.files fun g g' hg => ?_
    obtain ⟨s, ρ, ρ', hg, hg'⟩ := hg
    exact h.lower_eq hperm hg hg'
  unfold Package.lower
  rw [hp.name, Package.lowerImports_congr hp.imports htexts, hfiles]

/-- In both orders the sources are lowered to the same. -/
theorem ir_eq : (compile sources).ir = (compile sources').ir :=
  congrArg Ir.mk (map_eq_of_forall₂ (h.packages_twins hperm) fun _ _ hp =>
    h.lower_package_eq hperm hp)

end Interchangeable

end Idl
