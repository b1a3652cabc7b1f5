/-
Idl/Proofs/Meaning.lean

What the names of files stand for, in terms of what is written.

`File.meaning?` and `File.imported?` say for a name what it should stand for, and look at nothing
but declarations, imports and package clauses.  The theorems of this module carry what the tables of
a linked run hold over to these terms: scopes to declarations, bindings to imports.
-/
import Idl.Proofs.Order

namespace Idl

/-! ### Meanings -/

/-- The first declaration of a name in a file. -/
def File.declaration? (f : File) (name : String) : Option Object :=
  f.declarations.find? (·.key = some name)

section Meanings

variable (fs : List File)

/-- The constants and beans of a package. -/
def declarationsOf (package : String) : List Object :=
  (filesOf fs package).flatMap File.declarations

/-- The declaration of a name in a package, at the smallest position. -/
def declarationOf? (package name : String) : Option Object :=
  ((declarationsOf fs package).filter (·.key = some name)).argmin (·.pos)

/-- The package that an import names, if it has files. -/
def ImportSpec.package? (spec : ImportSpec) : Option String :=
  spec.id?.filter fun id => fs.any (·.name.name = id)

/-- What a name without a qualifier should stand for in a file: a declaration of the file, or else of
its package, or else of the first package imported by a dot that has one. -/
def File.meaning? (f : File) (name : String) : Option Object :=
  (f.declaration? name).or ((declarationOf? fs f.name.name name).or (f.imports.findSome? fun spec =>
    if spec.isDotted then (spec.package? fs).bind (declarationOf? fs · name) else none))

/-- The package that a qualifier should stand for in a file: that of the last import that binds it
and finds one. -/
def File.imported? (f : File) (name : String) : Option String :=
  f.imports.reverse.findSome? fun spec =>
    if spec.binds? = some name then spec.package? fs else none

end Meanings

/-! ### Linked sources -/

/-- Sources that are parsed in order and then linked. -/
def linkSources (sources : List Source) : Linked :=
  link (parseSources sources).parsed (parseSources sources).symbols (parseSources sources).files

/-- The object that an identifier of a file stands for. -/
def Linked.objectOf? (l : Linked) (f : File) (i : Ident) : Option Object :=
  (f.resolutions.get? i.id).bind fun o => l.symbols.objects[o]?

/-- What is known of a run: its files are known, their declarations come in order, and they are
linked. -/
structure Linked.Run (files : FileSet) (t : SymbolTable) (fs : List File)
    (scopes : NameMap ScopeId) (m : SymbolTable) (l : Linked) : Prop where
  links : l.Links files t fs scopes m
  known : ∀ f ∈ fs, ∃ refs, f.Known t refs
  behind : (fs.flatMap File.declarations).Pairwise Object.Behind

/-- Linked sources are a run. -/
theorem linkSources_run (sources : List Source) : ∃ scopes m,
    (linkSources sources).Run (parseSources sources).files (parseSources sources).symbols
      (parseSources sources).parsed scopes m := by
  obtain ⟨scopes, m, h⟩ := link_links (parseSources_linkable sources) (parseSources sources).files
  refine ⟨scopes, m, h, fun f hf => ?_, declarations_behind sources⟩
  obtain ⟨s, ρ, hs, rfl⟩ := mem_parsed hf
  exact ⟨_, known_of_seated hs⟩

/-! ### From scopes to declarations -/

theorem findSome?_congr {α β : Type} {f g : α → Option β} {xs : List α}
    (h : ∀ x ∈ xs, f x = g x) : xs.findSome? f = xs.findSome? g := by
  induction xs with
  | nil => rfl
  | cons x xs ih =>
    rw [List.findSome?_cons, List.findSome?_cons, h x List.mem_cons_self,
      ih fun y hy => h y (List.mem_cons_of_mem x hy)]

/-- Whatever is found is taken on. -/
theorem findSome?_bind {α β γ : Type} {f : α → Option β} {g : β → Option γ} {xs : List α}
    (h : ∀ x ∈ xs, ∀ y, f x = some y → (g y).isSome = true) :
    (xs.findSome? f).bind g = xs.findSome? fun x => (f x).bind g := by
  induction xs with
  | nil => rfl
  | cons x xs ih =>
    rw [List.findSome?_cons, List.findSome?_cons]
    cases hx : f x with
    | none => exact ih fun y hy => h y (List.mem_cons_of_mem x hy)
    | some y =>
      obtain ⟨z, hz⟩ := Option.isSome_iff_exists.1 (h x List.mem_cons_self y hx)
      show g y = match g y with
        | some z => some z
        | none => _
      rw [hz]

/-- An entry that is found stands for its object. -/
theorem SymbolTable.Has.find? {t : SymbolTable} {es : List Entry} (h : t.Has es)
    (p : Object → Bool) : ((es.find? fun e => p e.2).map (·.1)).bind (fun o => t.objects[o]?) =
      (es.map (·.2)).find? p := by
  rw [List.find?_map]
  cases hfind : es.find? fun e => p e.2 with
  | none => exact (congrArg (Option.map _) hfind).symm
  | some e =>
    refine Eq.trans ?_ (congrArg (Option.map _) hfind).symm
    exact h e (List.mem_of_find?_eq_some hfind)

/-- Among first declarations, a name is found where its first declaration is. -/
theorem find?_firsts_key (os : List Object) (name : String) :
    (firsts Object.key [] os).find? (·.name = name) = os.find? (·.key = some name) := by
  rw [← find?_firsts List.not_mem_nil]
  refine List.find?_congr fun o ho => ?_
  obtain ⟨k, hk, -⟩ := (firsts_keys (φ := Object.key) [] os).2 o ho
  have hname := (Object.key_eq_some.1 hk).1
  rw [hk, ← hname]
  exact decide_eq_decide.2 Option.some_inj.symm

namespace Linked.Run

variable {files : FileSet} {t m : SymbolTable} {fs : List File} {scopes : NameMap ScopeId}
  {l : Linked}

theorem objects (h : l.Run files t fs scopes m) {o : ObjectId} {x : Object}
    (ho : t.objects[o]? = some x) : l.symbols.objects[o]? = some x :=
  h.links.symbols.within.objects (h.links.kept.objects ho)

/-- The scope of a file names its declarations. -/
theorem file_lookup (h : l.Run files t fs scopes m) {f : File} (hf : f ∈ fs) (name : String) :
    (t.lookup? f.scope name).bind (fun o => l.symbols.objects[o]?) = f.declaration? name := by
  obtain ⟨refs, hk⟩ := h.known f hf
  have hhas : l.symbols.Has (t.entries f.scope) := fun e he => h.objects (t.has_entries _ e he)
  rw [hk.lookup, hhas.find? (·.name = name), hk.entries, find?_firsts_key]
  rfl

/-- Of the declarations of a package, the first one of a name is at the smallest position. -/
theorem find?_declarationsOf (h : l.Run files t fs scopes m) (n name : String) :
    (declarationsOf fs n).find? (·.key = some name) = declarationOf? fs n name :=
  (argmin_eq_find? (h.behind.sublist (flatMap_filesOf_sublist ..)) (.refl _) name).symm

/-- What the scope of a package names is what the files of the package declare. -/
theorem package_lookup (h : l.Run files t fs scopes m) {n : String} {i : ScopeId}
    (hi : scopes.find? n = some i) (name : String) :
    (m.lookup? i name).bind (fun o => l.symbols.objects[o]?) = declarationOf? fs n name := by
  have hhas : l.symbols.Has (packageEntries t fs n) := fun e he => by
    obtain ⟨f, -, he⟩ := List.mem_flatMap.1 he
    exact h.objects (t.has_entries _ e he)
  have hobjects : (packageEntries t fs n).map (·.2) =
      (filesOf fs n).flatMap fun f => firsts Object.key [] f.declarations := by
    unfold packageEntries
    rw [List.map_flatMap]
    refine List.flatMap_congr fun f hf => ?_
    obtain ⟨refs, hk⟩ := h.known f (mem_filesOf.1 hf).1
    exact hk.entries
  rw [(h.links.merged hi).lookup?, hhas.find? (·.name = name), hobjects, ← h.find?_declarationsOf]
  unfold declarationsOf
  rw [List.find?_flatMap, List.find?_flatMap]
  simp only [find?_firsts_key]

/-- Whatever a scope of a package names has an object. -/
theorem isSome_of_lookup (h : l.Run files t fs scopes m) {n : String} {i : ScopeId}
    (hi : scopes.find? n = some i) {name : String} {o : ObjectId} (ho : m.lookup? i name = some o) :
    (l.symbols.objects[o]?).isSome = true := by
  rw [(h.links.merged hi).lookup?] at ho
  obtain ⟨e, he, rfl⟩ := Option.map_eq_some_iff.1 ho
  obtain ⟨f, -, he⟩ := List.mem_flatMap.1 (List.mem_of_find?_eq_some he)
  rw [h.objects (t.has_entries _ e he)]
  rfl

end Linked.Run

/-! ### From bindings to imports -/

theorem findSome?_filterMap {α β γ : Type} (f : α → Option β) (g : β → Option γ) (xs : List α) :
    (xs.filterMap f).findSome? g = xs.findSome? fun x => (f x).bind g := by
  induction xs with
  | nil => rfl
  | cons x xs ih =>
    rw [List.findSome?_cons]
    cases hx : f x with
    | none => rw [List.filterMap_cons_none hx, ih]; rfl
    | some y => rw [List.filterMap_cons_some hx, List.findSome?_cons, ih]; rfl

namespace Linked.Run

variable {files : FileSet} {t m : SymbolTable} {fs : List File} {scopes : NameMap ScopeId}
  {l : Linked}

/-- An import finds the package that it names. -/
theorem target? (h : l.Run files t fs scopes m) (spec : ImportSpec) :
    spec.target? scopes = (spec.package? fs).bind fun id => (scopes.find? id).map (id, ·) := by
  unfold ImportSpec.target? ImportSpec.package?
  cases spec.id? with
  | none => rfl
  | some id =>
    have hnamed : (scopes.find? id).isSome = fs.any (·.name.name = id) := by
      rw [Bool.eq_iff_iff, h.links.named, List.any_eq_true]
      simp only [decide_eq_true_eq]
    cases hfind : scopes.find? id with
    | none => simp [Option.filter, ← hnamed, hfind]
    | some i => simp [Option.filter, ← hnamed, hfind]

/-- A package that is found has a scope. -/
theorem scope_of_package (h : l.Run files t fs scopes m) {spec : ImportSpec} {id : String}
    (hid : spec.package? fs = some id) : ∃ i, scopes.find? id = some i := by
  obtain ⟨-, hany⟩ := Option.filter_eq_some_iff.1 hid
  obtain ⟨f, hf, hname⟩ := List.any_eq_true.1 hany
  exact Option.isSome_iff_exists.1 ((h.links.named id).2 ⟨f, hf, of_decide_eq_true hname⟩)

/-- The packages imported by a dot, as scopes and as declarations. -/
theorem dotted_lookup (h : l.Run files t fs scopes m) (specs : List ImportSpec) (name : String) :
    ((specs.filterMap (ImportSpec.dotted? scopes)).findSome? (m.lookup? · name)).bind
        (fun o => l.symbols.objects[o]?) =
      specs.findSome? fun spec =>
        if spec.isDotted then (spec.package? fs).bind (declarationOf? fs · name) else none := by
  have hdotted (spec : ImportSpec) : spec.dotted? scopes =
      if spec.isDotted then (spec.package? fs).bind scopes.find? else none := by
    unfold ImportSpec.dotted?
    rw [h.target?, Option.map_bind]
    simp only [Function.comp_def, Option.map_map, Option.map_id']
  rw [findSome?_filterMap, findSome?_bind]
  · congr 1
    funext spec
    rw [hdotted]
    split
    · cases hid : spec.package? fs with
      | none => rfl
      | some id =>
        obtain ⟨i, hi⟩ := h.scope_of_package hid
        show ((scopes.find? id).bind _).bind _ = declarationOf? fs id name
        rw [hi]
        exact h.package_lookup hi name
    · rfl
  · intro spec _ o ho
    obtain ⟨i, hi, ho⟩ := Option.bind_eq_some_iff.1 ho
    rw [hdotted] at hi
    split at hi
    · obtain ⟨id, -, hi⟩ := Option.bind_eq_some_iff.1 hi
      exact h.isSome_of_lookup hi ho
    · cases hi

/-- What a qualifier is bound to is the package that the last import binds to it. -/
theorem find?_bindings (h : l.Run files t fs scopes m) {p : Package} {n : String} {i : ScopeId}
    (hp : p.Links m scopes n i (filesOf fs n)) {f : File} (hf : f ∈ filesOf fs n) (name : String) :
    (f.bindings scopes p.imports).find? name = (f.imported? fs name).bind fun id =>
      (p.imports.find? id).bind fun o => (scopes.find? id).map (o, ·) := by
  have hfound {spec : ImportSpec} (hspec : spec ∈ f.imports) {id : String}
      (hid : spec.package? fs = some id) :
      ∃ o j, p.imports.find? id = some o ∧ scopes.find? id = some j ∧
        spec.target? scopes = some (id, j) := by
    obtain ⟨j, hj⟩ := h.scope_of_package hid
    have ht : spec.target? scopes = some (id, j) := by
      rw [h.target?, hid, Option.bind_some, hj]
      rfl
    obtain ⟨o, ho⟩ := Option.isSome_iff_exists.1 ((hp.found id).2 ⟨f, hf, spec, hspec, j, ht⟩)
    exact ⟨o, j, ho, hj, ht⟩
  have hone : ∀ spec ∈ f.imports.reverse,
      ((spec.binding? scopes p.imports).bind (Option.guard fun b => decide (b.1 = name))).map (·.2) =
        (if spec.binds? = some name then spec.package? fs else none).bind fun id =>
          (p.imports.find? id).bind fun o => (scopes.find? id).map (o, ·) := by
    intro spec hspec
    unfold ImportSpec.binding?
    cases hid : spec.package? fs with
    | none =>
      rw [h.target?, hid, ite_self]
      rfl
    | some id =>
      obtain ⟨o, j, ho, hj, ht⟩ := hfound (List.mem_reverse.1 hspec) hid
      rw [ht]
      show (((p.imports.find? id).bind _).bind _).map _ = _
      rw [ho]
      cases spec.binds? with
      | none => rfl
      | some b => by_cases hb : b = name <;> simp [Option.guard, hb, ho, hj]
  unfold File.bindings Bindings.find? File.imported?
  dsimp only
  rw [← List.filterMap_reverse, List.find?_eq_findSome?_guard, findSome?_filterMap,
    List.map_findSome?, findSome?_bind]
  · exact findSome?_congr hone
  · intro spec hspec id hid
    split at hid
    · obtain ⟨o, j, ho, hj, -⟩ := hfound (List.mem_reverse.1 hspec) hid
      rw [ho, Option.bind_some, hj]
      rfl
    · cases hid

end Linked.Run

/-! ### From packages to files -/

/-- In a package no two files have the same name. -/
def DistinctNames (fs : List File) : Prop :=
  fs.Pairwise fun f g => f.name.name = g.name.name → f.filename ≠ g.filename

instance (fs : List File) : Decidable (DistinctNames fs) :=
  inferInstanceAs (Decidable (fs.Pairwise _))

theorem DistinctNames.filesOf {fs : List File} (h : DistinctNames fs) (n : String) :
    (filesOf fs n).Pairwise fun f g => f.filename ≠ g.filename := by
  refine (h.sublist List.filter_sublist).imp_of_mem fun {f g} hf hg hne => hne ?_
  exact (mem_filesOf.1 hf).2.trans (mem_filesOf.1 hg).2.symm

theorem find?_filename {fs : List File} (h : fs.Pairwise fun f g => f.filename ≠ g.filename)
    {f : File} (hf : f ∈ fs) : fs.find? (·.filename = f.filename) = some f := by
  refine find?_eq_some_of_unique hf (decide_eq_true rfl) fun g hg hname => ?_
  have hinj : (fs.map (·.filename)).Nodup := List.pairwise_map.2 h
  exact List.inj_on_of_nodup_map hinj hg hf (of_decide_eq_true hname)

namespace Package.Links

variable {m : SymbolTable} {scopes : NameMap ScopeId} {n : String} {i : ScopeId} {fs : List File}
  {p : Package}

theorem mem_values (h : p.Links m scopes n i fs) {f : File} (hf : f ∈ p.files.values) :
    ∃ f₀ ∈ fs, f = linkedFile m scopes p.imports i f₀ := by
  obtain ⟨x, hx⟩ := NameMap.mem_values.1 hf
  rw [h.files] at hx
  obtain ⟨f₀, hf₀, rfl⟩ := Option.map_eq_some_iff.1 hx
  exact ⟨f₀, List.mem_of_find?_eq_some hf₀, rfl⟩

/-- Files are kept under their names. -/
theorem filenames (h : p.Links m scopes n i fs) :
    p.files.values.map (·.filename) = p.files.keys := by
  unfold NameMap.values NameMap.keys
  rw [List.map_map]
  refine List.map_congr_left fun e he => ?_
  have hfind := NameMap.find?_eq_some.2 he
  rw [h.files] at hfind
  obtain ⟨f₀, hf₀, hf⟩ := Option.map_eq_some_iff.1 hfind
  have hname : f₀.filename = e.1 := by simpa using List.find?_some hf₀
  show e.2.filename = e.1
  rw [← hf]
  exact hname

end Package.Links

/-- A linked file is one that is parsed, of which only the resolutions and the unresolved names have
changed. -/
theorem exists_parsed {sources : List Source} {p : Package}
    (hp : p ∈ (linkSources sources).packages.values) {g : File} (hg : g ∈ p.files.values) :
    ∃ f ∈ (parseSources sources).parsed, p.name = f.name.name ∧
      ∃ r u, g = { f with resolutions := r, unresolved := u } := by
  obtain ⟨scopes, m, hrun⟩ := linkSources_run sources
  obtain ⟨n, hn⟩ := NameMap.mem_values.1 hp
  obtain ⟨i, -, hlinks, -⟩ := hrun.links.packages hn
  obtain ⟨f, hf, rfl⟩ := hlinks.mem_values hg
  obtain ⟨hmem, hname⟩ := mem_filesOf.1 hf
  exact ⟨f, hmem, hlinks.name.trans hname.symm, _, _, rfl⟩

end Idl
