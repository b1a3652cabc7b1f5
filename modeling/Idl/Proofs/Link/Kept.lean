/-
Idl/Proofs/Link/Kept.lean

Where the files that are linked go.

Files are regrouped by package before the names of files are compared, so a file could get lost on the
way.  None does: each is the first one with its place, which is a package and a name (`File.place`),
or has another one with this place in front of it.  The first ones are the files of the packages
(`Linked.Links.find?_file`), and each of the others has an error of its own (`filter_linkErrors`).

`Diagnostic.saysTwice` finds out from its text whether an error is about a file whose name comes twice.
Names of files may be any text, but those of packages have no blanks, so the words in front of the last
blank tell.

Main result: the files of all packages and these errors are as many as the files (`files_kept`).
-/
import Idl.Proofs.Redeclaration

namespace Idl

/-! ### Errors about names of files -/

/-- What stands between the name of the file and that of the package in an error about a file whose name
comes twice. -/
def twiceWords : List Char := " appears twice in package ".toList

/-- Whether an error says that the name of a file comes twice in a package. -/
def Diagnostic.saysTwice (d : Diagnostic) : Bool :=
  d.isError && "file ".toList.isPrefixOf d.message.toList &&
    twiceWords.reverse.isPrefixOf (d.message.toList.reverse.dropWhile (· ≠ ' ')) &&
    d.redeclared?.isNone

theorem Diagnostic.saysTwice_of_redeclared? {d : Diagnostic} {name : String}
    (h : d.redeclared? = some name) : d.saysTwice = false := by
  unfold saysTwice
  rw [h, Option.isNone_some, Bool.and_false]

theorem ImportSpec.saysTwice_notFound (spec : ImportSpec) (id : String) :
    (spec.notFound id).saysTwice = false := by
  have hstart : "file ".toList.isPrefixOf (spec.notFound id).message.toList = false := by
    show "file ".toList.isPrefixOf ("package \x60" ++ id ++ "\x60 not found").toList = false
    rw [String.toList_append, String.toList_append]
    rfl
  unfold Diagnostic.saysTwice
  rw [hstart, Bool.and_false, Bool.false_and, Bool.false_and]

/-- An error about a file whose name comes twice says so. -/
theorem File.saysTwice_appearsTwice (f : File) {package : String} (h : Spelled package) :
    (f.appearsTwice package).saysTwice = true := by
  have hmessage : (f.appearsTwice package).message.toList =
      "file ".toList ++ (f.filename.toList ++ (twiceWords ++ package.toList)) := by
    show ("file " ++ f.filename ++ " appears twice in package " ++ package).toList = _
    rw [String.toList_append, String.toList_append, String.toList_append, List.append_assoc,
      List.append_assoc]
    rfl
  have hstart : "file ".toList.isPrefixOf (f.appearsTwice package).message.toList = true :=
    List.isPrefixOf_iff_prefix.2 (hmessage ▸ List.prefix_append ..)
  have hname : ∀ c ∈ package.toList.reverse, decide (c ≠ ' ') = true := fun c hc =>
    decide_eq_true fun heq => h.not_mem (by decide +kernel) (heq ▸ List.mem_reverse.1 hc)
  have hfront : (f.appearsTwice package).message.toList.reverse.dropWhile (· ≠ ' ') =
      twiceWords.reverse ++ (f.filename.toList.reverse ++ "file ".toList.reverse) := by
    rw [hmessage]
    simp only [List.reverse_append, List.append_assoc]
    rw [List.dropWhile_append_of_pos hname]
    rfl
  have hwords : twiceWords.reverse.isPrefixOf
      ((f.appearsTwice package).message.toList.reverse.dropWhile (· ≠ ' ')) = true :=
    List.isPrefixOf_iff_prefix.2 (hfront ▸ List.prefix_append ..)
  unfold Diagnostic.saysTwice
  rw [hstart, hwords, f.redeclared?_appearsTwice h]
  rfl

/-! ### Places of files -/

namespace File

/-- Where a file belongs: in the package of its package clause, under its own name. -/
def place (f : File) : String × String := (f.name.name, f.filename)

/-- A file without what linking finds out about it. -/
def asParsed (f : File) : File := { f with resolutions := {}, unresolved := [] }

end File

/-- The files that have another one with their place in front of them. -/
def repeatedFiles (fs : List File) : List File := repeats (fun f => some f.place) [] fs

/-- The files of which one has no other one with its place in front of it. -/
def firstFiles (fs : List File) : List File := firsts (fun f => some f.place) [] fs

/-- Every file is a first one or a repeated one. -/
theorem firstFiles_append_repeatedFiles (fs : List File) :
    (firstFiles fs ++ repeatedFiles fs).Perm fs := by
  have h := firsts_append_repeats_perm (φ := fun f : File => some f.place) [] fs
  have hall : (fs.filter fun f => (some f.place).isSome) = fs :=
    List.filter_eq_self.2 fun f _ => rfl
  rwa [hall] at h

theorem place_package {n : String} (f g : File) (h : some f.place = some g.place) :
    decide (f.name.name = n) = decide (g.name.name = n) := by
  have hname : f.name.name = g.name.name := congrArg Prod.fst (Option.some.inj h)
  rw [hname]

/-- In a package, the name of a file tells its place. -/
theorem place_of_mem_filesOf (fs : List File) (n : String) :
    ∀ f ∈ filesOf fs n, some f.place = (some f.filename).map fun x => (n, x) := fun f hf => by
  rw [← (mem_filesOf.1 hf).2]
  rfl

/-- The files of a package that are first ones are the first ones of its files. -/
theorem filesOf_firstFiles (fs : List File) (n : String) :
    filesOf (firstFiles fs) n = firsts (fun f => some f.filename) [] (filesOf fs n) := by
  have hsame := firsts_renamed (f := fun x : String => (n, x)) (fun x y h => congrArg Prod.snd h) []
    (place_of_mem_filesOf fs n)
  exact (filter_firsts (fun f g _ h => place_package f g h) [] fs).trans hsame

/-- The files of a package that are repeated ones are repeated among its files. -/
theorem filesOf_repeatedFiles (fs : List File) (n : String) :
    filesOf (repeatedFiles fs) n = repeats (fun f => some f.filename) [] (filesOf fs n) := by
  have hsame := repeats_renamed (f := fun x : String => (n, x)) (fun x y h => congrArg Prod.snd h) []
    (place_of_mem_filesOf fs n)
  exact (filter_repeats (fun f g _ h => place_package f g h) [] fs).trans hsame

/-! ### What is reported -/

/-- While the files of a package are linked, the repeated ones are reported. -/
theorem filter_linkErrors (scopes : NameMap ScopeId) {package : String} (h : Spelled package)
    (taken : List String) (fs : List File) :
    (linkErrors scopes package taken fs).filter (·.saysTwice) =
      (repeats (fun f => some f.filename) taken fs).map (File.appearsTwice package) := by
  induction fs generalizing taken with
  | nil => rfl
  | cons f fs ih =>
    have himports : (f.imports.flatMap (ImportSpec.errors scopes)).filter (·.saysTwice) = [] := by
      refine List.filter_eq_nil_iff.2 fun d hd => ?_
      obtain ⟨spec, -, hd⟩ := List.mem_flatMap.1 hd
      unfold ImportSpec.errors at hd
      split at hd
      · split at hd
        · cases hd
        · rw [List.mem_singleton.1 hd, spec.saysTwice_notFound]
          exact Bool.false_ne_true
      · cases hd
    rw [linkErrors, List.filter_append, List.filter_append, himports, List.nil_append, ih]
    by_cases htaken : f.filename ∈ taken
    · -- a name that was taken before is taken still
      have hsame : repeats (fun f : File => some f.filename) (f.filename :: taken) fs =
          repeats (fun f => some f.filename) taken fs :=
        repeats_congr (fun x => ⟨fun hx => (List.mem_cons.1 hx).elim (fun heq => heq ▸ htaken) id,
          List.mem_cons_of_mem _⟩) fs
      rw [if_pos htaken, hsame, repeats_cons_seen (φ := fun f : File => some f.filename) rfl htaken,
        List.map_cons, List.filter_cons_of_pos (f.saysTwice_appearsTwice h)]
      rfl
    · rw [if_neg htaken, repeats_cons_new (φ := fun f : File => some f.filename) rfl htaken]
      rfl

section Parsed

variable {sources : List Source} {fs : List File} (h : fs ⊆ (parseSources sources).parsed)
include h

/-- Files that were parsed can be linked, in any order and any selection. -/
theorem linkable_of_parsed : Linkable (parseSources sources).symbols fs where
  scope f hf := (parseSources_linkable sources).scope f (h hf)
  valid f hf := (parseSources_linkable sources).valid f (h hf)

/-- While scopes are merged, nothing is reported about names of files. -/
theorem filter_mergeErrors (n : String) : (mergeErrors (parseSources sources).files
    (packageEntries (parseSources sources).symbols fs n)).filter (·.saysTwice) = [] := by
  obtain ⟨scopes, m, hrun⟩ := linkSources_run sources
  have hdeclared {e : Entry} (he : e ∈ packageEntries (parseSources sources).symbols fs n) :
      ∃ f ∈ (parseSources sources).parsed, e.2 ∈ f.declarations := by
    obtain ⟨f, hf, he⟩ := List.mem_flatMap.1 he
    obtain ⟨hf, hn⟩ := mem_filesOf.1 hf
    exact (mem_packageEntries hrun (List.mem_flatMap.2 ⟨f, mem_filesOf.2 ⟨h hf, hn⟩, he⟩)).2
  refine List.filter_eq_nil_iff.2 fun d hd => ?_
  obtain ⟨e, he, rfl⟩ := List.mem_map.1 hd
  have he := (repeats_sublist [] _).subset he
  obtain ⟨f, hf, ho⟩ := hdeclared he
  obtain ⟨e', he'⟩ := Option.isSome_iff_exists.1 (List.find?_isSome
    (p := fun x : Entry => decide (x.key = e.key)).2 ⟨e, he, decide_eq_true rfl⟩)
  obtain ⟨f', hf', ho'⟩ := hdeclared (List.mem_of_find?_eq_some he')
  have hredeclared : (mergeError (parseSources sources).files (some e') e).redeclared? =
      some e.2.name :=
    Diagnostic.redeclared?_error ((declaration_place hf ho).1.not_mem (by decide +kernel))
      (declaration_place hf' ho').2 _
  rw [he', Diagnostic.saysTwice_of_redeclared? hredeclared]
  exact Bool.false_ne_true

end Parsed

/-! ### The files of packages -/

namespace Package.Links

variable {m : SymbolTable} {scopes : NameMap ScopeId} {n : String} {i : ScopeId} {fs : List File}
  {p : Package} (h : p.Links m scopes n i fs)
include h

/-- Under a name, a package has the first file of this name. -/
theorem find?_asParsed (x : String) : (p.files.find? x).map File.asParsed =
    (fs.find? (·.filename = x)).map File.asParsed := by
  rw [h.files, Option.map_map]
  rfl

/-- A package has as many files as there are first ones. -/
theorem length_files :
    p.files.entries.length = (firsts (fun f : File => some f.filename) [] fs).length := by
  have hnodup := (firsts_keys (φ := fun f : File => some f.filename) [] fs).1
  have hmem (x : String) : x ∈ p.files.keys ↔
      x ∈ (firsts (fun f : File => some f.filename) [] fs).filterMap fun f => some f.filename := by
    rw [mem_filterMap_firsts, NameMap.mem_keys, ← NameMap.contains_eq_true, h.contains_iff,
      List.filterMap_eq_map', List.mem_map]
  have hperm := (List.perm_ext_iff_of_nodup p.files.keys_nodup hnodup).2 hmem
  have hlength := hperm.length_eq
  rwa [NameMap.keys, List.length_map, List.filterMap_eq_map', List.length_map] at hlength

end Package.Links

/-- What has become of the files `fs` when they are linked. -/
structure Linked.Keeps (l : Linked) (fs : List File) : Prop where
  /-- There is a package for every name in a package clause, and for no other. -/
  named : ∀ n, n ∈ l.packages.keys ↔ ∃ f ∈ fs, f.name.name = n
  /-- Packages are kept under their names. -/
  keyed : ∀ n p, l.packages.find? n = some p → p.name = n
  /-- At a place there is the first file with this place. -/
  placed : ∀ n x, ((l.packages.find? n).bind fun p => p.files.find? x).map File.asParsed =
    (fs.find? fun f => f.place = (n, x)).map File.asParsed
  /-- Each further file with its place has one error, which starts at its package clause. -/
  reported : (l.diagnostics.filter (·.saysTwice)).Perm
    ((repeatedFiles fs).map fun f => f.appearsTwice f.name.name)
  /-- No file is missing. -/
  counted : (l.packages.values.map fun p => p.files.entries.length).sum +
    l.diagnostics.countP (·.saysTwice) = fs.length

namespace Linked.Links

variable {files : FileSet} {t m : SymbolTable} {fs : List File} {scopes : NameMap ScopeId} {l : Linked}
  (h : l.Links files t fs scopes m)
include h

theorem mem_keys (n : String) : n ∈ l.packages.keys ↔ ∃ f ∈ fs, f.name.name = n := by
  rw [h.keys, NameMap.mem_keys, ← h.named, Option.isSome_iff_exists]

/-- Taken package by package, all files are there. -/
theorem packages_perm {gs : List File} (hgs : gs ⊆ fs) :
    (scopes.keys.flatMap (filesOf gs)).Perm gs :=
  flatMap_filesOf_perm scopes.keys_nodup fun f hf => by
    rw [← h.keys, h.mem_keys]
    exact ⟨f, hgs hf, rfl⟩

/-- At a place there is the first file with this place. -/
theorem find?_file (n x : String) :
    ((l.packages.find? n).bind fun p => p.files.find? x).map File.asParsed =
      (fs.find? fun f => f.place = (n, x)).map File.asParsed := by
  have hplace (f : File) : decide (f.place = (n, x)) =
      (decide (f.name.name = n) && decide (f.filename = x)) := by
    rw [← Bool.decide_and]
    exact decide_eq_decide.2 Prod.mk_inj
  have hfiles : (fs.find? fun f => f.place = (n, x)) = (filesOf fs n).find? (·.filename = x) := by
    unfold filesOf
    rw [List.find?_filter]
    refine congrArg (fs.find? ·) (funext fun f => ?_)
    rw [hplace, Bool.decide_and, Bool.decide_eq_true, Bool.decide_eq_true]
  rw [hfiles]
  cases hp : l.packages.find? n with
  | some p =>
    obtain ⟨i, -, hlinks, -⟩ := h.packages hp
    exact hlinks.find?_asParsed x
  | none =>
    have hnone : filesOf fs n = [] := by
      refine List.eq_nil_iff_forall_not_mem.2 fun f hf => ?_
      obtain ⟨hf, hn⟩ := mem_filesOf.1 hf
      obtain ⟨p, hp'⟩ := NameMap.mem_keys.1 ((h.mem_keys n).2 ⟨f, hf, hn⟩)
      rw [hp] at hp'
      cases hp'
    rw [hnone]
    rfl

/-- The files of all packages are as many as the first files. -/
theorem sum_files : (l.packages.values.map fun p => p.files.entries.length).sum =
    (firstFiles fs).length := by
  have hsizes : (l.packages.values.map fun p => p.files.entries.length) =
      l.packages.keys.map fun n => (filesOf (firstFiles fs) n).length := by
    unfold NameMap.values NameMap.keys
    rw [List.map_map, List.map_map]
    refine List.map_congr_left fun e he => ?_
    obtain ⟨i, -, hlinks, -⟩ := h.packages (NameMap.find?_eq_some.2 he)
    show e.2.files.entries.length = _
    rw [hlinks.length_files, ← filesOf_firstFiles]
    rfl
  rw [hsizes, h.keys, ← List.length_flatMap]
  exact (h.packages_perm (firsts_sublist [] fs).subset).length_eq

end Linked.Links

/-- **No file gets lost.**  However files that were parsed are selected and ordered, linking puts each
into the package of its package clause, under its own name, if no other one in front of it has this
place.  Each other file is reported, by one error that starts at its package clause.  So the files of
all packages and these errors are as many as the files, and the packages are those that package clauses
name. -/
theorem files_kept (sources : List Source) {fs : List File}
    (hparsed : fs ⊆ (parseSources sources).parsed) :
    (link fs (parseSources sources).symbols (parseSources sources).files).Keeps fs := by
  obtain ⟨scopes, m, h⟩ := link_links (linkable_of_parsed hparsed) (parseSources sources).files
  generalize link fs (parseSources sources).symbols (parseSources sources).files = l at h
  have hspelled : ∀ n ∈ scopes.keys, Spelled n := by
    intro n hn
    obtain ⟨f, hf, rfl⟩ := (h.mem_keys n).1 (h.keys ▸ hn)
    exact package_spelled (hparsed hf)
  have hreported : (l.diagnostics.filter (·.saysTwice)).Perm
      ((repeatedFiles fs).map fun f => f.appearsTwice f.name.name) := by
    have hmerged : (scopes.keys.flatMap fun n => (mergeErrors (parseSources sources).files
        (packageEntries (parseSources sources).symbols fs n)).filter (·.saysTwice)) = [] :=
      List.flatMap_eq_nil_iff.2 fun n _ => filter_mergeErrors hparsed n
    have hlinked : (scopes.keys.flatMap fun n =>
        (linkErrors scopes n [] (filesOf fs n)).filter (·.saysTwice)) =
          (scopes.keys.flatMap (filesOf (repeatedFiles fs))).map
            fun f => f.appearsTwice f.name.name := by
      rw [List.map_flatMap]
      refine List.flatMap_congr fun n hn => ?_
      rw [filter_linkErrors scopes (hspelled n hn), ← filesOf_repeatedFiles]
      refine List.map_congr_left fun f hf => ?_
      rw [(mem_filesOf.1 hf).2]
    rw [h.diagnostics, List.filter_append, List.filter_flatMap, List.filter_flatMap, hmerged, hlinked,
      List.nil_append]
    exact (h.packages_perm (repeats_sublist [] fs).subset).map _
  refine ⟨h.mem_keys, fun n p hp => ?_, h.find?_file, hreported, ?_⟩
  · obtain ⟨i, -, hlinks, -⟩ := h.packages hp
    exact hlinks.name
  · have hlength := (firstFiles_append_repeatedFiles fs).length_eq
    rw [List.length_append] at hlength
    rw [h.sum_files, List.countP_eq_length_filter, hreported.length_eq, List.length_map, hlength]

/-- Files of two packages.  Three files of one package have the same name, which a file of the other one
has as well. -/
def namesakes : List Source := [
  ⟨"a.mid", "package p\nstruct A \x7b\n\x7d\n"⟩, ⟨"b.mid", "package p\n"⟩, ⟨"a.mid", "package q\n"⟩,
  ⟨"a.mid", "package p\nimport \"r\"\n"⟩, ⟨"a.mid", "// last\npackage p\nstruct A \x7b\n\x7d\n"⟩]

theorem files_kept_namesakes :
    let run := parseSources namesakes
    let l := link run.parsed.reverse run.symbols run.files
    run.parsed.reverse ⊆ run.parsed ∧
    l.packages.entries.map (fun e => (e.1, e.2.files.keys)) =
      [("p", ["a.mid", "b.mid"]), ("q", ["a.mid"])] ∧
    (l.diagnostics.filter (·.saysTwice)).map (·.render run.files) =
      ["a.mid:1:1: file a.mid appears twice in package p",
        "a.mid:1:1: file a.mid appears twice in package p"] ∧
    l.diagnostics.length = 4 ∧ l.Keeps run.parsed.reverse := by
  have hparsed : (parseSources namesakes).parsed.reverse ⊆ (parseSources namesakes).parsed :=
    fun _ hf => List.mem_reverse.1 hf
  exact ⟨hparsed, by decide +kernel, by decide +kernel, by decide +kernel,
    files_kept namesakes hparsed⟩

end Idl
