/-
Idl/Proofs/Ir/ImportMaps.lean

The two maps of what a package imports.

Linking gives an object to each package that is imported, as it goes through the files in the order in
which they were given, and passes over imports that name no package.  Lowering gives it a path: it
goes through the files that linking kept, in the order of their names, and passes over imports
without an object.  That the two have the same keys rests on linking to keep all files; of two files
with one name it drops the second, but not the objects of its imports.

One import adds its path if there is none yet (`Package.find?_addPath`), so a run over many of them
leaves the path of the first (`Package.find?_lowerImports`).  The run is over the files as they were
given, sorted by their names (`Package.Links.values_files`).

Main result: the maps agree on their keys, and the path at a key is that of the first import with
this id (`imports_agree`).
-/
import Idl.Proofs.ImportPaths
import Idl.Proofs.Ir.Targets

namespace Idl

/-! ### Last segments -/

/-- A segment is all that stands behind the last slash of a path. -/
def IsLastSegment (segment path : List Char) : Prop :=
  '/' ∉ segment ∧ (path = segment ∨ ∃ front, path = front ++ '/' :: segment)

theorem isLastSegment_lastSegment (path : List Char) : IsLastSegment (lastSegment path) path := by
  have hsplit : path = (path.reverse.dropWhile (· ≠ '/')).reverse ++ lastSegment path := by
    unfold lastSegment
    rw [← List.reverse_append, List.takeWhile_append_dropWhile, List.reverse_reverse]
  have hhead := List.head?_dropWhile_not (fun c => decide (c ≠ '/')) path.reverse
  refine ⟨fun hmem => ?_, ?_⟩
  · have hslash := List.mem_takeWhile_imp (List.mem_reverse.1 hmem)
    simp at hslash
  · cases hrest : path.reverse.dropWhile (· ≠ '/') with
    | nil =>
      rw [hrest] at hsplit
      exact .inl hsplit
    | cons c rest =>
      rw [hrest] at hhead hsplit
      have hc : c = '/' := by simpa using hhead
      rw [hc, List.reverse_cons, List.append_assoc] at hsplit
      exact .inr ⟨rest.reverse, hsplit⟩

/-- The id of an import is the last segment of its path. -/
theorem ImportSpec.id?_eq_some {spec : ImportSpec} {id : String} (h : spec.id? = some id) :
    ∃ path, unquote? spec.path.text = some path ∧ IsLastSegment id.toList path.toList := by
  obtain ⟨path, hpath, hid⟩ := Option.bind_eq_some_iff.1 h
  refine ⟨path, hpath, ?_⟩
  dsimp only at hid
  split at hid
  · cases hid
  · rw [← Option.some.inj hid, String.toList_ofList]
    exact isLastSegment_lastSegment path.toList

/-! ### Files in the order of their names -/

/-- The files of a package in the order of their names. -/
def filesByName (fs : List File) (package : String) : List File :=
  (filesOf fs package).mergeSort fun f g => decide (f.filename ≤ g.filename)

/-- The imports of a package: file by file in the order of the names of the files, and those of one
file as they are written. -/
def importsByName (fs : List File) (package : String) : List ImportSpec :=
  (filesByName fs package).flatMap File.imports

theorem mem_filesByName {fs : List File} {package : String} {f : File} :
    f ∈ filesByName fs package ↔ f ∈ filesOf fs package := List.mem_mergeSort

/-- Files with different names come in strictly increasing order. -/
theorem DistinctNames.filesByName {fs : List File} (h : DistinctNames fs) (package : String) :
    (filesByName fs package).Pairwise fun f g => f.filename < g.filename := by
  have hsorted : (Idl.filesByName fs package).Pairwise fun f g =>
      decide (f.filename ≤ g.filename) = true := by
    refine List.pairwise_mergeSort (fun f g k hfg hgk => ?_) (fun f g => ?_) _
    · exact decide_eq_true (String.le_trans (of_decide_eq_true hfg) (of_decide_eq_true hgk))
    · rw [Bool.or_eq_true, decide_eq_true_iff, decide_eq_true_iff]
      exact String.le_total ..
  have hdistinct : (Idl.filesByName fs package).Pairwise fun f g => f.filename ≠ g.filename :=
    (List.mergeSort_perm _ _).symm.pairwise (h.filesOf package) Ne.symm
  refine (hsorted.and hdistinct).imp fun {f g} hfg => ?_
  exact Std.lt_of_le_of_ne (of_decide_eq_true hfg.1) hfg.2

/-- Where no two files have the same name, a package keeps them all, in the order of their names. -/
theorem Package.Links.values_files {m : SymbolTable} {scopes : NameMap ScopeId} {n : String}
    {i : ScopeId} {fs : List File} {p : Package} (h : p.Links m scopes n i (filesOf fs n))
    (hdistinct : DistinctNames fs) :
    p.files.values = (filesByName fs n).map (linkedFile m scopes p.imports i) := by
  have hentries : p.files.entries =
      (filesByName fs n).map fun f => (f.filename, linkedFile m scopes p.imports i f) := by
    refine NameMap.increasing_ext p.files.increasing
      (List.pairwise_map.2 (hdistinct.filesByName n)) fun e => ?_
    rw [← NameMap.find?_eq_some, h.files, List.mem_map]
    constructor
    · intro hfind
      obtain ⟨f, hf, hlinked⟩ := Option.map_eq_some_iff.1 hfind
      have hname : f.filename = e.1 := by simpa using List.find?_some hf
      exact ⟨f, mem_filesByName.2 (List.mem_of_find?_eq_some hf), Prod.ext hname hlinked⟩
    · rintro ⟨f, hf, rfl⟩
      rw [find?_filename (hdistinct.filesOf n) (mem_filesByName.1 hf), Option.map_some]
  unfold NameMap.values
  rw [hentries, List.map_map]
  rfl

/-- Linking a package changes none of its imports. -/
theorem Package.Links.imports_files {m : SymbolTable} {scopes : NameMap ScopeId} {n : String}
    {i : ScopeId} {fs : List File} {p : Package} (h : p.Links m scopes n i (filesOf fs n))
    (hdistinct : DistinctNames fs) : p.files.values.flatMap File.imports = importsByName fs n := by
  rw [h.values_files hdistinct, List.flatMap_map]
  rfl

/-! ### Paths -/

namespace Package

variable (p : Package)

/-- Adds the path of an import of a package that has an object, if there is none yet. -/
def addPath (paths : NameMap String) (spec : ImportSpec) : NameMap String :=
  match spec.id? with
  | some id =>
    if p.imports.contains id then paths.insertNew id ((unquote? spec.path.text).getD "") else paths
  | none => paths

theorem lowerImports_eq :
    p.lowerImports = (p.files.values.flatMap File.imports).foldl p.addPath .empty := rfl

/-- One import adds its path at its id, and leaves every path that is there. -/
theorem find?_addPath (paths : NameMap String) (spec : ImportSpec) (key : String) :
    (p.addPath paths spec).find? key = (paths.find? key).or
      (if spec.id? = some key ∧ p.imports.contains key = true then unquote? spec.path.text
        else none) := by
  unfold addPath
  cases hid : spec.id? with
  | none => simp
  | some id =>
    obtain ⟨path, hpath, -⟩ := ImportSpec.id?_eq_some hid
    dsimp only
    rw [hpath, Option.getD_some]
    by_cases hkey : key = id
    · subst hkey
      by_cases hobject : p.imports.contains key = true
      · simp [hobject, NameMap.find?_insertNew]
      · simp [hobject]
    · -- an import of another package adds nothing at this key
      have hother : ¬ (some id = some key ∧ p.imports.contains key = true) :=
        fun h => hkey (Option.some.inj h.1).symm
      rw [if_neg hother]
      split
      · rw [NameMap.find?_insertNew, if_neg hkey]
      · rw [Option.or_none]

/-- Of the imports with one id, only the first adds its path. -/
theorem find?_addPaths (specs : List ImportSpec) (paths : NameMap String) {key : String}
    (hkey : p.imports.contains key = true) :
    (specs.foldl p.addPath paths).find? key = (paths.find? key).or
      ((specs.find? (·.id? = some key)).bind fun spec => unquote? spec.path.text) := by
  induction specs generalizing paths with
  | nil => simp
  | cons spec specs ih =>
    rw [List.foldl_cons, ih, find?_addPath, Option.or_assoc, List.find?_cons]
    by_cases hid : spec.id? = some key
    · obtain ⟨path, hpath, -⟩ := ImportSpec.id?_eq_some hid
      simp [hid, hkey, hpath]
    · simp [hid]

/-- Imports of packages without an object add no path. -/
theorem find?_addPaths_of_not (specs : List ImportSpec) (paths : NameMap String) {key : String}
    (hkey : ¬ p.imports.contains key = true) :
    (specs.foldl p.addPath paths).find? key = paths.find? key := by
  induction specs generalizing paths with
  | nil => rfl
  | cons spec specs ih =>
    rw [List.foldl_cons, ih, find?_addPath, if_neg fun h => hkey h.2, Option.or_none]

/-- The path of a package that has an object is that of the first import with its id. -/
theorem find?_lowerImports (key : String) :
    p.lowerImports.find? key = if p.imports.contains key then
      ((p.files.values.flatMap File.imports).find? (·.id? = some key)).bind fun spec =>
        unquote? spec.path.text
      else none := by
  rw [lowerImports_eq]
  split
  · next hkey => rw [p.find?_addPaths _ _ hkey, NameMap.find?_empty, Option.none_or]
  · next hkey => rw [p.find?_addPaths_of_not _ _ hkey, NameMap.find?_empty]

end Package

/-! ### Objects and paths -/

namespace Linked.Run

variable {files : FileSet} {t m : SymbolTable} {fs : List File} {scopes : NameMap ScopeId}
  {l : Linked} {n : String} {p : Package}

/-- A package that has an object is imported by some file, and is there. -/
theorem exists_import (h : l.Run files t fs scopes m) (hp : l.packages.find? n = some p)
    {key : String} (hkey : p.imports.contains key = true) :
    (∃ spec, (importsByName fs n).find? (·.id? = some key) = some spec) ∧
      key ∈ l.packages.keys := by
  obtain ⟨i, -, hlinks, -⟩ := h.links.packages hp
  obtain ⟨f, hf, spec, hspec, j, htarget⟩ := (hlinks.found key).1 hkey
  obtain ⟨id, hid, hscope⟩ := Option.bind_eq_some_iff.1 htarget
  obtain ⟨j', hj, heq⟩ := Option.map_eq_some_iff.1 hscope
  obtain ⟨rfl, rfl⟩ := Prod.mk.inj heq
  -- linking and lowering see the same imports, though not in the same order
  constructor
  · refine Option.isSome_iff_exists.1 (List.find?_isSome.2 ⟨spec, ?_, decide_eq_true hid⟩)
    exact List.mem_flatMap.2 ⟨f, mem_filesByName.2 hf, hspec⟩
  · rw [h.links.keys]
    exact NameMap.mem_keys.2 ⟨_, hj⟩

/-- The path of a package that has an object. -/
theorem find?_lowerImports (h : l.Run files t fs scopes m) (hdistinct : DistinctNames fs)
    (hp : l.packages.find? n = some p) {key : String} (hkey : p.imports.contains key = true) :
    ∃ spec path, (importsByName fs n).find? (·.id? = some key) = some spec ∧
      unquote? spec.path.text = some path ∧ IsLastSegment key.toList path.toList ∧
      p.lowerImports.find? key = some path := by
  obtain ⟨i, -, hlinks, -⟩ := h.links.packages hp
  obtain ⟨⟨spec, hspec⟩, -⟩ := h.exists_import hp hkey
  have hid : spec.id? = some key := by simpa using List.find?_some hspec
  obtain ⟨path, hpath, hlast⟩ := ImportSpec.id?_eq_some hid
  refine ⟨spec, path, hspec, hpath, hlast, ?_⟩
  rw [p.find?_lowerImports, if_pos hkey, hlinks.imports_files hdistinct, hspec, Option.bind_some,
    hpath]

/-- The packages with a path are those with an object. -/
theorem keys_lowerImports (h : l.Run files t fs scopes m) (hdistinct : DistinctNames fs)
    (hp : l.packages.find? n = some p) : p.lowerImports.keys = p.imports.keys := by
  refine NameMap.keys_eq fun key => ?_
  by_cases hkey : p.imports.contains key = true
  · obtain ⟨spec, path, -, -, -, hfind⟩ := h.find?_lowerImports hdistinct hp hkey
    rw [hfind]
    exact hkey.symm
  · rw [p.find?_lowerImports, if_neg hkey]
    exact (eq_false_of_ne_true hkey).symm

end Linked.Run

/-- Packages keep their names when they are lowered. -/
theorem compile_names (sources : List Source) :
    (compile sources).ir.packages.map (·.name) = (compile sources).packages.keys := by
  obtain ⟨scopes, m, hrun⟩ := linkSources_run sources
  exact List.map_map.trans hrun.package_names

/-- The packages that a lowered package imports are those for which linking has an object, and they are
all there.  The path of each is what the first import with its id spells, in the order of the names
of the files and within a file as written, and its last segment is the id. -/
theorem imports_agree (sources : List Source)
    (hdistinct : DistinctNames (parseSources sources).parsed) :
    (compile sources).ir.packages.map (·.name) = (compile sources).packages.keys ∧
    ∀ n p, (compile sources).packages.find? n = some p →
      ∀ q ∈ (compile sources).ir.packages, q.name = n →
        q.imports.keys = p.imports.keys ∧
        ∀ key ∈ q.imports.keys, key ∈ (compile sources).ir.packages.map (·.name) ∧
          ∃ spec path,
            (importsByName (parseSources sources).parsed n).find? (·.id? = some key) = some spec ∧
            unquote? spec.path.text = some path ∧ IsLastSegment key.toList path.toList ∧
            q.imports.find? key = some path := by
  refine ⟨compile_names sources, fun n p hp q hq hname => ?_⟩
  obtain ⟨scopes, m, hrun⟩ := linkSources_run sources
  obtain ⟨p', hp', rfl⟩ := List.mem_map.1 hq
  obtain ⟨n', hn'⟩ := NameMap.mem_values.1 hp'
  -- a package has the name under which it is kept, so there is one of this name
  obtain ⟨-, hname'⟩ := hrun.lower_mem hn'
  have hsame : n' = n := hname'.symm.trans hname
  subst hsame
  obtain rfl : p' = p := Option.some.inj (hn'.symm.trans hp)
  have hkeys := hrun.keys_lowerImports hdistinct hn'
  refine ⟨hkeys, fun key hkey => ?_⟩
  have hobject : p'.imports.contains key = true := by
    rw [NameMap.contains_eq_true, ← NameMap.mem_keys, ← hkeys]
    exact hkey
  refine ⟨?_, hrun.find?_lowerImports hdistinct hn' hobject⟩
  rw [compile_names]
  exact (hrun.exists_import hn' hobject).2

/-- Two files of a package, of which the second comes first by name.  Both import a package `q`, under
different paths, and what else they import is there under another name, in place, or not at all. -/
def importedTwice : List Source := [
  ⟨"z.mid", "package p\nimport x \"one/q\"\nimport . \"s\"\nimport \"two/q\"\n"⟩,
  ⟨"a.mid", "package p\nimport (\n  \"r/\"\n  _ \x60three/q\x60\n  \"t\"\n  \"\\q\"\n" ++
    "  \"lib/r\"\n)\n"⟩,
  ⟨"q.mid", "package q\n"⟩, ⟨"r.mid", "package r\n"⟩, ⟨"s.mid", "package s\nimport \"s\"\n"⟩]

theorem imports_agree_importedTwice :
    DistinctNames (parseSources importedTwice).parsed ∧
    (compile importedTwice).ir.packages.map (·.name) = ["p", "q", "r", "s"] ∧
    (filesOf (parseSources importedTwice).parsed "p").map (·.imports.map ImportSpec.id?) =
      [[some "q", some "s", some "q"], [none, some "q", some "t", none, some "r"]] ∧
    ∃ p, (compile importedTwice).packages.find? "p" = some p ∧
      ∃ q ∈ (compile importedTwice).ir.packages, q.name = "p" ∧
        q.imports.entries = [("q", "three/q"), ("r", "lib/r"), ("s", "s")] ∧
        q.imports.keys = p.imports.keys ∧
        ∀ key ∈ q.imports.keys, key ∈ (compile importedTwice).ir.packages.map (·.name) ∧
          ∃ spec path,
            (importsByName (parseSources importedTwice).parsed "p").find? (·.id? = some key) =
              some spec ∧
            unquote? spec.path.text = some path ∧ IsLastSegment key.toList path.toList ∧
            q.imports.find? key = some path := by
  have hdistinct : DistinctNames (parseSources importedTwice).parsed := by decide +kernel
  have hfound : ((compile importedTwice).packages.find? "p").isSome = true := by decide +kernel
  have hlowered : ∃ q ∈ (compile importedTwice).ir.packages, q.name = "p" ∧
      q.imports.entries = [("q", "three/q"), ("r", "lib/r"), ("s", "s")] := by decide +kernel
  obtain ⟨p, hp⟩ := Option.isSome_iff_exists.1 hfound
  obtain ⟨q, hq, hname, hentries⟩ := hlowered
  refine ⟨hdistinct, by decide +kernel, by decide +kernel, p, hp, q, hq, hname, hentries, ?_⟩
  exact (imports_agree importedTwice hdistinct).2 "p" p hp q hq hname

end Idl
