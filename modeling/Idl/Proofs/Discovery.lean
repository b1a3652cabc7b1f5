/-
Idl/Proofs/Discovery.lean

Each source of a project is found once.

The directories of a manifest lie below the root of the project, and a path below the root is known by
the names that lead to it from there: they are what its components add to those of the root, and what
the place it leads to adds to the place of the root (`Within`).  So paths that come from different
directories, however these are written, have the same components exactly if they lead to the same file,
and sorting keeps one path for each file.

Main result: the sources that are found, and their names (`sources_found_once`).  A name that is no text
ends the search, and so does a path that is too long (`search_ends_early`).
-/
import Idl.Proofs.Searches
import Mathlib.Data.List.Nodup

namespace Idl

open FileSystem (names)

/-! ### Sources -/

namespace FileSystem

/-- A directory to be searched: it does not lead out of the root, it is there, all names below it are texts
and no path of a directory there is too long. -/
structure Searchable (fs : FileSystem) (root : Path) (dir : String) : Prop where
  below : (Path.ofText dir).StaysBelow
  readable : fs.isSearchable (root.join (.ofText dir)) = true

/-- At the place there is a file with the extension of the sources, below one of the directories to be
searched. -/
structure IsSource (fs : FileSystem) (root : Path) (m : Manifest) (place : List String) : Prop where
  file : ∃ content, fs.tree.at? place = some (.file content)
  extension : place.getLast?.bind Path.extensionOf? = some m.suffix
  below : ∃ d ∈ m.sourceDirs, ∃ dir rest, fs.leadsTo? (root.join (.ofText d)) = some dir ∧
    rest ≠ [] ∧ place = dir ++ rest

/-- The paths lead to the sources, to each of them exactly once, and they come in increasing order. -/
structure Discovers (fs : FileSystem) (root : Path) (m : Manifest) (found : List Path) : Prop where
  increasing : found.Pairwise fun p q => p.components < q.components
  sources : ∀ p ∈ found, ∃ place, fs.leadsTo? p = some place ∧ fs.IsSource root m place
  once : ∀ place, fs.IsSource root m place → ∃! p, p ∈ found ∧ fs.leadsTo? p = some place

end FileSystem

/-! ### Below the root -/

/-- A path leads down the names from the root of a project, which is at the place `home`. -/
structure Within (fs : FileSystem) (root : Path) (home : List String) (p : Path)
    (ns : List String) : Prop where
  components : p.components = root.components ++ ns.map .name
  leads : fs.leadsTo? p = some (home ++ ns)
  written : ¬ p.IsEmpty
  slashless : ∀ piece ∈ p.pieces, Slashless piece

namespace Within

variable {fs : FileSystem} {root p q : Path} {home ns : List String}

/-- The root itself. -/
theorem here (hne : p.pieces ≠ []) (hne' : p.pieces ≠ [""])
    (hslash : ∀ piece ∈ p.pieces, Slashless piece) (h : fs.leadsTo? p = some home) :
    Within fs p home p [] :=
  ⟨(List.append_nil _).symm, by rw [h, List.append_nil], not_or.2 ⟨hne, hne'⟩, hslash⟩

/-- A path behind one leads further down its names. -/
theorem join (h : Within fs root home p ns) (hq : q.StaysBelow) (hne : q.pieces ≠ [])
    (hslash : ∀ piece ∈ q.pieces, Slashless piece) {found : List String}
    (hfollow : FileSystem.follow? fs.tree q.pieces (home ++ ns) = some found) :
    Within fs root home (p.join q) (ns ++ names q.pieces) := by
  obtain ⟨habsolute, hup⟩ := hq
  refine ⟨?_, ?_, Path.not_isEmpty_join h.written habsolute hne, fun piece hpiece => ?_⟩
  · rw [Path.components_join h.written habsolute hne, h.components,
      FileSystem.filterMap_ofPiece? hup, List.append_assoc, List.map_append]
  · rw [FileSystem.leadsTo?_join h.written habsolute hne, h.leads]
    refine hfollow.trans (congrArg some ?_)
    rw [FileSystem.follow?_eq_some hup hfollow, List.append_assoc]
  · -- a piece of the joined path is one of the first path or one of the second
    obtain ⟨first, rest, tail, hpieces, -, hjoin, -⟩ := Path.join_pieces h.written habsolute
    rw [hjoin, ← List.cons_append] at hpiece
    rcases List.mem_append.1 hpiece with hpiece | hpiece
    · refine h.slashless piece ?_
      rw [hpieces, ← List.cons_append]
      exact List.mem_append_left _ hpiece
    · exact hslash piece hpiece

/-- The name at the end of the path is that of the place. -/
theorem extension?_eq (h : Within fs root home p ns) (hne : ns ≠ []) :
    p.extension? = (home ++ ns).getLast?.bind Path.extensionOf? := by
  obtain ⟨front, last, rfl⟩ := (List.eq_nil_or_concat ns).resolve_left hne
  unfold Path.extension? Path.fileName?
  rw [h.components, List.concat_eq_append, List.map_append, ← List.append_assoc, ← List.append_assoc]
  simp

/-- The files below a directory of a project: each one has a path, under the names that lead to it. -/
theorem filesBelow (hproper : fs.tree.Proper) (h : Within fs root home p ns) {place : List String}
    {es : List (String × FileTree)} {nameless : List (ByteArray × FileTree)}
    (hplace : fs.leadsTo? p = some place)
    (hes : fs.tree.at? place = some (.directory es nameless)) :
    (∀ q ∈ FileSystem.filesBelow p es, ∃ rest, rest ≠ [] ∧ Within fs root home q (ns ++ rest) ∧
      ∃ content, fs.tree.at? (home ++ (ns ++ rest)) = some (.file content)) ∧
    ∀ rest content, fs.tree.at? (home ++ (ns ++ rest)) = some (.file content) →
      ∃ q ∈ FileSystem.filesBelow p es, Within fs root home q (ns ++ rest) := by
  obtain rfl : place = home ++ ns := Option.some.inj (hplace.symm.trans h.leads)
  have hplaces (rest : List String) := @FileTree.mem_places _ (hproper.at? hes) rest
  have hat (rest : List String) : fs.tree.at? (home ++ (ns ++ rest)) =
      (FileTree.directory es nameless).at? rest := by
    rw [← List.append_assoc, FileTree.at?_append, hes]
    rfl
  have hwithin {rest : List String} (hrest : rest ∈ FileTree.placesIn es) : rest ≠ [] ∧
      Within fs root home (p.join ⟨rest⟩) (ns ++ rest) ∧
      ∃ content, fs.tree.at? (home ++ (ns ++ rest)) = some (.file content) := by
    obtain ⟨content, hcontent⟩ := (hplaces rest).1.1 hrest
    have hnames := (hplaces rest).2 hrest
    have hfile : fs.tree.at? (home ++ ns ++ rest) = some (.file content) := by
      rw [List.append_assoc, hat, hcontent]
    obtain ⟨n, _, tail, -, -, rfl⟩ := FileTree.mem_placesIn.1 hrest
    have hbelow : (Path.mk (n :: tail)).StaysBelow := by
      refine ⟨?_, fun hup => (hnames _ hup).2.2.1 rfl⟩
      have hfirst : (n == "") = false := beq_false_of_ne (hnames n List.mem_cons_self).1
      simp [Path.isAbsolute, hfirst]
    have hfollow := FileSystem.follow?_names hnames (by rw [hfile]; rfl)
    have hjoin := h.join hbelow (List.cons_ne_nil _ _) (fun m hm => (hnames m hm).2.2.2) hfollow
    rw [FileSystem.names_eq_self hnames] at hjoin
    exact ⟨List.cons_ne_nil _ _, hjoin, content, hat _ ▸ hcontent⟩
  constructor
  · intro q hq
    obtain ⟨rest, hrest, rfl⟩ := List.mem_map.1 hq
    exact ⟨rest, hwithin hrest⟩
  · intro rest content hcontent
    have hrest : rest ∈ FileTree.placesIn es := (hplaces rest).1.2 ⟨content, hat rest ▸ hcontent⟩
    exact ⟨_, List.mem_map_of_mem hrest, (hwithin hrest).2.1⟩

/-- Names that lead to the same components are the same. -/
theorem names_inj {p' : Path} {ns' : List String} (h : Within fs root home p ns)
    (h' : Within fs root home p' ns') (heq : p.components = p'.components) : ns = ns' := by
  rw [h.components, h'.components, List.append_cancel_left_eq] at heq
  exact List.map_injective_iff.2 (fun _ _ => PathComponent.name.inj) heq

/-- The name of a source tells the components of its path. -/
theorem components_ofText (h : Within fs root home p ns) (hroot : root.components ≠ [])
    (hne : ns ≠ []) :
    (Path.ofText (Project.sourceName root p)).components = ns.map .name := by
  have hprefix : root.components.isPrefixOf p.components = true :=
    List.isPrefixOf_iff_prefix.2 ⟨_, h.components.symm⟩
  obtain ⟨q, hq⟩ : ∃ q, p.relativeTo? root = some q := ⟨_, if_pos hprefix⟩
  obtain ⟨hcomponents, hsub⟩ := Path.components_relativeTo? hroot hq
  rw [h.components, List.append_cancel_left_eq] at hcomponents
  have hpieces : q.pieces ≠ [] := by
    intro hnil
    refine hne (List.map_eq_nil_iff.1 (hcomponents.trans ?_))
    unfold Path.components Path.meanings
    rw [hnil]
    rfl
  unfold Project.sourceName
  rw [hq, Option.getD_some, Path.ofText_text hpieces fun piece hpiece =>
    h.slashless piece (hsub.subset hpiece), hcomponents]

end Within

/-! ### Finding the sources -/

namespace Project

variable {fs fs' : FileSystem} {order : Path → List (Option DirEntry) → List (Option DirEntry)}
  {root : Path}

/-- The search of one directory of a project. -/
def searchDirectory (h : Host (StateM FileSystem)) (suffix : String) (dir : Path) :
    Work (StateM FileSystem) (List Path) :=
  (collectSources h suffix dir).adapt (ProjectError.notSearched dir)

theorem searchDirectory_run (suffix : String) (dir : Path) :
    (searchDirectory (FileSystem.listing order) suffix dir).run fs =
      (((collectSources (FileSystem.listing order) suffix dir).run fs).1.mapError
        (ProjectError.notSearched dir), fs) := by
  have hrun : (searchDirectory (FileSystem.listing order) suffix dir).run fs =
      (((collectSources (FileSystem.listing order) suffix dir).run fs).1.mapError
        (ProjectError.notSearched dir),
        ((collectSources (FileSystem.listing order) suffix dir).run fs).2) := rfl
  rw [hrun, collectSources_keeps]

theorem searchDirectory_ok {suffix : String} {dir : Path} {files : List Path} :
    (searchDirectory (FileSystem.listing order) suffix dir).run fs = (.ok files, fs) ↔
      (collectSources (FileSystem.listing order) suffix dir).run fs = (.ok files, fs) := by
  have hkeep : ((collectSources (FileSystem.listing order) suffix dir).run fs).2 = fs :=
    collectSources_keeps dir
  rw [searchDirectory_run]
  rcases hrun : (collectSources (FileSystem.listing order) suffix dir).run fs with ⟨e | found, fs₁⟩
  · exact iff_of_false nofun nofun
  · obtain rfl : fs₁ = fs := by rw [← hkeep, hrun]
    exact ⟨fun h => by cases h; rfl, fun h => by cases h; rfl⟩

/-- Each directory is searched before anything is sorted. -/
theorem findSources_eq (h : Host (StateM FileSystem)) (root : Path) (m : Manifest) :
    findSources h root m =
      (m.sourceDirs.mapM fun d => searchDirectory h m.suffix (root.join (.ofText d))) >>=
        fun found => pure (Path.sortDistinct found.flatten) := rfl

/-- The sources are those below each directory, sorted, and each of them once. -/
theorem findSources_run {m : Manifest} {found : List Path} :
    (findSources (FileSystem.listing order) root m).run fs = (.ok found, fs') ↔
      fs' = fs ∧ ∃ collected : String → List Path,
        (∀ d ∈ m.sourceDirs, (collectSources (FileSystem.listing order) m.suffix
          (root.join (.ofText d))).run fs = (.ok (collected d), fs)) ∧
        found = Path.sortDistinct (m.sourceDirs.flatMap collected) := by
  have hkeep : ∀ d ∈ m.sourceDirs, ((searchDirectory (FileSystem.listing order) m.suffix
      (root.join (.ofText d))).run fs).2 = fs := fun d _ => by rw [searchDirectory_run]
  rw [findSources_eq, run_bind_ok]
  constructor
  · rintro ⟨lists, fs₁, hsearch, hfound⟩
    obtain ⟨rfl, collected, hall, rfl⟩ := (run_mapM_ok hkeep).1 hsearch
    cases hfound
    exact ⟨rfl, collected, fun d hd => searchDirectory_ok.1 (hall d hd), by rw [List.flatMap_def]⟩
  · rintro ⟨rfl, collected, hall, rfl⟩
    exact ⟨_, fs', run_mapM_map fun d hd => searchDirectory_ok.2 (hall d hd),
      by rw [List.flatMap_def]; rfl⟩

/-- The first directory that cannot be searched ends the work. -/
theorem findSources_run_error {m : Manifest} {d : String} {ds : List String} {fault : SearchFault}
    (hdirs : m.sourceDirs = d :: ds) (h : (collectSources (FileSystem.listing order) m.suffix
      (root.join (.ofText d))).run fs = (.error fault, fs)) :
    (findSources (FileSystem.listing order) root m).run fs =
      (.error (.notSearched (root.join (.ofText d)) fault), fs) := by
  have hdir : (searchDirectory (FileSystem.listing order) m.suffix (root.join (.ofText d))).run fs =
      (.error (.notSearched (root.join (.ofText d)) fault), fs) := by
    rw [searchDirectory_run, h]
    rfl
  rw [findSources_eq, hdirs, run_bind, run_mapM_error (x := d) hdir]
  rfl

section Found

variable {m : Manifest} {text : String} {collected : String → List Path}

/-- The directory at the path of a project is its root. -/
theorem within_root (h : fs.kind? (.ofText text) = some .directory) :
    ∃ home, Within fs (.ofText text) home (.ofText text) [] := by
  obtain ⟨t, ht, -⟩ := Option.map_eq_some_iff.1 h
  obtain ⟨hne, -, home, hhome, -⟩ := FileSystem.find?_eq_some.1 ht
  exact ⟨home, .here (Path.ofText_pieces_ne_nil text) hne
    (fun piece hpiece => Path.slashless_ofText hpiece) hhome⟩

/-- The directories to be searched lie below the root. -/
theorem within_dir {home : List String} (hroot : Within fs root home root []) {d : String}
    (hd : (Path.ofText d).StaysBelow) {dir : List String}
    (hdir : fs.leadsTo? (root.join (.ofText d)) = some dir) :
    Within fs root home (root.join (.ofText d)) (names (Path.ofText d).pieces) := by
  have hfollow : fs.leadsTo? (root.join (.ofText d)) = _ :=
    FileSystem.leadsTo?_join hroot.written hd.1 (Path.ofText_pieces_ne_nil d)
  rw [hdir, hroot.leads] at hfollow
  exact hroot.join hd (Path.ofText_pieces_ne_nil d) (fun piece hpiece => Path.slashless_ofText hpiece)
    hfollow.symm

section Lists

variable (hproper : fs.tree.Proper) (horder : ∀ p entries, (order p entries).Perm entries)
  {home : List String} (hroot : Within fs root home root [])

include hproper horder hroot

/-- What is collected from a directory to be searched: of the files below it, those with the suffix. -/
theorem collected_perm {d : String} (hd : (Path.ofText d).StaysBelow) {files : List Path}
    (h : (collectSources (FileSystem.listing order) m.suffix (root.join (.ofText d))).run fs =
      (.ok files, fs)) :
    ∃ es nameless, Within fs root home (root.join (.ofText d)) (names (Path.ofText d).pieces) ∧
      fs.tree.at? (home ++ names (Path.ofText d).pieces) = some (.directory es nameless) ∧
      files.Perm ((FileSystem.filesBelow (root.join (.ofText d)) es).filter fun q =>
        q.extension? == some m.suffix) := by
  have hwritten := Path.not_isEmpty_join hroot.written hd.1 (Path.ofText_pieces_ne_nil d)
  obtain ⟨place, es, nameless, hplace, hes, hperm⟩ :=
    collectSources_perm hproper horder hwritten h
  have hbelow := within_dir hroot hd hplace
  obtain rfl : place = home ++ names (Path.ofText d).pieces :=
    Option.some.inj (hplace.symm.trans hbelow.leads)
  exact ⟨es, nameless, hbelow, hes, hperm⟩

variable (hdirs : ∀ d ∈ m.sourceDirs, (Path.ofText d).StaysBelow)
  (hcollected : ∀ d ∈ m.sourceDirs, (collectSources (FileSystem.listing order) m.suffix
    (root.join (.ofText d))).run fs = (.ok (collected d), fs))

include hdirs hcollected

/-- What is found lies below the root, and is a source. -/
theorem found_within {p : Path} (hp : p ∈ m.sourceDirs.flatMap collected) :
    ∃ ns, ns ≠ [] ∧ Within fs root home p ns ∧ fs.IsSource root m (home ++ ns) := by
  obtain ⟨d, hd, hp⟩ := List.mem_flatMap.1 hp
  obtain ⟨es, nameless, hbelow, hes, hperm⟩ :=
    collected_perm hproper horder hroot (hdirs d hd) (hcollected d hd)
  obtain ⟨hp, hext⟩ := List.mem_filter.1 (hperm.mem_iff.1 hp)
  obtain ⟨rest, hrest, hwithin, hfile⟩ :=
    (hbelow.filesBelow hproper hbelow.leads hes).1 p hp
  have hne : names (Path.ofText d).pieces ++ rest ≠ [] := List.append_ne_nil_of_right_ne_nil _ hrest
  refine ⟨_, hne, hwithin, hfile, ?_, d, hd, _, rest, hbelow.leads, hrest,
    (List.append_assoc ..).symm⟩
  rw [← hwithin.extension?_eq hne]
  exact beq_iff_eq.1 hext

/-- Every source is found. -/
theorem source_found {place : List String} (h : fs.IsSource root m place) :
    ∃ ns, place = home ++ ns ∧ ∃ p ∈ m.sourceDirs.flatMap collected, Within fs root home p ns := by
  obtain ⟨⟨content, hfile⟩, hext, d, hd, dir, rest, hdir, hrest, rfl⟩ := h
  obtain ⟨es, nameless, hbelow, hes, hperm⟩ :=
    collected_perm hproper horder hroot (hdirs d hd) (hcollected d hd)
  obtain rfl : dir = home ++ names (Path.ofText d).pieces :=
    Option.some.inj (hdir.symm.trans hbelow.leads)
  rw [List.append_assoc] at hfile hext
  obtain ⟨p, hp, hwithin⟩ := (hbelow.filesBelow hproper hbelow.leads hes).2 rest content hfile
  refine ⟨_, List.append_assoc .., p, List.mem_flatMap.2 ⟨d, hd, hperm.mem_iff.2
    (List.mem_filter.2 ⟨hp, beq_iff_eq.2 ?_⟩)⟩, hwithin⟩
  rw [hwithin.extension?_eq (List.append_ne_nil_of_right_ne_nil _ hrest), hext]

end Lists

end Found

/-- No two paths in increasing order have the same components. -/
theorem nodup_components {found : List Path}
    (h : found.Pairwise fun p q => p.components < q.components) :
    (found.map Path.components).Nodup :=
  List.pairwise_map.2 (h.imp fun {p q} hlt heq => by
    rw [heq] at hlt
    exact List.lt_irrefl _ hlt)

/-- What is found are the sources. -/
theorem discovers (hproper : fs.tree.Proper) (horder : ∀ p entries, (order p entries).Perm entries)
    {text : String} (hkind : fs.kind? (.ofText text) = some .directory) {m : Manifest}
    (hdirs : ∀ d ∈ m.sourceDirs, (Path.ofText d).StaysBelow) {found : List Path}
    (hrun : (findSources (FileSystem.listing order) (.ofText text) m).run fs = (.ok found, fs')) :
    fs.Discovers (.ofText text) m found ∧
      (found.map (sourceName (.ofText text))).Nodup := by
  obtain ⟨rfl, collected, hcollected, rfl⟩ := findSources_run.1 hrun
  obtain ⟨home, hroot⟩ := within_root hkind
  obtain ⟨hincreasing, hsub, hall⟩ := Path.pairwise_sortDistinct (m.sourceDirs.flatMap collected)
  have hdistinct := nodup_components hincreasing
  have hwithin {p : Path} (hp : p ∈ Path.sortDistinct (m.sourceDirs.flatMap collected)) :=
    found_within hproper horder hroot hdirs hcollected (hsub p hp)
  refine ⟨⟨hincreasing, fun p hp => ?_, fun place hplace => ?_⟩, ?_⟩
  · obtain ⟨ns, -, hns, hsource⟩ := hwithin hp
    exact ⟨_, hns.leads, hsource⟩
  · -- the path that sorting keeps for a source has the components of the one that was collected
    obtain ⟨ns, rfl, p, hp, hns⟩ := source_found hproper horder hroot hdirs hcollected hplace
    obtain ⟨q, hq, heq⟩ := hall p hp
    obtain ⟨ns', -, hns', -⟩ := hwithin hq
    obtain rfl : ns' = ns := hns'.names_inj hns heq
    refine ⟨q, ⟨hq, hns'.leads⟩, fun q' ⟨hq', hleads⟩ => ?_⟩
    obtain ⟨ns, -, hns, -⟩ := hwithin hq'
    have hnames : ns = ns' :=
      List.append_cancel_left (Option.some.inj (hns.leads.symm.trans hleads))
    exact List.inj_on_of_nodup_map hdistinct hq' hq (by rw [hns.components, hns'.components, hnames])
  · -- the name of a source tells its components
    have hne := Path.components_ne_nil hroot.written
    refine List.Nodup.map_on (fun p hp q hq heq => ?_) (List.Nodup.of_map Path.components hdistinct)
    obtain ⟨ns, hnil, hns, -⟩ := hwithin hp
    obtain ⟨ns', hnil', hns', -⟩ := hwithin hq
    have hnames := (hns.components_ofText hne hnil).symm.trans
      (heq ▸ hns'.components_ofText hne hnil')
    exact List.inj_on_of_nodup_map hdistinct hp hq
        (by rw [hns.components, hns'.components, hnames])

/-! ### Reading them -/

/-- The paths of the sources: the file that the path of the project leads to, or those that are found. -/
def sourceFiles (h : Host (StateM FileSystem)) (root : Path) (manifest : Manifest) :
    Option Path → Work (StateM FileSystem) (List Path)
  | some file => pure [file]
  | none => findSources h root manifest

/-- The project of some sources, of which there has to be one. -/
def readSources (h : Host (StateM FileSystem)) (root : Path) (manifest : Manifest)
    (files : List Path) : Work (StateM FileSystem) Project := do
  if files.isEmpty then throw (.noSources manifest.suffix root)
  return ⟨root, manifest, ← files.mapM (readSource h root)⟩

/-- The steps of loading a project. -/
theorem load_eq (h : Host (StateM FileSystem)) (path : Path) :
    load h path = (do
      let (root, single) ← locate h path
      let manifest := (← findManifest h root).getD .unnamed
      let files ← sourceFiles h root manifest single
      readSources h root manifest files) := by
  unfold load
  refine congrArg (locate h path >>= ·) (funext fun ⟨root, single⟩ => ?_)
  refine congrArg (findManifest h root >>= ·) (funext fun manifest => ?_)
  cases single <;> rfl

theorem locate_run (path : Path) : (locate (FileSystem.listing order) path).run fs =
    (match fs.kind? path with
      | some .directory => .ok (path, none)
      | some .file => .ok (rootOfFile path, some path)
      | _ => .error (.missing path), fs) := by
  have hask : (FileSystem.listing order).kind? path fs = (fs.kind? path, fs) := rfl
  unfold locate
  rw [run_ask, hask]
  rcases fs.kind? path with - | (- | - | -) <;> rfl

/-- Looking for a manifest changes nothing. -/
theorem findManifest_keeps (root : Path) :
    ((findManifest (FileSystem.listing order) root).run fs).2 = fs := by
  have hask (p : Path) : (FileSystem.listing order).exists? p fs = (fs.exists? p, fs) := rfl
  have hask' (p : Path) : (FileSystem.listing order).readText? p fs = (fs.readText? p, fs) := rfl
  unfold findManifest
  rw [run_ask, hask]
  rcases fs.exists? (root.join manifestName) with - | (- | -)
  · rfl
  · rfl
  · refine (congrArg Prod.snd (run_ask _)).trans ?_
    rw [hask']
    rcases fs.readText? (root.join manifestName) with - | text
    · rfl
    · cases hparse : Manifest.parse text with
      | ok manifest => simp only [hparse]; rfl
      | error fault => simp only [hparse]; rfl

theorem readSource_run (root file : Path) :
    (readSource (FileSystem.listing order) root file).run fs =
      (match fs.readText? file with
        | some text => .ok ⟨sourceName root file, text⟩
        | none => .error (.notRead file), fs) := by
  have hask : (FileSystem.listing order).readText? file fs = (fs.readText? file, fs) := rfl
  unfold readSource
  rw [run_ask, hask]
  cases fs.readText? file <;> rfl

/-- The sources are named by their paths. -/
theorem readSources_ok {m : Manifest} {files : List Path} {p : Project}
    (hrun : (readSources (FileSystem.listing order) root m files).run fs = (.ok p, fs')) :
    p.manifest = m ∧ p.sources.map (·.name) = files.map (sourceName root) := by
  unfold readSources at hrun
  split at hrun
  · cases hrun
  · obtain ⟨sources, fs₁, hsources, hrun⟩ := run_bind_ok.1 hrun
    cases hrun
    refine ⟨rfl, ?_⟩
    have : Nonempty Source := ⟨⟨"", ""⟩⟩
    obtain ⟨-, read, hall, rfl⟩ := (run_mapM_ok fun f _ => by rw [readSource_run]).1 hsources
    rw [List.map_map]
    refine List.map_congr_left fun f hf => ?_
    have hread := congrArg Prod.fst ((readSource_run root f).symm.trans (hall f hf))
    cases htext : fs.readText? f with
    | none => rw [htext] at hread; cases hread
    | some text =>
      rw [htext] at hread
      exact congrArg Source.name (Except.ok.inj hread).symm

/-- The names of the sources of a project are distinct. -/
theorem load_names (hproper : fs.tree.Proper) (horder : ∀ p entries, (order p entries).Perm entries)
    {text : String} {p : Project}
    (hrun : (load (FileSystem.listing order) (.ofText text)).run fs = (.ok p, fs'))
    (hdirs : ∀ d ∈ p.manifest.sourceDirs, (Path.ofText d).StaysBelow) :
    (p.sources.map (·.name)).Nodup := by
  rw [load_eq] at hrun
  obtain ⟨⟨root, single⟩, fs₁, hlocate, hrun⟩ := run_bind_ok.1 hrun
  obtain ⟨manifest, fs₂, hmanifest, hrun⟩ := run_bind_ok.1 hrun
  obtain ⟨files, fs₃, hfiles, hsources⟩ := run_bind_ok.1 hrun
  obtain ⟨hm, hnames⟩ := readSources_ok hsources
  have hkeep := congrArg Prod.snd hmanifest
  rw [findManifest_keeps] at hkeep
  obtain rfl : fs₁ = fs₂ := hkeep
  rw [locate_run] at hlocate
  rw [hnames]
  cases single with
  | some file =>
    -- a file is a project of one source
    cases hfiles
    exact List.nodup_singleton _
  | none =>
    obtain ⟨hkind, rfl, rfl⟩ : fs.kind? (.ofText text) = some .directory ∧
        .ofText text = root ∧ fs = fs₁ := by
      rcases hkind : fs.kind? (.ofText text) with - | (- | - | -) <;> rw [hkind] at hlocate <;>
        cases hlocate
      exact ⟨rfl, rfl, rfl⟩
    exact (discovers hproper horder hkind (hm ▸ hdirs) hfiles).2

/-- The sources of a project are found once each.  In a proper tree, for a root that leads to a directory
and directories that stay below it and can be searched, in whatever order the entries of directories are
listed: the paths that are found lead to the files below one of the directories that have the extension
of the sources, each file is found exactly once, and the paths come in increasing order.  So no two
sources of a project that is loaded have the same name. -/
theorem sources_found_once {fs : FileSystem}
    {order : Path → List (Option DirEntry) → List (Option DirEntry)}
    (hproper : fs.tree.Proper) (horder : ∀ p entries, (order p entries).Perm entries)
    (text : String) :
    (∀ m : Manifest, fs.kind? (.ofText text) = some .directory →
      (∀ d ∈ m.sourceDirs, fs.Searchable (.ofText text) d) →
      ∃ found, (findSources (FileSystem.listing order) (.ofText text) m).run fs = (.ok found, fs) ∧
        fs.Discovers (.ofText text) m found) ∧
    ∀ p fs', (load (FileSystem.listing order) (.ofText text)).run fs = (.ok p, fs') →
      (∀ d ∈ p.manifest.sourceDirs, (Path.ofText d).StaysBelow) → (p.sources.map (·.name)).Nodup := by
  refine ⟨fun m hkind hdirs => ?_, fun p fs' hrun hdirs => load_names hproper horder hrun hdirs⟩
  obtain ⟨home, hroot⟩ := within_root hkind
  -- a directory that is not searched may be given anything
  have hsearch (d : String) : ∃ files, d ∈ m.sourceDirs → (collectSources (FileSystem.listing order)
      m.suffix (Path.join (.ofText text) (.ofText d))).run fs = (.ok files, fs) := by
    by_cases hd : d ∈ m.sourceDirs
    · obtain ⟨hbelow, hreadable⟩ := hdirs d hd
      have hwritten := Path.not_isEmpty_join hroot.written hbelow.1 (Path.ofText_pieces_ne_nil d)
      obtain ⟨files, hrun⟩ := collectSources_ok hproper horder hwritten hreadable
      exact ⟨files, fun _ => hrun⟩
    · exact ⟨[], fun h => absurd h hd⟩
  choose collected hcollected using hsearch
  have hrun := findSources_run.2 ⟨rfl, collected, hcollected, rfl⟩
  exact ⟨_, hrun, (discovers hproper horder hkind (fun d hd => (hdirs d hd).below) hrun).1⟩

/-- A project with two directories, one of which lies in the other. -/
def shop : FileSystem where
  workingDir := []
  tree := .directory [("shop", .directory
    [("mid.toml", .file "project=[\"\",[\".\",\"src\"]]".toUTF8),
      ("src", .directory [("item.mid", .file ⟨#[]⟩), ("readme", .file ⟨#[]⟩)] []),
      ("pipe.mid", .other), ("all.mid", .file ⟨#[]⟩)] [])] []

/-- The settings of the project. -/
def shopManifest : Manifest := { name := "", sourceDirs := [".", "src"] }

/-- Directories are listed from their end. -/
def backwards (_ : Path) (entries : List (Option DirEntry)) : List (Option DirEntry) :=
  entries.reverse

theorem findSources_shop :
    (findSources (FileSystem.listing backwards) (.ofText "shop") shopManifest).run shop =
      (.ok [⟨["shop", ".", "all.mid"]⟩, ⟨["shop", ".", "src", "item.mid"]⟩], shop) := by
  let collected (d : String) : List Path :=
    if d = "." then [⟨["shop", ".", "all.mid"]⟩, ⟨["shop", ".", "src", "item.mid"]⟩]
    else [⟨["shop", "src", "item.mid"]⟩]
  refine findSources_run.2 ⟨rfl, collected, fun d hd => Prod.ext ?_ (collectSources_keeps _), ?_⟩
  · revert d
    simp only [Path.ofText_eq]
    decide +kernel
  · -- the sort is not evaluated: what was collected is in order as it is
    have hsorted : List.Pairwise (fun p q => Path.le p q = true) [⟨["shop", ".", "all.mid"]⟩,
        ⟨["shop", ".", "src", "item.mid"]⟩, ⟨["shop", "src", "item.mid"]⟩] := by decide +kernel
    show _ = Path.distinct (List.mergeSort [⟨["shop", ".", "all.mid"]⟩,
      ⟨["shop", ".", "src", "item.mid"]⟩, ⟨["shop", "src", "item.mid"]⟩] Path.le)
    rw [List.mergeSort_of_pairwise hsorted, Path.distinct, if_neg (by decide +kernel), Path.distinct,
      if_pos (by decide +kernel), Path.distinct]

theorem kind?_shop : shop.kind? (.ofText "shop") = some .directory := by
  rw [Path.ofText_eq]
  decide +kernel

theorem load_shop : (load (FileSystem.listing backwards) (.ofText "shop")).run shop =
    (.ok ⟨.ofText "shop", shopManifest, [⟨"all.mid", ""⟩, ⟨"src/item.mid", ""⟩]⟩, shop) := by
  have hmanifest : (findManifest (FileSystem.listing backwards) (.ofText "shop")).run shop =
      (.ok (some shopManifest), shop) := by
    have hpath : Path.join (.ofText "shop") manifestName = ⟨["shop", "mid.toml"]⟩ := by
      unfold manifestName
      rw [Path.ofText_eq, Path.ofText_eq]
      decide +kernel
    have hexists : shop.exists? ⟨["shop", "mid.toml"]⟩ = some true := by decide +kernel
    have htext : shop.readText? ⟨["shop", "mid.toml"]⟩ =
        some "project=[\"\",[\".\",\"src\"]]" := by decide +kernel
    have hparse : Manifest.parse "project=[\"\",[\".\",\"src\"]]" = .ok shopManifest := by
      decide +kernel
    simp only [findManifest, hpath, run_ask, FileSystem.listing, FileSystem.host, hexists, htext,
      hparse]
    rfl
  have hread (file : Path) (htext : shop.readText? file = some "") :
      (readSource (FileSystem.listing backwards) (.ofText "shop") file).run shop =
        (.ok ⟨sourceName (.ofText "shop") file, ""⟩, shop) := by
    rw [readSource_run, htext]
  have hall : sourceName (.ofText "shop") ⟨["shop", ".", "all.mid"]⟩ = "all.mid" := by
    rw [Path.ofText_eq]
    decide +kernel
  have hitem : sourceName (.ofText "shop") ⟨["shop", ".", "src", "item.mid"]⟩ = "src/item.mid" := by
    rw [Path.ofText_eq]
    decide +kernel
  rw [load_eq]
  refine run_bind_ok.2 ⟨_, _, by rw [locate_run, kind?_shop], ?_⟩
  refine run_bind_ok.2 ⟨_, _, hmanifest, run_bind_ok.2 ⟨_, _, findSources_shop, ?_⟩⟩
  unfold readSources
  rw [if_neg (by decide)]
  refine run_bind_ok.2 ⟨_, _,
    run_mapM_map (g := fun f => ⟨sourceName (.ofText "shop") f, ""⟩) ?_, ?_⟩
  · exact List.forall_mem_cons.2 ⟨hread _ (by decide +kernel),
      List.forall_mem_singleton.2 (hread _ (by decide +kernel))⟩
  · rw [List.map_cons, List.map_singleton, hall, hitem]
    rfl

/-- The file that both directories lead to is found once, and so is the other one. -/
theorem sources_found_once_shop : shop.tree.Proper ∧
    (∃ found, (findSources (FileSystem.listing backwards) (.ofText "shop") shopManifest).run shop =
      (.ok found, shop) ∧ shop.Discovers (.ofText "shop") shopManifest found) ∧
    ∃ p, (load (FileSystem.listing backwards) (.ofText "shop")).run shop = (.ok p, shop) ∧
      (p.sources.map (·.name)).Nodup := by
  have hproper : shop.tree.Proper := by
    simp [shop, FileTree.Proper, FileTree.ProperEntries, IsEntryName, Slashless]
  have hbelow : ∀ d ∈ shopManifest.sourceDirs, (Path.ofText d).StaysBelow := by
    simp only [Path.ofText_eq, Path.StaysBelow]
    decide +kernel
  have hreadable : ∀ d ∈ shopManifest.sourceDirs,
      shop.isSearchable (Path.join (.ofText "shop") (.ofText d)) = true := by
    simp only [Path.ofText_eq]
    decide +kernel
  have horder : ∀ p entries, (backwards p entries).Perm entries :=
    fun _ entries => entries.reverse_perm
  have h := sources_found_once hproper horder "shop"
  exact ⟨hproper, h.1 shopManifest kind?_shop fun d hd => ⟨hbelow d hd, hreadable d hd⟩, _, load_shop,
    h.2 _ shop load_shop hbelow⟩

/-! ### Searches that end early -/

/-- A project with a file whose name is no text. -/
def attic : FileSystem where
  workingDir := []
  tree := .directory
    [("attic", .directory [("all.mid", .file ⟨#[]⟩)] [(⟨#[0xFF]⟩, .file ⟨#[]⟩)])] []

/-- Work starts in a directory that has another one in it. -/
def cellar : FileSystem where
  workingDir := []
  tree := .directory [("below", .directory [] [])] []

/-- The path of some dots, which stays where it starts. -/
def dots (n : Nat) : Path := ⟨List.replicate n "."⟩

theorem isAbsolute_dots (n : Nat) : (dots n).isAbsolute = false := by
  unfold Path.isAbsolute dots
  rw [List.head?_replicate]
  split
  · rfl
  · exact Bool.and_eq_false_imp.2 fun h => by cases h

theorem dots_join (n : Nat) {q : Path} (hq : q.isAbsolute = false) :
    (dots n).join q = ⟨List.replicate n "." ++ q.pieces⟩ := by
  have hlast : (List.replicate n ".").getLast? ≠ some "" := by
    rw [List.getLast?_replicate]
    split <;> decide
  rw [Path.join_relative _ hq]
  unfold dots
  dsimp only
  rw [if_neg hlast]

theorem pieceBytes_dots (n : Nat) : (dots n).pieceBytes = n := by
  unfold Path.pieceBytes dots
  induction n with
  | zero => rfl
  | succ n ih =>
    have hdot : ".".utf8ByteSize = 1 := rfl
    rw [List.replicate_succ, String.join_cons, String.utf8ByteSize_append, hdot, ih, Nat.add_comm]

theorem utf8ByteSize_dots (n : Nat) : (dots (n + 1)).text.utf8ByteSize = 2 * n + 1 := by
  have hsize := Path.utf8ByteSize_text (p := dots (n + 1)) (List.cons_ne_nil _ _)
  have hlength : (dots (n + 1)).pieces.length = n + 1 := List.length_replicate
  rw [pieceBytes_dots, hlength] at hsize
  omega

theorem utf8ByteSize_dots_join (n : Nat) (name : String) :
    ((dots n).join ⟨[name]⟩).text.utf8ByteSize = 2 * n + name.utf8ByteSize := by
  have hjoin := dots_join n (q := ⟨[name]⟩) (by simp [Path.isAbsolute])
  have hlength : ((dots n).join ⟨[name]⟩).pieces.length = n + 1 := by
    rw [hjoin, List.length_append, List.length_replicate]
    rfl
  have hsize := Path.utf8ByteSize_text (p := (dots n).join ⟨[name]⟩) (by rw [hjoin]; simp)
  rw [Path.pieceBytes_join, pieceBytes_dots, hlength] at hsize
  omega

theorem ofText_dots (n : Nat) : Path.ofText (dots (n + 1)).text = dots (n + 1) :=
  Path.ofText_text (List.cons_ne_nil _ _) fun piece hpiece => by
    rw [List.eq_of_mem_replicate hpiece, Slashless]
    decide

theorem ofText_dot : Path.ofText "." = ⟨["."]⟩ := by
  rw [Path.ofText_eq]
  decide

theorem join_dots (n : Nat) : (dots n).join (.ofText ".") = dots (n + 1) := by
  rw [ofText_dot, dots_join n rfl, ← List.replicate_succ']
  rfl

theorem leadsTo?_dots (n : Nat) : cellar.leadsTo? (dots n) = some [] := by
  have hstart : cellar.start (dots n) = [] := by
    unfold FileSystem.start
    rw [isAbsolute_dots]
    rfl
  unfold FileSystem.leadsTo? dots
  rw [show cellar.start ⟨List.replicate n "."⟩ = [] from hstart]
  dsimp only
  clear hstart
  induction n with
  | zero => rfl
  | succ n ih =>
    rw [List.replicate_succ, FileSystem.follow?_cons]
    exact ih

theorem find?_dots {n : Nat} (hn : n ≤ 2047) : cellar.find? (dots (n + 1)) = some cellar.tree := by
  refine FileSystem.find?_eq_some.2 ⟨?_, ?_, [], leadsTo?_dots _, rfl⟩
  · exact fun h => absurd (List.cons.inj h).1 (by decide)
  · unfold FileSystem.isPossiblePath
    rw [utf8ByteSize_dots]
    exact decide_eq_true (by omega)

theorem kind?_dots {n : Nat} (hn : n ≤ 2047) : cellar.kind? (dots (n + 1)) = some .directory := by
  unfold FileSystem.kind?
  rw [find?_dots hn]
  rfl

/-- The path of the directory below is too long. -/
theorem collectSources_dots :
    (collectSources (FileSystem.listing backwards) "mid" (dots 2047)).run cellar =
      (.error (.notRead ((dots 2047).join ⟨["below"]⟩)), cellar) := by
  have hlong : ¬ FileSystem.isPossiblePath ((dots 2047).join ⟨["below"]⟩) = true := by
    unfold FileSystem.isPossiblePath
    rw [utf8ByteSize_dots_join]
    decide
  refine collectSources_run_error
    (FileSystem.entries?_eq_some.2 ⟨_, _, find?_dots (by omega), rfl⟩) rfl ?_
  show (collectSources (FileSystem.listing backwards) "mid"
    ((dots 2047).join ⟨["below"]⟩)).run cellar = _
  rw [collectSources, dif_neg hlong]
  rfl

/-- Names that are no texts, and paths that are too long, end the search of directories that are there.  The
one project has a source, and the name of another file in it is no text; the other one is reached by a
path so long that the path of a directory below it exceeds what the system allows. -/
theorem search_ends_early :
    (attic.tree.Proper ∧ attic.kind? (.ofText "attic") = some .directory ∧
      (∀ d ∈ Manifest.unnamed.sourceDirs, (Path.ofText d).StaysBelow ∧
        attic.kind? (Path.join (.ofText "attic") (.ofText d)) = some .directory) ∧
      attic.IsSource (.ofText "attic") .unnamed ["attic", "all.mid"] ∧
      (findSources (FileSystem.listing backwards) (.ofText "attic") .unnamed).run attic =
        (.error (.notSearched ⟨["attic", "."]⟩ .nameless), attic)) ∧
    cellar.tree.Proper ∧ cellar.kind? (.ofText (dots 2046).text) = some .directory ∧
      (∀ d ∈ Manifest.unnamed.sourceDirs, (Path.ofText d).StaysBelow ∧
        cellar.kind? (Path.join (.ofText (dots 2046).text) (.ofText d)) = some .directory) ∧
      (findSources (FileSystem.listing backwards) (.ofText (dots 2046).text) .unnamed).run cellar =
        (.error (.notSearched (dots 2047) (.notRead ((dots 2047).join ⟨["below"]⟩))), cellar) := by
  have hattic : Path.ofText "attic" = ⟨["attic"]⟩ := by
    rw [Path.ofText_eq]
    decide
  have hstays : (Path.ofText ".").StaysBelow := by
    rw [ofText_dot, Path.StaysBelow]
    decide
  have hdirs {P : String → Prop} (h : P ".") : ∀ d ∈ Manifest.unnamed.sourceDirs, P d :=
    List.forall_mem_singleton.2 h
  constructor
  · have hdir : (Path.mk ["attic"]).join (.ofText ".") = ⟨["attic", "."]⟩ := by
      rw [ofText_dot]
      decide
    have hsearch : (collectSources (FileSystem.listing backwards) "mid" ⟨["attic", "."]⟩).run attic =
        (.error .nameless, attic) := collectSources_run_error rfl rfl rfl
    rw [hattic]
    refine ⟨?_, rfl, hdirs ⟨hstays, by rw [hdir]; rfl⟩, ⟨⟨⟨#[]⟩, rfl⟩, by decide, ".", ?_, ?_⟩, ?_⟩
    · simp [attic, FileTree.Proper, FileTree.ProperEntries, IsEntryName, Slashless]
    · exact List.mem_singleton_self "."
    · exact ⟨["attic"], ["all.mid"], by rw [hdir]; rfl, by decide, rfl⟩
    · rw [← hdir] at hsearch
      rw [findSources_run_error rfl hsearch, hdir]
  · rw [ofText_dots]
    refine ⟨?_, kind?_dots (by omega), hdirs ⟨hstays, ?_⟩, ?_⟩
    · simp [cellar, FileTree.Proper, FileTree.ProperEntries, IsEntryName, Slashless]
    · rw [join_dots]
      exact kind?_dots (by omega)
    · have hsearch := collectSources_dots
      rw [← join_dots] at hsearch
      rw [findSources_run_error rfl hsearch, join_dots]

end Project

end Idl
