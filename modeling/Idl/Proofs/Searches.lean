/-
Idl/Proofs/Searches.lean

What the search of a directory finds.

A search asks for the entries of one directory after the other, each of which may be listed in any order
(`FileSystem.listing`), and goes on below those that are directories.  It changes nothing
(`Project.collectSources_keeps`).  If it comes to its end, it has collected the files with the suffix
below the directory, each under the names that lead to it, once and in some order
(`Project.collectSources_perm`).  And it does come to its end where all names are texts and no path on
the way is too long (`Project.collectSources_ok`).
-/
import Idl.Proofs.FileTrees
import Idl.Proofs.Work
import Mathlib.Data.List.Perm.Basic

namespace Idl

/-! ### Listing directories -/

namespace FileSystem

variable {fs : FileSystem} {p : Path}

theorem find?_eq_some {t : FileTree} : fs.find? p = some t ↔
    p.pieces ≠ [""] ∧ isPossiblePath p = true ∧
      ∃ place, fs.leadsTo? p = some place ∧ fs.tree.at? place = some t := by
  unfold find? resolve?
  by_cases hpath : p.pieces = [""] ∨ !isPossiblePath p
  · rw [if_pos hpath]
    refine iff_of_false nofun ?_
    rintro ⟨hempty, hpossible, -⟩
    rcases hpath with h | h
    · exact hempty h
    · rw [hpossible] at h
      cases h
  · obtain ⟨hempty, hpossible⟩ := not_or.1 hpath
    rw [if_neg hpath, Option.bind_eq_some_iff]
    rw [Bool.not_eq_true', Bool.not_eq_false] at hpossible
    exact ⟨fun h => ⟨hempty, hpossible, h⟩, fun h => h.2.2⟩

/-- Only directories are listed. -/
theorem entries?_eq_some {entries : List (Option DirEntry)} :
    fs.entries? p = some entries ↔ ∃ es nameless,
      fs.find? p = some (.directory es nameless) ∧
        entries = es.map (fun e => some ⟨EntryName.ofText? e.1, kindOfEntry e.2⟩) ++
          nameless.map fun e => some ⟨none, kindOfEntry e.2⟩ := by
  unfold entries?
  rcases fs.find? p with - | (content | - | ⟨es, nameless⟩)
  · simp
  · simp
  · simp
  · simp [eq_comm]

/-- The host whose files are held in memory, and which lists the entries of directories in some
order. -/
def listing (order : Path → List (Option DirEntry) → List (Option DirEntry)) :
    Host (StateM FileSystem) :=
  { host with entries? := fun p fs => ((fs.entries? p).map (order p), fs) }

/-- Whether a path leads to a directory that can be searched: below it all names are texts, and the
paths of directories are not too long. -/
def isSearchable (fs : FileSystem) (p : Path) : Bool :=
  match fs.find? p with
  | some (.directory es nameless) => (FileTree.directory es nameless).isNamed &&
    (FileTree.directoriesIn es).all fun rest => isPossiblePath (p.join ⟨rest⟩)
  | _ => false

theorem isSearchable_iff : fs.isSearchable p = true ↔ ∃ es,
    fs.find? p = some (.directory es []) ∧ FileTree.areNamed es = true ∧
      ∀ rest ∈ FileTree.directoriesIn es, isPossiblePath (p.join ⟨rest⟩) = true := by
  unfold isSearchable
  rcases fs.find? p with - | (content | - | ⟨es, nameless⟩)
  case some.directory =>
    simp only [FileTree.isNamed, Bool.and_eq_true, List.isEmpty_iff, List.all_eq_true]
    constructor
    · rintro ⟨⟨rfl, hnamed⟩, hpaths⟩
      exact ⟨es, rfl, hnamed, hpaths⟩
    · rintro ⟨es', heq, hnamed, hpaths⟩
      obtain ⟨rfl, rfl⟩ := FileTree.directory.inj (Option.some.inj heq)
      exact ⟨⟨rfl, hnamed⟩, hpaths⟩
  all_goals exact iff_of_false Bool.false_ne_true (by rintro ⟨es, heq, -⟩; cases heq)

/-- The paths of the files below a directory. -/
def filesBelow (p : Path) (es : List (String × FileTree)) : List Path :=
  (FileTree.placesIn es).map fun rest => p.join ⟨rest⟩

end FileSystem

/-! ### Names behind a path -/

namespace Path

/-- A relative path goes behind the last piece that is not empty. -/
theorem join_relative (p : Path) {q : Path} (hq : q.isAbsolute = false) :
    p.join q = ⟨(if p.pieces.getLast? = some "" then p.pieces.dropLast else p.pieces) ++ q.pieces⟩ := by
  unfold join
  rw [hq, if_neg Bool.false_ne_true]
  split <;> rfl

/-- One name after the other behind a path. -/
theorem join_join (p : Path) {n : String} (hn : n ≠ "") {rest : List String}
    (hrest : rest.head? ≠ some "") : (p.join ⟨[n]⟩).join ⟨rest⟩ = p.join ⟨n :: rest⟩ := by
  have hname : isAbsolute ⟨[n]⟩ = false := by simp [isAbsolute]
  have hbehind : isAbsolute ⟨rest⟩ = false := by simp [isAbsolute, hrest]
  have hboth : isAbsolute ⟨n :: rest⟩ = false := by simp [isAbsolute, hn]
  rw [join_relative p hname, join_relative p hboth, join_relative _ hbehind]
  simp [hn]

end Path

namespace Project

variable {fs fs' : FileSystem} {order : Path → List (Option DirEntry) → List (Option DirEntry)}
  {suffix : String} {p : Path}

/-- What the search makes of an entry of a directory. -/
def collectEntry {m : Type → Type} [Monad m] (h : Host m) (suffix : String) (directory : Path) :
    Option DirEntry → ExceptT SearchFault m (List Path)
  | none => throw (.entryNotRead directory)
  | some ⟨_, .link⟩ => return []
  | some ⟨none, _⟩ => throw .nameless
  | some ⟨some name, .directory⟩ => collectSources h suffix (directory.join ⟨[name.text]⟩)
  | some ⟨some name, .file⟩ =>
    return [directory.join ⟨[name.text]⟩].filter fun p => p.extension? == some suffix
  | some ⟨some _, .other⟩ => return []

/-- A search looks at one entry after the other. -/
theorem collectSources_run (p : Path) :
    (collectSources (FileSystem.listing order) suffix p).run fs =
      match fs.entries? p with
      | none => (.error (.notRead p), fs)
      | some entries => ((order p entries).mapM
          (collectEntry (FileSystem.listing order) suffix p) >>= fun found =>
            pure found.flatten : ExceptT SearchFault (StateM FileSystem) (List Path)).run fs := by
  rw [collectSources]
  split
  · next hpath =>
    have hask : (FileSystem.listing order).entries? p fs = ((fs.entries? p).map (order p), fs) := rfl
    rw [run_ask, hask]
    cases fs.entries? p with
    | none => rfl
    | some entries =>
      -- the search names no step for an entry, so the two sides differ in the function that is mapped
      refine congrArg (fun f => (List.mapM f (order p entries) >>= fun found =>
        pure found.flatten : ExceptT SearchFault (StateM FileSystem) (List Path)).run fs) ?_
      funext entry
      rcases entry with - | ⟨- | name, - | - | - | -⟩ <;> rfl
  · next hpath =>
    -- a path that is too long leads nowhere
    have hnone : fs.entries? p = none := by
      cases hentries : fs.entries? p with
      | none => rfl
      | some entries =>
        obtain ⟨es, nameless, hfind, -⟩ := FileSystem.entries?_eq_some.1 hentries
        exact absurd (FileSystem.find?_eq_some.1 hfind).2.1 hpath
    rw [hnone]
    rfl

/-- A search changes nothing. -/
theorem collectSources_keeps (p : Path) :
    ((collectSources (FileSystem.listing order) suffix p).run fs).2 = fs := by
  induction p using collectSources.induct with
  | case1 p hpath ih =>
    rw [collectSources_run]
    cases fs.entries? p with
    | none => rfl
    | some entries =>
      have hkeep : (((order p entries).mapM
          (collectEntry (FileSystem.listing order) suffix p)).run fs).2 = fs := by
        refine run_mapM_keeps fun entry _ => ?_
        rcases entry with - | ⟨- | name, - | - | - | -⟩
        case some.some.directory => exact ih name
        all_goals rfl
      dsimp only
      rw [run_bind]
      rcases hrun : ((order p entries).mapM
        (collectEntry (FileSystem.listing order) suffix p)).run fs with ⟨e | found, fs₁⟩
      · rw [hrun] at hkeep
        exact hkeep
      · rw [hrun] at hkeep
        exact hkeep
  | case2 p hpath =>
    rw [collectSources, dif_neg hpath]
    rfl

theorem collectEntry_keeps (p : Path) (entry : Option DirEntry) :
    ((collectEntry (FileSystem.listing order) suffix p entry).run fs).2 = fs := by
  rcases entry with - | ⟨- | name, - | - | - | -⟩
  case some.some.directory => exact collectSources_keeps _
  all_goals rfl

/-- The entries of a directory as a listing tells them, before they are put in any order. -/
def listed (es : List (String × FileTree)) (nameless : List (ByteArray × FileTree)) :
    List (Option DirEntry) :=
  es.map (fun e => some ⟨EntryName.ofText? e.1, FileSystem.kindOfEntry e.2⟩) ++
    nameless.map fun e => some ⟨none, FileSystem.kindOfEntry e.2⟩

/-- A search comes to its end if it does so at each entry of the directory, and has then collected what
was found at these. -/
theorem collectSources_run_ok {files : List Path} :
    (collectSources (FileSystem.listing order) suffix p).run fs = (.ok files, fs') ↔
      fs' = fs ∧ ∃ (es : List (String × FileTree)) (nameless : List (ByteArray × FileTree))
        (found : Option DirEntry → List Path), fs.find? p = some (.directory es nameless) ∧
        (∀ entry ∈ order p (listed es nameless),
          (collectEntry (FileSystem.listing order) suffix p entry).run fs = (.ok (found entry), fs)) ∧
        files = (order p (listed es nameless)).flatMap found := by
  rw [collectSources_run]
  cases hentries : fs.entries? p with
  | none =>
    refine iff_of_false nofun ?_
    rintro ⟨-, es, nameless, found, hfind, -⟩
    rw [FileSystem.entries?_eq_some.2 ⟨es, nameless, hfind, rfl⟩] at hentries
    cases hentries
  | some entries =>
    obtain ⟨es, nameless, hfind, rfl⟩ := FileSystem.entries?_eq_some.1 hentries
    dsimp only
    rw [run_bind_ok]
    constructor
    · rintro ⟨lists, fs₁, hrun, hfiles⟩
      obtain ⟨rfl, found, hall, rfl⟩ := (run_mapM_ok fun entry _ => collectEntry_keeps p entry).1 hrun
      cases hfiles
      exact ⟨rfl, es, nameless, found, hfind, hall, List.flatMap_def.symm⟩
    · rintro ⟨rfl, es', nameless', found, hfind', hall, rfl⟩
      obtain ⟨rfl, rfl⟩ := FileTree.directory.inj (Option.some.inj (hfind'.symm.trans hfind))
      exact ⟨_, fs', run_mapM_map hall, by rw [List.flatMap_def]; rfl⟩

/-- An entry that cannot be searched ends the search. -/
theorem collectSources_run_error {entries rest : List (Option DirEntry)} {entry : Option DirEntry}
    {fault : SearchFault} (hentries : fs.entries? p = some entries)
    (hfirst : order p entries = entry :: rest)
    (h : (collectEntry (FileSystem.listing order) suffix p entry).run fs = (.error fault, fs)) :
    (collectSources (FileSystem.listing order) suffix p).run fs = (.error fault, fs) := by
  rw [collectSources_run, hentries]
  dsimp only
  rw [hfirst, run_bind, run_mapM_error h]
  rfl

/-! ### Going down a tree -/

section Tree

variable {place : List String} {es : List (String × FileTree)}
  {nameless : List (ByteArray × FileTree)}

/-- The name of an entry leads from a directory to the entry. -/
theorem leadsTo?_entry (hproper : fs.tree.Proper) (hwritten : ¬ p.IsEmpty)
    (hplace : fs.leadsTo? p = some place) (hdir : fs.tree.at? place = some (.directory es nameless))
    {n : String} {t : FileTree} (hmem : (n, t) ∈ es) : IsEntryName n ∧ t.Proper ∧
      ¬ (p.join ⟨[n]⟩).IsEmpty ∧ fs.leadsTo? (p.join ⟨[n]⟩) = some (place ++ [n]) ∧
      fs.tree.at? (place ++ [n]) = some t := by
  have hes := hproper.at? hdir
  rw [FileTree.Proper, FileTree.properEntries_iff] at hes
  obtain ⟨hname, ht⟩ := hes.2 _ hmem
  have hrelative : Path.isAbsolute ⟨[n]⟩ = false := by simp [Path.isAbsolute]
  have hat : fs.tree.at? (place ++ [n]) = some t := by
    rw [FileTree.at?_append, hdir]
    show (es.lookup n).bind some = some t
    rw [(FileTree.lookup_eq_some_iff hes.1).2 hmem]
    rfl
  -- the name is neither empty nor that of the directory or of the one above
  refine ⟨hname, ht, Path.not_isEmpty_join hwritten hrelative (List.cons_ne_nil _ _), ?_, hat⟩
  rw [FileSystem.leadsTo?_join hwritten hrelative (List.cons_ne_nil _ _), hplace]
  exact FileSystem.follow?_names (List.forall_mem_singleton.2 hname) (by rw [hat]; rfl)

/-- A directory in one that can be searched can be searched itself. -/
theorem isSearchable_entry (hproper : fs.tree.Proper) (hwritten : ¬ p.IsEmpty)
    (hplace : fs.leadsTo? p = some place) (hdir : fs.tree.at? place = some (.directory es []))
    (hnamed : FileTree.areNamed es = true)
    (hpaths : ∀ rest ∈ FileTree.directoriesIn es, FileSystem.isPossiblePath (p.join ⟨rest⟩) = true)
    {n : String} {es' : List (String × FileTree)} {nameless' : List (ByteArray × FileTree)}
    (hmem : (n, .directory es' nameless') ∈ es) : fs.isSearchable (p.join ⟨[n]⟩) = true := by
  obtain ⟨hname, ht, hwritten', hleads, hat⟩ := leadsTo?_entry hproper hwritten hplace hdir hmem
  have hbelow {rest : List String} (hrest : rest ∈ (FileTree.directory es' nameless').directories) :
      FileSystem.isPossiblePath (p.join ⟨n :: rest⟩) = true :=
    hpaths _ (FileTree.mem_directoriesIn.2 ⟨n, _, rest, hmem, hrest, rfl⟩)
  have hnamed' := FileTree.isNamed_of_mem hnamed hmem
  rw [FileTree.isNamed, Bool.and_eq_true, List.isEmpty_iff] at hnamed'
  obtain ⟨rfl, hnamed'⟩ := hnamed'
  refine FileSystem.isSearchable_iff.2 ⟨es', FileSystem.find?_eq_some.2
    ⟨fun hempty => hwritten' (.inr hempty), hbelow List.mem_cons_self, _, hleads, hat⟩, hnamed',
    fun rest hrest => ?_⟩
  rw [Path.join_join p hname.1]
  · exact hbelow (List.mem_cons_of_mem _ hrest)
  · -- the first name is that of an entry
    obtain ⟨n', t', tail, hmem', -, rfl⟩ := FileTree.mem_directoriesIn.1 hrest
    rw [FileTree.Proper, FileTree.properEntries_iff] at ht
    exact fun hempty => (ht.2 _ hmem').1.1 (Option.some.inj hempty)

/-- The files below an entry that is a directory lie behind its name. -/
theorem filesBelow_entry (p : Path) {n : String} (hname : IsEntryName n)
    (hproper : (FileTree.directory es nameless).Proper) :
    FileSystem.filesBelow (p.join ⟨[n]⟩) es =
      (FileTree.placesIn es).map fun rest => p.join ⟨n :: rest⟩ := by
  refine List.map_congr_left fun rest hrest => Path.join_join p hname.1 fun hhead => ?_
  obtain ⟨tail, rfl⟩ := List.head?_eq_some_iff.1 hhead
  exact ((FileTree.mem_places hproper).2 hrest _ List.mem_cons_self).1 rfl

end Tree

/-- The files with the suffix at and below an entry of a directory. -/
def sourcesAt (suffix : String) (p : Path) (e : String × FileTree) : List Path :=
  ((e.2.places.map (e.1 :: ·)).map fun rest => p.join ⟨rest⟩).filter fun q =>
    q.extension? == some suffix

theorem filter_filesBelow (suffix : String) (p : Path) (es : List (String × FileTree)) :
    ((FileSystem.filesBelow p es).filter fun q => q.extension? == some suffix) =
      es.flatMap (sourcesAt suffix p) := by
  unfold FileSystem.filesBelow
  rw [FileTree.placesIn_eq, List.map_flatMap, List.filter_flatMap]
  rfl

theorem ofText?_of_isEntryName {n : String} (h : IsEntryName n) :
    EntryName.ofText? n = some ⟨n, h.1⟩ := dif_neg h.1

variable (hproper : fs.tree.Proper) (horder : ∀ p entries, (order p entries).Perm entries)

include hproper horder

/-- **What a search collects.**  At its end it has found the directory at the path, and of the files below
it those with the suffix. -/
theorem collectSources_perm (hwritten : ¬ p.IsEmpty) {files : List Path}
    (hrun : (collectSources (FileSystem.listing order) suffix p).run fs = (.ok files, fs')) :
    ∃ place es nameless, fs.leadsTo? p = some place ∧
      fs.tree.at? place = some (.directory es nameless) ∧
      files.Perm ((FileSystem.filesBelow p es).filter fun q => q.extension? == some suffix) := by
  -- on the search itself, which goes to paths that are longer up to the limit
  induction p using collectSources.induct generalizing files fs' with
  | case1 p hpath ih =>
    obtain ⟨-, es, nameless, found, hfind, hfound, rfl⟩ := collectSources_run_ok.1 hrun
    obtain ⟨-, -, place, hplace, hdir⟩ := FileSystem.find?_eq_some.1 hfind
    refine ⟨place, es, nameless, hplace, hdir, ?_⟩
    have hfound (entry : Option DirEntry) (hentry : entry ∈ listed es nameless) :=
      hfound entry ((horder p _).mem_iff.2 hentry)
    -- no entry without a name can have been looked at
    obtain rfl : nameless = [] := by
      refine List.eq_nil_iff_forall_not_mem.2 fun ⟨name, t⟩ hmem => ?_
      have h := hfound (some ⟨none, FileSystem.kindOfEntry t⟩)
        (List.mem_append_right _ (List.mem_map.2 ⟨_, hmem, rfl⟩))
      cases t <;> cases h
    have hentry : ∀ e ∈ es, (found (some ⟨EntryName.ofText? e.1,
        FileSystem.kindOfEntry e.2⟩)).Perm (sourcesAt suffix p e) := by
      rintro ⟨n, t⟩ hmem
      obtain ⟨hname, ht, hwritten', hleads, hat⟩ :=
        leadsTo?_entry hproper hwritten hplace hdir hmem
      have hrun := hfound _ (List.mem_append_left _ (List.mem_map_of_mem hmem))
      rw [ofText?_of_isEntryName hname] at hrun ⊢
      cases t with
      | file content => exact .of_eq (Except.ok.inj (congrArg Prod.fst hrun)).symm
      | other => exact .of_eq (Except.ok.inj (congrArg Prod.fst hrun)).symm
      | directory es' nameless' =>
        obtain ⟨place', es'', nameless'', hplace', hdir', hperm⟩ := ih ⟨n, hname.1⟩ hwritten' hrun
        obtain rfl : place' = place ++ [n] := Option.some.inj (hplace'.symm.trans hleads)
        obtain ⟨rfl, rfl⟩ := FileTree.directory.inj (Option.some.inj (hdir'.symm.trans hat))
        -- the two names of a file, one behind the directory and one behind the entry, are the same path
        refine hperm.trans (.of_eq ?_)
        rw [filesBelow_entry p hname ht, sourcesAt, List.map_map]
        rfl
    rw [filter_filesBelow]
    refine ((horder p _).flatMap_right found).trans ?_
    unfold listed
    rw [List.map_nil, List.append_nil, List.flatMap_map]
    exact List.Perm.flatMap_left es hentry
  | case2 p hpath =>
    obtain ⟨-, es, nameless, found, hfind, -⟩ := collectSources_run_ok.1 hrun
    exact absurd (FileSystem.find?_eq_some.1 hfind).2.1 hpath

/-- A search comes to its end where all names are texts and no path on the way is too long. -/
theorem collectSources_ok (hwritten : ¬ p.IsEmpty) (hsearchable : fs.isSearchable p = true) :
    ∃ files, (collectSources (FileSystem.listing order) suffix p).run fs = (.ok files, fs) := by
  obtain ⟨es, hfind, hnamed, hpaths⟩ := FileSystem.isSearchable_iff.1 hsearchable
  induction p using collectSources.induct generalizing es with
  | case1 p hpath ih =>
    obtain ⟨-, -, place, hplace, hdir⟩ := FileSystem.find?_eq_some.1 hfind
    have hentry (entry : Option DirEntry) : ∃ files, entry ∈ order p (listed es []) →
        (collectEntry (FileSystem.listing order) suffix p entry).run fs = (.ok files, fs) := by
      by_cases hlisted : entry ∈ order p (listed es [])
      · rw [(horder p _).mem_iff, listed, List.map_nil, List.append_nil] at hlisted
        obtain ⟨⟨n, t⟩, hmem, rfl⟩ := List.mem_map.1 hlisted
        obtain ⟨hname, -, hwritten', -⟩ := leadsTo?_entry hproper hwritten hplace hdir hmem
        dsimp only
        rw [ofText?_of_isEntryName hname]
        cases t with
        | file content => exact ⟨_, fun _ => rfl⟩
        | other => exact ⟨_, fun _ => rfl⟩
        | directory es' nameless' =>
          have hbelow := isSearchable_entry hproper hwritten hplace hdir hnamed hpaths hmem
          obtain ⟨es'', hfind', hnamed', hpaths'⟩ := FileSystem.isSearchable_iff.1 hbelow
          obtain ⟨files, hrun⟩ := ih ⟨n, hname.1⟩ hwritten' hbelow es'' hfind' hnamed' hpaths'
          exact ⟨files, fun _ => hrun⟩
      · exact ⟨[], fun h => absurd h hlisted⟩
    choose found hfound using hentry
    exact ⟨_, collectSources_run_ok.2 ⟨rfl, es, [], found, hfind, hfound, rfl⟩⟩
  | case2 p hpath => exact absurd (FileSystem.find?_eq_some.1 hfind).2.1 hpath

end Project

end Idl
