/-
Idl/Proofs/FileTrees.lean

Trees of files and the places that paths lead to.

In a proper tree the entries of a directory are known by their names, so a place leads to a file exactly
if it is listed (`FileTree.mem_places`).  A path behind another one leads on from the place that the
other one leads to (`FileSystem.leadsTo?_join`), and down the names among its pieces if it does not
lead upwards (`FileSystem.follow?_eq_some`).
-/
import Idl.FileTree
import Idl.Proofs.Paths

namespace Idl

/-- A text can be the name of an entry in a directory. -/
def IsEntryName (s : String) : Prop := s ≠ "" ∧ s ≠ "." ∧ s ≠ ".." ∧ Slashless s

/-! ### Places in a tree -/

namespace FileTree

mutual

/-- The texts that are names of entries can be names, and no two entries of one directory have the
same. -/
def Proper : FileTree → Prop
  | .file _ | .other => True
  | .directory es _ => (es.map (·.1)).Nodup ∧ ProperEntries es

/-- Entries have names, and below each of them the tree is proper. -/
def ProperEntries : List (String × FileTree) → Prop
  | [] => True
  | (n, t) :: es => IsEntryName n ∧ t.Proper ∧ ProperEntries es

end

theorem properEntries_iff {es : List (String × FileTree)} :
    ProperEntries es ↔ ∀ e ∈ es, IsEntryName e.1 ∧ e.2.Proper := by
  induction es with
  | nil => exact iff_of_true trivial nofun
  | cons e es ih => rw [ProperEntries, ih, List.forall_mem_cons, and_assoc]

theorem lookup_eq_some_iff {es : List (String × FileTree)} (h : (es.map (·.1)).Nodup) {n : String}
    {t : FileTree} : es.lookup n = some t ↔ (n, t) ∈ es := by
  induction es with
  | nil => exact iff_of_false nofun List.not_mem_nil
  | cons e es ih =>
    obtain ⟨hfresh, hes⟩ := List.nodup_cons.1 h
    obtain ⟨n', t'⟩ := e
    by_cases hn : n = n'
    · subst hn
      rw [List.lookup_cons_self, List.mem_cons, Option.some.injEq]
      refine ⟨fun heq => .inl (by rw [heq]), ?_⟩
      rintro (heq | hmem)
      · exact (Prod.mk.inj heq).2.symm
      · exact absurd (List.mem_map_of_mem hmem) hfresh
    · rw [List.lookup_cons, beq_false_of_ne hn, List.mem_cons, ih hes]
      exact (or_iff_right fun heq => hn (Prod.mk.inj heq).1).symm

/-- The places below entries, where `below` are those from what an entry is on. -/
theorem mem_flatMap_entries {es : List (String × FileTree)}
    {below : FileTree → List (List String)} {place : List String} :
    (place ∈ es.flatMap fun e => (below e.2).map (e.1 :: ·)) ↔
      ∃ n t rest, (n, t) ∈ es ∧ rest ∈ below t ∧ place = n :: rest := by
  rw [List.mem_flatMap]
  constructor
  · rintro ⟨⟨n, t⟩, hmem, hplace⟩
    obtain ⟨rest, hrest, rfl⟩ := List.mem_map.1 hplace
    exact ⟨n, t, rest, hmem, hrest, rfl⟩
  · rintro ⟨n, t, rest, hmem, hrest, rfl⟩
    exact ⟨(n, t), hmem, List.mem_map_of_mem hrest⟩

theorem placesIn_eq (es : List (String × FileTree)) :
    placesIn es = es.flatMap fun e => e.2.places.map (e.1 :: ·) := by
  induction es with
  | nil => rfl
  | cons e es ih => rw [placesIn, ih, List.flatMap_cons]

theorem mem_placesIn {es : List (String × FileTree)} {place : List String} :
    place ∈ placesIn es ↔ ∃ n t rest, (n, t) ∈ es ∧ rest ∈ t.places ∧ place = n :: rest :=
  placesIn_eq es ▸ mem_flatMap_entries

/-- What is at a place that begins at another one. -/
theorem at?_append (t : FileTree) (place rest : List String) :
    t.at? (place ++ rest) = (t.at? place).bind fun u => u.at? rest := by
  induction place generalizing t with
  | nil => rfl
  | cons n place ih =>
    rw [List.cons_append, at?, at?, Option.bind_assoc]
    exact congrArg _ (funext ih)

theorem Proper.at? {t u : FileTree} (h : t.Proper) {place : List String}
    (hu : t.at? place = some u) : u.Proper := by
  induction place generalizing t with
  | nil => exact Option.some.inj hu ▸ h
  | cons n place ih =>
    obtain ⟨v, hv, hv'⟩ := Option.bind_eq_some_iff.1 hu
    cases t with
    | file content => cases hv
    | other => cases hv
    | directory es nameless =>
      rw [Proper, properEntries_iff] at h
      exact ih (h.2 _ ((lookup_eq_some_iff h.1).1 hv)).2 hv'

mutual

/-- Whether all entries of directories from here on have names that are texts. -/
def isNamed : FileTree → Bool
  | .file _ | .other => true
  | .directory es nameless => nameless.isEmpty && areNamed es

/-- Whether that is so from all of the entries on. -/
def areNamed : List (String × FileTree) → Bool
  | [] => true
  | (_, t) :: es => t.isNamed && areNamed es

end

theorem isNamed_of_mem {es : List (String × FileTree)} (h : areNamed es = true)
    {e : String × FileTree} (he : e ∈ es) : e.2.isNamed = true := by
  induction es with
  | nil => cases he
  | cons e' es ih =>
    rw [areNamed, Bool.and_eq_true] at h
    rcases List.mem_cons.1 he with rfl | he
    · exact h.1
    · exact ih h.2 he

mutual

/-- The places of all directories from here on. -/
def directories : FileTree → List (List String)
  | .file _ | .other => []
  | .directory es _ => [] :: directoriesIn es

/-- The places of all directories among the entries of a directory and below them. -/
def directoriesIn : List (String × FileTree) → List (List String)
  | [] => []
  | (n, t) :: es => t.directories.map (n :: ·) ++ directoriesIn es

end

theorem mem_directoriesIn {es : List (String × FileTree)} {place : List String} :
    place ∈ directoriesIn es ↔
      ∃ n t rest, (n, t) ∈ es ∧ rest ∈ t.directories ∧ place = n :: rest := by
  have heq : directoriesIn es = es.flatMap fun e => e.2.directories.map (e.1 :: ·) := by
    induction es with
    | nil => rfl
    | cons e es ih => rw [directoriesIn, ih, List.flatMap_cons]
  exact heq ▸ mem_flatMap_entries

/-- The listed places are those of the files, and names lead to them. -/
theorem mem_places {t : FileTree} (h : t.Proper) {place : List String} :
    (place ∈ t.places ↔ ∃ content, t.at? place = some (.file content)) ∧
      (place ∈ t.places → ∀ n ∈ place, IsEntryName n) := by
  induction place generalizing t with
  | nil =>
    refine ⟨?_, nofun⟩
    cases t with
    | file content => exact iff_of_true (List.mem_singleton_self _) ⟨content, rfl⟩
    | other => exact iff_of_false List.not_mem_nil (by rintro ⟨content, ⟨⟩⟩)
    | directory es nameless =>
      refine iff_of_false (fun hmem => ?_) (by rintro ⟨content, ⟨⟩⟩)
      obtain ⟨n, t, rest, -, -, heq⟩ := mem_placesIn.1 hmem
      cases heq
  | cons n place ih =>
    cases t with
    | file content =>
      have hno : n :: place ∉ (file content).places := by simp [places]
      exact ⟨iff_of_false hno (by rintro ⟨content, ⟨⟩⟩), fun h => absurd h hno⟩
    | other =>
      exact ⟨iff_of_false List.not_mem_nil (by rintro ⟨content, ⟨⟩⟩),
        fun h => absurd h List.not_mem_nil⟩
    | directory es nameless =>
      -- names are distinct, so what is listed under a name is what the name leads to
      rw [Proper, properEntries_iff] at h
      obtain ⟨hdistinct, hes⟩ := h
      have hplaces : n :: place ∈ (directory es nameless).places ↔
          ∃ t, (n, t) ∈ es ∧ place ∈ t.places := by
        rw [places, mem_placesIn]
        constructor
        · rintro ⟨n', t, rest, hmem, hrest, heq⟩
          cases heq
          exact ⟨t, hmem, hrest⟩
        · rintro ⟨t, hmem, hrest⟩
          exact ⟨n, t, place, hmem, hrest, rfl⟩
      constructor
      · rw [hplaces]
        simp only [FileTree.at?, child?, Option.bind_eq_some_iff, lookup_eq_some_iff hdistinct]
        constructor
        · rintro ⟨t, hmem, hrest⟩
          obtain ⟨content, hcontent⟩ := (ih (hes _ hmem).2).1.1 hrest
          exact ⟨content, t, hmem, hcontent⟩
        · rintro ⟨content, t, hmem, hcontent⟩
          exact ⟨t, hmem, (ih (hes _ hmem).2).1.2 ⟨content, hcontent⟩⟩
      · rintro hmem n' hn'
        obtain ⟨t, hmem, hrest⟩ := hplaces.1 hmem
        rcases List.mem_cons.1 hn' with rfl | hn'
        · exact (hes _ hmem).1
        · exact (ih (hes _ hmem).2).2 hrest n' hn'

/-- Only directories lead to places. -/
theorem isDirectory_of_at?_cons {t u : FileTree} {place rest : List String} {n : String}
    (h : t.at? (place ++ n :: rest) = some u) : (t.at? place).any isDirectory := by
  rw [at?_append] at h
  obtain ⟨v, hv, h⟩ := Option.bind_eq_some_iff.1 h
  rw [hv]
  cases v with
  | file content => cases h
  | other => cases h
  | directory es nameless => rfl

end FileTree

/-! ### Following paths -/

namespace FileSystem

/-- The place that a path leads to, however long it is. -/
def leadsTo? (fs : FileSystem) (p : Path) : Option (List String) :=
  follow? fs.tree p.pieces (fs.start p)

variable {fs : FileSystem} {tree : FileTree}

/-- Where a piece leads from a directory. -/
def enter (piece : String) (place : List String) : List String :=
  if piece = "" ∨ piece = "." then place
  else if piece = ".." then place.dropLast
  else place ++ [piece]

/-- Only directories lead on. -/
theorem follow?_cons (piece : String) (rest place : List String) :
    follow? tree (piece :: rest) place =
      if (tree.at? place).any FileTree.isDirectory then follow? tree rest (enter piece place)
      else none := by
  rw [follow?]
  rcases tree.at? place with - | (content | - | ⟨es, nameless⟩)
  · rfl
  · rfl
  · rfl
  · unfold enter
    show _ = follow? tree rest _
    by_cases hpiece : piece = "" ∨ piece = "."
    · rw [if_pos hpiece, if_pos hpiece]
    · rw [if_neg hpiece, if_neg hpiece]
      by_cases hup : piece = ".."
      · rw [if_pos hup, if_pos hup]
      · rw [if_neg hup, if_neg hup]

/-- Some pieces and more are followed one after the other. -/
theorem follow?_append (ps qs place : List String) :
    follow? tree (ps ++ qs) place = (follow? tree ps place).bind (follow? tree qs) := by
  induction ps generalizing place with
  | nil =>
    rw [List.nil_append, follow?]
    by_cases hsome : (tree.at? place).isSome
    · rw [if_pos hsome]
      rfl
    · -- nothing leads on from nowhere
      rw [if_neg hsome]
      cases qs with
      | nil => rw [follow?, if_neg hsome]; rfl
      | cons q qs =>
        rw [follow?_cons, Option.not_isSome_iff_eq_none.1 hsome]
        rfl
  | cons p ps ih =>
    rw [List.cons_append, follow?_cons, follow?_cons]
    split
    · exact ih _
    · rfl

/-- An empty piece changes nothing in front of another piece. -/
theorem follow?_empty_cons {qs : List String} (hne : qs ≠ []) (place : List String) :
    follow? tree ("" :: qs) place = follow? tree qs place := by
  obtain ⟨q, qs, rfl⟩ := List.exists_cons_of_ne_nil hne
  rw [follow?_cons, show enter "" place = place from rfl, follow?_cons]
  split <;> rfl

/-- A path behind another one is followed from the place that this one leads to. -/
theorem leadsTo?_join {p q : Path} (hp : ¬ p.IsEmpty) (hq : q.isAbsolute = false)
    (hne : q.pieces ≠ []) :
    fs.leadsTo? (p.join q) = (fs.leadsTo? p).bind (follow? fs.tree q.pieces) := by
  have hstart : fs.start (p.join q) = fs.start p := by
    unfold start
    rw [Path.isAbsolute_join hp hq hne]
  obtain ⟨first, rest, tail, hpieces, htail, hjoin, -⟩ := Path.join_pieces hp hq
  unfold leadsTo?
  rw [hstart, hjoin, hpieces, ← follow?_append, ← List.cons_append, ← List.cons_append,
    List.append_assoc, follow?_append, follow?_append]
  refine congrArg (Option.bind _) (funext fun place => ?_)
  rcases htail with rfl | rfl
  · rfl
  · exact (follow?_empty_cons hne place).symm

/-- The names among some pieces: the ones that mean something. -/
def names (ps : List String) : List String :=
  ps.filter fun piece => ¬ (piece = "" ∨ piece = ".")

theorem names_cons (piece : String) (ps : List String) : names (piece :: ps) =
    if piece = "" ∨ piece = "." then names ps else piece :: names ps := by
  unfold names
  rw [List.filter_cons]
  by_cases hpiece : piece = "" ∨ piece = "."
  · rw [if_pos hpiece, if_neg (by simp [hpiece])]
  · rw [if_neg hpiece, if_pos (by simp [hpiece])]

/-- Pieces that do not lead upwards stand for their names. -/
theorem filterMap_ofPiece? {ps : List String} (h : ".." ∉ ps) :
    ps.filterMap PathComponent.ofPiece? = (names ps).map .name := by
  induction ps with
  | nil => rfl
  | cons piece ps ih =>
    obtain ⟨hpiece, hps⟩ := not_or.1 (mt List.mem_cons.2 h)
    rw [List.filterMap_cons, names_cons, ih hps]
    unfold PathComponent.ofPiece?
    by_cases hempty : piece = "" ∨ piece = "."
    · rw [if_pos hempty, if_pos hempty]
    · rw [if_neg hempty, if_neg hempty, if_neg (Ne.symm hpiece)]
      rfl

/-- Pieces that do not lead upwards lead down their names. -/
theorem follow?_eq_some {ps place found : List String} (h : ".." ∉ ps)
    (hfound : follow? tree ps place = some found) : found = place ++ names ps := by
  induction ps generalizing place with
  | nil =>
    rw [follow?] at hfound
    split at hfound
    · rw [← Option.some.inj hfound]
      exact (List.append_nil place).symm
    · cases hfound
  | cons piece ps ih =>
    obtain ⟨hpiece, hps⟩ := not_or.1 (mt List.mem_cons.2 h)
    rw [follow?_cons] at hfound
    split at hfound
    · rw [ih hps hfound, names_cons]
      unfold enter
      by_cases hempty : piece = "" ∨ piece = "."
      · rw [if_pos hempty, if_pos hempty]
      · rw [if_neg hempty, if_neg hempty, if_neg (Ne.symm hpiece), List.append_assoc]
        rfl
    · cases hfound

/-- A name is left as it is. -/
theorem names_eq_self {ns : List String} (h : ∀ n ∈ ns, IsEntryName n) : names ns = ns := by
  refine List.filter_eq_self.2 fun n hn => decide_eq_true ?_
  obtain ⟨hempty, hdot, -, -⟩ := h n hn
  exact not_or.2 ⟨hempty, hdot⟩

/-- Names lead to the place that they make up. -/
theorem follow?_names {ns place : List String} (h : ∀ n ∈ ns, IsEntryName n)
    (hsome : (tree.at? (place ++ ns)).isSome) : follow? tree ns place = some (place ++ ns) := by
  induction ns generalizing place with
  | nil =>
    rw [List.append_nil] at hsome ⊢
    rw [follow?, if_pos hsome]
  | cons n ns ih =>
    obtain ⟨⟨hempty, hdot, hup, -⟩, hns⟩ := List.forall_mem_cons.1 h
    obtain ⟨u, hu⟩ := Option.isSome_iff_exists.1 hsome
    have henter : enter n place = place ++ [n] := by
      unfold enter
      rw [if_neg (not_or.2 ⟨hempty, hdot⟩), if_neg hup]
    have hassoc : place ++ n :: ns = place ++ [n] ++ ns := List.append_cons place n ns
    rw [follow?_cons, if_pos (FileTree.isDirectory_of_at?_cons hu), henter, hassoc]
    exact ih hns (hassoc ▸ hsome)

end FileSystem

end Idl
