/-
Idl/Proofs/FileSets.lean

What a file set guarantees, however it is used.

Files are added at the first free position or at a base beyond it, lines are recorded in them, and
all the while positions are looked up (`FileSetAction`).  The ranges of the files then stay side by
side, from position 1 on and in order of registration, and the first free position stays right
behind the last of them (`FileSet.Packed`).  Every action keeps that, so it holds after any of them
(`FileLookup.packed_after`), and it is what makes a lookup exact: the file found last may be tried
first, because no other file owns what it owns.  And of all that is done, a file knows what was recorded
in it (`FileLookup.recordedIn`, `FileLookup.records_after`).

Main results: `FileLookup.ranges_after`, about the ranges, the refusals and the lookups, and
`FileLookup.places_after`, about the lines that the files answer with.
-/
import Idl.Proofs.LineTables
import Idl.Proofs.Positions
import Mathlib.Data.List.Induction

namespace Idl

/-! ### Ranges and offsets -/

namespace SourceFile

variable (f : SourceFile)

/-- Positions and offsets correspond to each other. -/
theorem pos?_eq_some_iff (offset : Nat) (p : Pos) :
    f.pos? offset = some p ↔ f.offset? p = some offset := by
  unfold pos? offset? contains Pos
  simp only [Option.ite_none_right_eq_some, Option.some.injEq, Bool.and_eq_true, decide_eq_true_eq]
  omega

end SourceFile

namespace FileSet

variable {fs : FileSet}

/-- Whether a file cannot be added: its base lies below the first free position, or its range
leaves no position behind it. -/
def Refuses (fs : FileSet) (base? : Option Pos) (size : Nat) : Prop :=
  base?.getD fs.next < fs.next ∨ positionBound ≤ base?.getD fs.next + size + 1

/-- The file set with a new file, at `base?` or at the first free position. -/
def withFile (fs : FileSet) (name : String) (base? : Option Pos) (size : Nat) : FileSet where
  next := base?.getD fs.next + size + 1
  files := fs.files.push { name := name, base := base?.getD fs.next, size := size }

variable {name : String} {base? : Option Pos} {size : Nat}

theorem addFile_refused (name : String) (h : fs.Refuses base? size) :
    ∃ e, fs.addFile name base? size = .error e := by
  unfold addFile
  dsimp only
  split
  · exact ⟨_, rfl⟩
  · next hbase => exact ⟨_, if_pos (h.resolve_left hbase)⟩

theorem addFile_accepted (h : ¬ fs.Refuses base? size) :
    fs.addFile name base? size = .ok (fs.files.size, fs.withFile name base? size) := by
  obtain ⟨hbase, hfits⟩ := not_or.1 h
  unfold addFile
  dsimp only
  rw [if_neg hbase, if_neg hfits]
  rfl

/-! ### Ranges side by side -/

/-- The files stand side by side from position 1 on, and the first free position is right behind the
last of them. -/
structure Packed (fs : FileSet) : Prop where
  ordered : fs.Ordered
  base : ∀ f ∈ fs.files, 1 ≤ f.base
  next : fs.next = (fs.files.back?.map fun f => f.base + f.size + 1).getD 1
  bound : fs.next < positionBound

theorem packed_empty : Packed {} :=
  ⟨empty_ordered, by simp, rfl, by decide⟩

theorem Packed.one_le_next (h : fs.Packed) : 1 ≤ fs.next := by
  rw [h.next]
  cases fs.files.back? with
  | none => exact Nat.le_refl 1
  | some f => exact Nat.le_add_left 1 _

/-- A file may be added behind all others. -/
theorem Packed.withFile (h : fs.Packed) (hok : ¬ fs.Refuses base? size) :
    (fs.withFile name base? size).Packed := by
  obtain ⟨hbase, hfits⟩ := not_or.1 hok
  have hbase := Nat.le_of_not_lt hbase
  refine ⟨h.ordered.push (f := { name := name, base := base?.getD fs.next, size := size }) hbase,
    ?_, ?_, Nat.lt_of_not_le hfits⟩
  · intro f hf
    rcases Array.mem_push.1 hf with hf | rfl
    · exact h.base f hf
    · exact Nat.le_trans h.one_le_next hbase
  · unfold FileSet.withFile
    dsimp only
    rw [Array.back?_push]
    rfl

/-- A file of a changed set is a file of the set, or a changed one. -/
theorem mem_modifyFile {id : FileId} {change : SourceFile → SourceFile} {f : SourceFile}
    (hf : f ∈ (fs.modifyFile id change).files) : ∃ g ∈ fs.files, f = g ∨ f = change g := by
  obtain ⟨i, hi⟩ : ∃ i : FileId, (fs.files.modify id change)[i]? = some f :=
    Array.mem_iff_getElem?.1 hf
  rw [Array.getElem?_modify] at hi
  split at hi
  · obtain ⟨g, hg, rfl⟩ := Option.map_eq_some_iff.1 hi
    exact ⟨g, Array.mem_of_getElem? hg, .inr rfl⟩
  · exact ⟨f, Array.mem_of_getElem? hi, .inl rfl⟩

/-- Recording lines moves no file. -/
theorem Packed.record (h : fs.Packed) (id : FileId) (a : LineAction) :
    (fs.modifyFile id fun f => f.record a).Packed := by
  refine ⟨h.ordered.modifyFile id fun f => f.record_range a, ?_, ?_, h.bound⟩
  · intro f hf
    obtain ⟨g, hg, rfl | rfl⟩ := mem_modifyFile hf
    · exact h.base _ hg
    · exact (g.record_range a).1 ▸ h.base g hg
  · -- the last file may be the one that is changed, but it ends where it did
    show fs.next = ((fs.files.modify id fun f => f.record a).back?.map _).getD 1
    rw [Array.back?_eq_getElem?, Array.size_modify, Array.getElem?_modify, h.next,
      Array.back?_eq_getElem?]
    split
    · rw [Option.map_map]
      congr 2
      funext f
      rw [Function.comp_apply, (f.record_range a).1, (f.record_range a).2]
    · rfl

/-- A lookup finds a file exactly if the position lies in its range. -/
theorem Packed.fileIdAt?_eq_some_iff (h : fs.Packed) {p : Pos} {id : FileId} :
    fs.fileIdAt? p = some id ↔
      ∃ f, fs.files[id]? = some f ∧ f.base ≤ p ∧ p ≤ f.base + f.size := by
  constructor
  · intro hid
    unfold fileIdAt? at hid
    dsimp only at hid
    split at hid
    · next f hf =>
      split at hid
      · next howns =>
        obtain rfl := Option.some.inj hid
        rw [Bool.and_eq_true] at howns
        exact ⟨f, hf, (SourceFile.owns_iff.1 ⟨bne_iff_ne.1 howns.1, howns.2⟩).2⟩
      · exact nomatch hid
    · exact nomatch hid
  · rintro ⟨f, hf, hin⟩
    have hbase := h.base f (Array.mem_of_getElem? hf)
    have hvalid : p ≠ 0 := Nat.ne_of_gt (Nat.lt_of_lt_of_le hbase hin.1)
    exact h.ordered.fileIdAt? hf (SourceFile.owns_iff.2 ⟨hvalid, hin⟩)

end FileSet

/-! ### A file set in use -/

/-- What can be done with a file set. -/
inductive FileSetAction where
  /-- Adds a file of `size` bytes, at a base or at the first free position. -/
  | add (name : String) (base? : Option Pos) (size : Nat)
  /-- Records something in a file. -/
  | record (id : FileId) (a : LineAction)
  /-- Looks up the file of a position. -/
  | lookUp (p : Pos)

namespace FileLookup

/-- Does one thing with a file set.  A file that is refused changes nothing. -/
def act (l : FileLookup) : FileSetAction → FileLookup
  | .add name base? size =>
    match l.addFile name base? size with
    | .ok (_, l') => l'
    | .error _ => l
  | .record id a => l.modifyFile id fun f => f.record a
  | .lookUp p => (l.fileIdAt? p).2

/-- Does one thing after the other, from an empty file set on. -/
def after (actions : List FileSetAction) : FileLookup := actions.foldl act {}

variable {l : FileLookup} {name : String} {base? : Option Pos} {size : Nat}

/-- Adding a file is refused as by the files alone, and then changes nothing. -/
theorem addFile_refused (h : l.set.Refuses base? size) :
    (∃ e, l.addFile name base? size = .error e) ∧ l.act (.add name base? size) = l := by
  obtain ⟨e, he⟩ := FileSet.addFile_refused name h
  have hl : l.addFile name base? size = .error e := by
    unfold addFile
    rw [he]
    rfl
  refine ⟨⟨e, hl⟩, ?_⟩
  unfold act
  dsimp only
  rw [hl]

/-- What is not refused is registered behind all others. -/
theorem addFile_accepted (h : ¬ l.set.Refuses base? size) :
    l.addFile name base? size = .ok (l.set.files.size, l.act (.add name base? size)) ∧
      (l.act (.add name base? size)).set = l.set.withFile name base? size := by
  have hl : l.addFile name base? size =
      .ok (l.set.files.size, ⟨l.set.withFile name base? size, some l.set.files.size⟩) := by
    unfold addFile
    rw [FileSet.addFile_accepted h]
    rfl
  have hact : l.act (.add name base? size) =
      ⟨l.set.withFile name base? size, some l.set.files.size⟩ := by
    unfold act
    dsimp only
    rw [hl]
  rw [hact]
  exact ⟨hl, rfl⟩

/-- Whatever is done, the files stay side by side. -/
theorem packed_act (h : l.set.Packed) (a : FileSetAction) : (l.act a).set.Packed := by
  cases a with
  | add name base? size =>
    by_cases hno : l.set.Refuses base? size
    · rw [(addFile_refused hno).2]
      exact h
    · rw [(addFile_accepted hno).2]
      exact h.withFile hno
  | record id a => exact h.record id a
  | lookUp p =>
    show (l.fileIdAt? p).2.set.Packed
    rw [fileIdAt?_set]
    exact h

theorem packed_after (actions : List FileSetAction) : (after actions).set.Packed := by
  have hfoldl {l : FileLookup} (h : l.set.Packed) : (actions.foldl act l).set.Packed := by
    induction actions generalizing l with
    | nil => exact h
    | cons a actions ih => exact ih (packed_act h a)
  exact hfoldl FileSet.packed_empty

/-- **File ranges are disjoint, and lookups are exact.**  Whatever was added, recorded and looked
up, in any order: the ranges of the files come one behind the other, in order of registration, from
position 1 on and below the first free position, which is right behind the last of them.  A file is
refused exactly if its base lies below the first free position or its range leaves no position
behind it, and then nothing changes; otherwise it is registered behind all others.  A lookup finds
the one file whose range the position lies in.  In a file, positions and offsets correspond to each
other, for the offsets up to its size. -/
theorem ranges_after (actions : List FileSetAction) :
    ((after actions).set.files.toList.Pairwise fun f g => f.base + f.size < g.base) ∧
    (∀ f ∈ (after actions).set.files, 1 ≤ f.base ∧ f.base + f.size < (after actions).set.next) ∧
    (after actions).set.next =
      ((after actions).set.files.back?.map fun f => f.base + f.size + 1).getD 1 ∧
    (after actions).set.next < positionBound ∧
    (∀ name base? size, (after actions).set.Refuses base? size →
      (∃ e, (after actions).addFile name base? size = .error e) ∧
      (after actions).act (.add name base? size) = after actions) ∧
    (∀ name base? size, ¬ (after actions).set.Refuses base? size →
      (after actions).addFile name base? size =
        .ok ((after actions).set.files.size, (after actions).act (.add name base? size)) ∧
      ((after actions).act (.add name base? size)).set =
        (after actions).set.withFile name base? size) ∧
    (∀ p id, ((after actions).fileIdAt? p).1 = some id ↔
      ∃ f, (after actions).set.files[id]? = some f ∧ f.base ≤ p ∧ p ≤ f.base + f.size) ∧
    ∀ f ∈ (after actions).set.files, ∀ offset p,
      (f.pos? offset = some p ↔ f.offset? p = some offset) ∧
      ((f.pos? offset).isSome ↔ offset ≤ f.size) := by
  have h := packed_after actions
  refine ⟨?_, fun f hf => ⟨h.base f hf, ?_⟩, h.next, h.bound, fun _ _ _ => addFile_refused,
    fun _ _ _ => addFile_accepted, fun p id => ?_,
    fun f _ offset p => ⟨f.pos?_eq_some_iff offset p, ?_⟩⟩
  · refine List.pairwise_iff_getElem.2 fun i j hi hj hij => ?_
    exact h.ordered.apart (Array.getElem?_eq_getElem hi) (Array.getElem?_eq_getElem hj) hij
  · obtain ⟨i, hi⟩ := Array.mem_iff_getElem?.1 hf
    exact h.ordered.below hi
  · rw [fileIdAt?_eq h.ordered, h.fileIdAt?_eq_some_iff]
  · unfold SourceFile.pos?
    rw [Option.isSome_ite]

/-! ### What was recorded in a file -/

/-- What is recorded in a file of a set while things are done with the set, the earliest first.  Only
in a file that has been added something is recorded. -/
def recordedIn (id : FileId) (l : FileLookup) : List FileSetAction → List LineAction
  | [] => []
  | .record i a :: rest =>
    if i = id ∧ id < l.set.files.size then a :: recordedIn id (l.act (.record i a)) rest
    else recordedIn id (l.act (.record i a)) rest
  | .add name base? size :: rest => recordedIn id (l.act (.add name base? size)) rest
  | .lookUp p :: rest => recordedIn id (l.act (.lookUp p)) rest

theorem recordedIn_append (id : FileId) (l : FileLookup) (xs ys : List FileSetAction) :
    recordedIn id l (xs ++ ys) = recordedIn id l xs ++ recordedIn id (xs.foldl act l) ys := by
  induction xs generalizing l with
  | nil => rfl
  | cons a xs ih =>
    cases a with
    | record i a =>
      rw [List.cons_append, recordedIn, recordedIn, ih]
      split <;> rfl
    | add name base? size => exact ih _
    | lookUp p => exact ih _

theorem after_concat (actions : List FileSetAction) (a : FileSetAction) :
    after (actions ++ [a]) = (after actions).act a :=
  List.foldl_concat ..

/-- Bytes that lines are taken from are no more than a file may have. -/
def Sized (history : List LineAction) : Prop :=
  ∀ content, .setLinesOf content ∈ history → content.length < positionBound

/-- The files of a set know what histories recorded in them, and there is none of a file that has not
been added. -/
structure Tracks (l : FileLookup) (history : FileId → List LineAction) : Prop where
  records : ∀ {id : FileId} {f : SourceFile}, l.set.files[id]? = some f → Sized (history id) →
    f.Records (history id)
  unborn : ∀ {id : FileId}, l.set.files.size ≤ id → history id = []

variable {history : FileId → List LineAction}

/-- Adding a file records nothing. -/
theorem Tracks.add (h : l.Tracks history) : (l.act (.add name base? size)).Tracks history := by
  by_cases hno : l.set.Refuses base? size
  · rw [(addFile_refused hno).2]
    exact h
  · have hset : (l.act (.add name base? size)).set = l.set.withFile name base? size :=
      (addFile_accepted hno).2
    constructor
    · intro id f hf hsized
      rw [hset] at hf
      have hf : (l.set.files.push _)[id]? = some f := hf
      rw [Array.getElem?_push] at hf
      split at hf
      · next hlast =>
        -- nothing was recorded under this number before there was the file
        cases hf
        rw [h.unborn (Nat.le_of_eq hlast.symm)]
        exact SourceFile.records_new name _ size
      · exact h.records hf hsized
    · intro id hid
      have hsize : (l.set.withFile name base? size).files.size = l.set.files.size + 1 :=
        Array.size_push _
      rw [hset, hsize] at hid
      exact h.unborn (Nat.le_of_succ_le hid)

/-- Looking up a file records nothing. -/
theorem Tracks.lookUp (h : l.Tracks history) (p : Pos) : (l.act (.lookUp p)).Tracks history := by
  have hset : (l.act (.lookUp p)).set = l.set := fileIdAt?_set l p
  constructor
  · intro id f hf
    rw [hset] at hf
    exact h.records hf
  · intro id hid
    rw [hset] at hid
    exact h.unborn hid

/-- What is recorded in a file is known to that file, and to no other. -/
theorem Tracks.record (h : l.Tracks history) (i : FileId) (a : LineAction) :
    (l.act (.record i a)).Tracks fun id =>
      history id ++ if i = id ∧ id < l.set.files.size then [a] else [] := by
  constructor
  · intro id f hf hsized
    have hf : (l.set.files.modify i fun f => f.record a)[id]? = some f := hf
    rw [Array.getElem?_modify] at hf
    by_cases hi : i = id
    · rw [if_pos hi] at hf
      obtain ⟨g, hg, rfl⟩ := Option.map_eq_some_iff.1 hf
      have hsize : id < l.set.files.size := (Array.getElem?_eq_some_iff.1 hg).1
      rw [if_pos ⟨hi, hsize⟩] at hsized ⊢
      refine (h.records hg fun content hmem => ?_).record fun content ha => ?_
      · exact hsized content (List.mem_append_left _ hmem)
      · exact hsized content (List.mem_append_right _ (ha ▸ List.mem_cons_self))
    · rw [if_neg hi] at hf
      rw [if_neg fun hin => hi hin.1, List.append_nil] at hsized ⊢
      exact h.records hf hsized
  · intro id hid
    have hsize : (l.act (.record i a)).set.files.size = l.set.files.size := Array.size_modify
    rw [hsize] at hid
    rw [if_neg fun hin => Nat.not_lt.2 hid hin.2, List.append_nil]
    exact h.unborn hid

/-- Whatever is done, the files know what was recorded in them. -/
theorem tracks_after (actions : List FileSetAction) :
    (after actions).Tracks fun id => recordedIn id {} actions := by
  induction actions using List.reverseRecOn with
  | nil => exact ⟨fun hf => by simp [after] at hf, fun _ => rfl⟩
  | append_singleton actions a ih =>
    simp only [recordedIn_append, after_concat]
    cases a with
    | add name base? size => simpa only [recordedIn, List.append_nil] using ih.add
    | lookUp p => simpa only [recordedIn, List.append_nil] using ih.lookUp p
    | record i a => exact ih.record i a

/-- **Line tables and remappings answer like a scan.**  Whatever was added, recorded and looked up,
as long as lines are taken from no more bytes than a file may have: the line starts of a file are those of
the last table it was given and those added beyond them since, and its remappings are those added
beyond each other.  Both increase; the place of an offset, as the file itself counts, is found by
counting the line starts up to it, and with remappings by the last remapping up to it; and line
starts are refused exactly if they do not increase or do not lie in the file, which then does not
change. -/
theorem places_after (actions : List FileSetAction) {id : FileId} {f : SourceFile}
    (hf : (after actions).set.files[id]? = some f)
    (hsized : ∀ content, .setLinesOf content ∈ recordedIn id {} actions →
      content.length < positionBound) :
    f.lines.toList = recordedStarts f.size (recordedIn id {} actions) ∧
    f.remappings.toList = recordedRemappings f.size (recordedIn id {} actions) ∧
    f.lines.toList.Pairwise (· < ·) ∧
    (f.remappings.toList.Pairwise fun r r' => r.offset < r'.offset) ∧
    (∀ offset ≤ f.size, ∃ p, f.pos? offset = some p ∧
      f.unadjustedPosition p = f.scannedPlace offset ∧ f.position p = f.remappedPlace offset) ∧
    ∀ ls, (f.setLines? ls = none ↔ ¬ (ls.Pairwise (· < ·) ∧ ∀ l ∈ ls, l ≤ f.size)) ∧
      (f.setLines? ls = none → f.record (.setLines ls) = f) := by
  have hrecords := (tracks_after actions).records hf hsized
  have hincreasing := hrecords.increasing
  refine ⟨hrecords.lines, hrecords.remappings, hincreasing.lines, hincreasing.remappings,
    fun offset hle => ?_, fun ls => ⟨SourceFile.setLines?_eq_none, fun hnone => ?_⟩⟩
  · have hbase := (packed_after actions).base f (Array.mem_of_getElem? hf)
    have howns : f.Owns (f.base + offset) := SourceFile.owns_iff.2
      ⟨Nat.ne_of_gt (Nat.lt_of_lt_of_le hbase (Nat.le_add_right ..)), Nat.le_add_right ..,
        Nat.add_le_add_left hle _⟩
    have hin : (Pos.isValid (f.base + offset) && f.contains (f.base + offset)) = true :=
      Bool.and_eq_true .. ▸ ⟨bne_iff_ne.2 howns.1, howns.2⟩
    refine ⟨f.base + offset, if_pos hle, ?_, ?_⟩
    · rw [SourceFile.unadjustedPosition, if_pos hin, hincreasing.unadjustedPlace_eq,
        Nat.add_sub_cancel_left]
    · rw [SourceFile.position, if_pos hin, hincreasing.place_eq, Nat.add_sub_cancel_left]
  · unfold SourceFile.record
    dsimp only
    rw [hnone]
    rfl

/-- A generated file of three lines, whose text comes from line 40 of another file from offset 6 on.
The table taken from the bytes of its first line replaces what was known.  One line start is ignored
and one table is refused, since they do not increase. -/
def generated : List FileSetAction :=
  [.record 0 (.addLine 2), .add "gen.mid" none 20, .record 0 (.addLine 3),
    .record 0 (.setLinesOf [32, 32, 32, 32, 10]), .lookUp 3, .record 0 (.addLine 4),
    .record 0 (.setLines [7, 3]), .record 0 (.addRemapping ⟨6, "orig.mid", 40⟩), .lookUp 30,
    .record 0 (.addLine 10)]

/-- What stands one line below the remapping comes from line 41. -/
theorem places_after_generated : ∃ f, (after generated).set.files[0]? = some f ∧
    f.lines.toList = [0, 5, 10] ∧ f.unadjustedPosition 13 = ⟨"gen.mid", 12, 3, 3⟩ ∧
    f.position 13 = ⟨"orig.mid", 12, 41, 3⟩ := by
  let f : SourceFile := ⟨"gen.mid", 1, 20, #[0, 5, 10], #[⟨6, "orig.mid", 40⟩]⟩
  have hf : (after generated).set.files[0]? = some f := by decide +kernel
  have hrecorded : recordedIn 0 {} generated = [.addLine 3, .setLinesOf [32, 32, 32, 32, 10],
      .addLine 4, .setLines [7, 3], .addRemapping ⟨6, "orig.mid", 40⟩, .addLine 10] := by
    decide +kernel
  have hsized : ∀ content, .setLinesOf content ∈ recordedIn 0 {} generated →
      content.length < positionBound := by
    rw [hrecorded]
    intro content hmem
    obtain rfl : content = [32, 32, 32, 32, 10] := by simpa using hmem
    decide
  have hoffset : 12 ≤ f.size := by decide
  obtain ⟨hlines, -, -, -, hplaces, -⟩ := places_after generated hf hsized
  obtain ⟨p, hp, hunadjusted, hplace⟩ := hplaces 12 hoffset
  obtain rfl : 13 = p := Option.some.inj hp
  refine ⟨f, hf, hlines.trans ?_, hunadjusted.trans ?_, hplace.trans ?_⟩ <;> decide +kernel

/-! ### More bytes than a file may have -/

/-- Blanks between two newlines. -/
def linesApart (n : Nat) : List UInt8 := 10 :: (List.replicate n 32 ++ [10])

theorem lineStartsInBytes_linesApart (n : Nat) :
    lineStartsInBytes 0 (linesApart n) = [1, n + 2] := by
  have hnone : lineStartsInBytes 1 (List.replicate n 32) = [] := by
    rw [← List.length_eq_zero_iff, length_lineStartsInBytes]
    rw [List.count_replicate]
    rfl
  have hlast : lineStartsInBytes (1 + n) [10] = [n + 2] := by
    rw [Nat.add_comm]
    rfl
  show 1 :: lineStartsInBytes 1 (List.replicate n 32 ++ [10]) = _
  rw [lineStartsInBytes_append, hnone, List.length_replicate, hlast]
  rfl

/-- Two bytes are registered, and lines are taken from others. -/
def relined (content : List UInt8) : List FileSetAction :=
  [.add "a.mid" none 2, .record 0 (.setLinesOf content)]

theorem after_relined (content : List UInt8) : (after (relined content)).set.files[0]? =
    some (SourceFile.setLinesOfBytes ⟨"a.mid", 1, 2, #[0], #[]⟩ content) :=
  rfl

/-- **Lines are not found in more bytes than a file may have.**  The offset of the second newline is
counted from 0 again, and the table that is left does not increase. -/
theorem lines_not_increasing :
    ∃ f, (after (relined (linesApart (positionBound - 1)))).set.files[0]? = some f ∧
      f.lines.toList = [0, 1, 1] ∧ ¬ f.lines.toList.Pairwise (· < ·) := by
  have hlines : (SourceFile.setLinesOfBytes ⟨"a.mid", 1, 2, #[0], #[]⟩
      (linesApart (positionBound - 1))).lines.toList = [0, 1, 1] := by
    unfold SourceFile.setLinesOfBytes
    rw [lineStartsInBytes_linesApart]
    decide
  refine ⟨_, after_relined _, hlines, ?_⟩
  rw [hlines]
  decide

end FileLookup

end Idl
