/-
Idl/Proofs/Positions.lean

From offsets to positions and back.

A file set may be used in any order: files are registered where the caller wishes or behind each
other, each is read in its turn, and all the while it is asked for places (`FileSession`).  Looking
at the file found last first changes no answer (`FileLookup.fileIdAt?_eq`), since no two files own
one position.  So the position of an offset of a file that has been read leads back to that file, that
offset, and the line and the column that the bytes of its text say (`position_pos`).
-/
import Idl.Proofs.Messages
import Idl.Proofs.Token.Lines

namespace Idl

/-! ### Looking at the file found last first -/

namespace FileLookup

variable {l : FileLookup}

/-- Asking for a position changes no file. -/
@[simp] theorem fileIdAt?_set (l : FileLookup) (p : Pos) : (l.fileIdAt? p).2.set = l.set := by
  unfold fileIdAt?
  split
  · rfl
  · split <;> rfl

/-- The file found last is the file of the position, if it owns it. -/
theorem recent?_eq (h : l.set.Ordered) {p : Pos} {id : FileId} (hid : l.recent? p = some id) :
    l.set.fileIdAt? p = some id := by
  obtain ⟨-, hany⟩ := Option.filter_eq_some_iff.1 hid
  obtain ⟨f, hf, howns⟩ := (Option.any_eq_true _ _).1 hany
  rw [Bool.and_eq_true] at howns
  exact h.fileIdAt? hf ⟨bne_iff_ne.1 howns.1, howns.2⟩

/-- Looking at the file found last first changes no answer. -/
theorem fileIdAt?_eq (h : l.set.Ordered) (p : Pos) : (l.fileIdAt? p).1 = l.set.fileIdAt? p := by
  unfold fileIdAt?
  split
  · next id hid => exact (recent?_eq h hid).symm
  · split
    · next id hid => exact hid.symm
    · next hid => exact hid.symm

/-- Places are those that the files alone give. -/
theorem position_eq (h : l.set.Ordered) (p : Pos) : (l.position p).1 = l.set.position p := by
  show (((l.fileIdAt? p).1.bind fun id => (l.fileIdAt? p).2.set.files[id]?).map
    fun f => f.position p).getD Position.unknown = _
  rw [fileIdAt?_eq h, fileIdAt?_set]
  unfold FileSet.position FileSet.fileAt?
  cases (l.set.fileIdAt? p).bind fun id => l.set.files[id]? with
  | none => rfl
  | some f => rfl

end FileLookup

/-! ### Registering and changing files -/

namespace FileSet

variable {fs : FileSet}

/-- A file that is registered stands behind all others, with its first line only, and its positions
are words of 32 bits. -/
theorem addFile_ok {name : String} {base? : Option Pos} {size : Nat} {id : FileId} {fs' : FileSet}
    (h : fs.addFile name base? size = .ok (id, fs')) :
    ∃ base, fs.next ≤ base ∧ base + size + 1 < positionBound ∧
      fs' = ⟨base + size + 1, fs.files.push { name := name, base := base, size := size }⟩ := by
  unfold addFile at h
  dsimp only at h
  split at h
  · cases h
  · next hbase =>
    split at h
    · cases h
    · next hroom =>
      exact ⟨base?.getD fs.next, Nat.le_of_not_lt hbase, Nat.lt_of_not_le hroom,
        (Prod.mk.inj (Except.ok.inj h)).2.symm⟩

/-- Changing lines moves no file. -/
theorem Ordered.modifyFile (h : fs.Ordered) (id : FileId) {change : SourceFile → SourceFile}
    (hchange : ∀ f, (change f).base = f.base ∧ (change f).size = f.size) :
    (fs.modifyFile id change).Ordered := by
  have hcases {i : FileId} {g : SourceFile} (hi : (fs.modifyFile id change).files[i]? = some g) :
      ∃ f, fs.files[i]? = some f ∧ g.base = f.base ∧ g.size = f.size := by
    have hi : (fs.files.modify id change)[i]? = some g := hi
    rw [Array.getElem?_modify] at hi
    split at hi
    · obtain ⟨f, hf, rfl⟩ := Option.map_eq_some_iff.1 hi
      exact ⟨f, hf, hchange f⟩
    · exact ⟨g, hi, rfl, rfl⟩
  constructor
  · intro i j f g hi hj hij
    obtain ⟨f', hf', hbase, hsize⟩ := hcases hi
    obtain ⟨g', hg', hbase', -⟩ := hcases hj
    rw [hbase, hsize, hbase']
    exact h.apart hf' hg' hij
  · intro i f hi
    obtain ⟨f', hf', hbase, hsize⟩ := hcases hi
    rw [hbase, hsize]
    exact h.below hf'

end FileSet

/-! ### Sessions -/

/-- A file that has been registered: its name, the text that it is read from, and whether it has been
read. -/
structure Registered where
  name : String
  text : String
  read : Bool := false
  deriving DecidableEq

/-- What a caller can do with a file set. -/
inductive FileAction where
  /-- Registers a file for a text, at a base or at the first free position. -/
  | register (name : String) (base? : Option Pos) (text : String)
  /-- Reads the tokens of a file. -/
  | read (id : FileId)
  /-- Asks for the place of a position. -/
  | ask (p : Pos)

/-- A file set in use, with what has been registered in it. -/
structure FileSession where
  lookup : FileLookup := {}
  registered : Array Registered := #[]

namespace FileSession

/-- Does one thing with the file set.  A file that cannot be registered changes nothing. -/
def step (s : FileSession) : FileAction → FileSession
  | .register name base? text =>
    match s.lookup.addFile name base? text.utf8ByteSize with
    | .ok (_, l) => { lookup := l, registered := s.registered.push { name := name, text := text } }
    | .error _ => s
  | .read id =>
    match s.registered[id]? with
    | some r =>
      { lookup := s.lookup.modifyFile id fun f => (f.scan r.text).2
        registered := s.registered.modify id fun r => { r with read := true } }
    | none => s
  | .ask p => { s with lookup := (s.lookup.position p).2 }

/-- Does one thing after the other, from an empty file set on. -/
def run (actions : List FileAction) : FileSession := actions.foldl step {}

end FileSession

/-- A file is as it was registered, and knows the lines of its text once it has been read. -/
structure SourceFile.Keeps (f : SourceFile) (r : Registered) : Prop where
  name : f.name = r.name
  base : f.base ≠ 0
  size : f.size = (bytesOf r.text).length
  room : f.size < positionBound
  plain : f.remappings = #[]
  lines : if r.read then f.HasLinesOf (bytesOf r.text) else f.lines = #[0]

theorem SourceFile.Keeps.lined {f : SourceFile} {r : Registered} (h : f.Keeps r) : f.Lined := by
  have hlines := h.lines
  refine ⟨?_, h.plain⟩
  split at hlines
  · rw [hlines]
    rfl
  · rw [hlines]
    rfl

/-- Reading a file keeps everything but its lines. -/
theorem SourceFile.Keeps.scan {f : SourceFile} {r : Registered} (h : f.Keeps r) :
    (f.scan r.text).2.Keeps { r with read := true } := by
  obtain ⟨hname, hbase, hsize⟩ := f.foldl_addLine (scanSource f.base r.text).lineStarts
  have hlines := h.lines
  refine ⟨hname.trans h.name, fun hzero => h.base (hbase.symm.trans hzero), hsize.trans h.size,
    Nat.lt_of_le_of_lt (Nat.le_of_eq hsize) h.room, (h.lined.foldl _).plain, ?_⟩
  show (f.scan r.text).2.HasLinesOf (bytesOf r.text)
  split at hlines
  · rw [SourceFile.HasLinesOf.scan hlines]
    exact hlines
  · exact SourceFile.hasLinesOf_scan hlines h.size

namespace FileSession

/-- What holds of a file set in use. -/
structure Sound (s : FileSession) : Prop where
  ordered : s.lookup.set.Ordered
  next : s.lookup.set.next ≠ 0
  files : s.lookup.set.files.size = s.registered.size
  keeps : ∀ {id : FileId} {f : SourceFile} {r : Registered}, s.lookup.set.files[id]? = some f →
    s.registered[id]? = some r → f.Keeps r

theorem sound_empty : Sound {} :=
  ⟨FileSet.empty_ordered, Nat.one_ne_zero, rfl, fun h => by simp at h⟩

/-- A file that is registered is as it was registered. -/
theorem Sound.register {s : FileSession} (h : s.Sound) {name : String} {base? : Option Pos}
    {text : String} {id : FileId} {l : FileLookup}
    (hl : s.lookup.addFile name base? text.utf8ByteSize = .ok (id, l)) :
    Sound { lookup := l, registered := s.registered.push { name := name, text := text } } := by
  obtain ⟨fs, hadd, rfl⟩ : ∃ fs, s.lookup.set.addFile name base? text.utf8ByteSize = .ok (id, fs) ∧
      l = ⟨fs, some id⟩ := by
    unfold FileLookup.addFile at hl
    cases hadd : s.lookup.set.addFile name base? text.utf8ByteSize with
    | error e => rw [hadd] at hl; cases hl
    | ok added =>
      rw [hadd] at hl
      obtain ⟨rfl, rfl⟩ := Prod.mk.inj (Except.ok.inj hl)
      exact ⟨_, rfl, rfl⟩
  obtain ⟨base, hbase, hroom, rfl⟩ := FileSet.addFile_ok hadd
  have hword : text.utf8ByteSize < positionBound :=
    Nat.lt_of_le_of_lt (Nat.le_trans (Nat.le_add_left _ base) (Nat.le_succ _)) hroom
  have hsize : text.utf8ByteSize = (bytesOf text).length := by
    rw [bytesOf_eq, length_utf8, utf8ByteSize_eq]
  have hordered := h.ordered.push (f := { name := name, base := base, size := text.utf8ByteSize })
    hbase
  refine ⟨hordered, Nat.succ_ne_zero _, ?_, fun {i f r} hf hr => ?_⟩
  · show (s.lookup.set.files.push _).size = (s.registered.push _).size
    rw [Array.size_push, Array.size_push, h.files]
  · have hf : (s.lookup.set.files.push _)[i]? = some f := hf
    have hr : (s.registered.push _)[i]? = some r := hr
    rw [Array.getElem?_push] at hf hr
    -- the new file is the last one, on both sides
    by_cases hi : i = s.registered.size
    · rw [if_pos (hi.trans h.files.symm)] at hf
      rw [if_pos hi] at hr
      cases hf
      cases hr
      exact ⟨rfl, fun hzero => h.next (Nat.le_zero.1 (hzero ▸ hbase)), hsize, hword, rfl, rfl⟩
    · rw [if_neg fun heq => hi (heq.trans h.files)] at hf
      rw [if_neg hi] at hr
      exact h.keeps hf hr

/-- A file that is read knows the lines of its text. -/
theorem Sound.read {s : FileSession} (h : s.Sound) {id : FileId} {r : Registered}
    (hr : s.registered[id]? = some r) :
    Sound { lookup := s.lookup.modifyFile id fun f => (f.scan r.text).2
            registered := s.registered.modify id fun r => { r with read := true } } := by
  refine ⟨h.ordered.modifyFile id fun f => (f.foldl_addLine _).2, h.next, ?_, fun {i f r'} hf hr' => ?_⟩
  · show (s.lookup.set.files.modify id _).size = (s.registered.modify id _).size
    rw [Array.size_modify, Array.size_modify, h.files]
  · have hf : (s.lookup.set.files.modify id _)[i]? = some f := hf
    have hr' : (s.registered.modify id _)[i]? = some r' := hr'
    rw [Array.getElem?_modify] at hf hr'
    by_cases hi : id = i
    · rw [if_pos hi] at hf hr'
      obtain ⟨g, hg, rfl⟩ := Option.map_eq_some_iff.1 hf
      obtain ⟨r'', hr'', rfl⟩ := Option.map_eq_some_iff.1 hr'
      obtain rfl : r = r'' := Option.some.inj (hr.symm.trans (hi ▸ hr''))
      exact (h.keeps hg hr'').scan
    · rw [if_neg hi] at hf hr'
      exact h.keeps hf hr'

/-- Whatever is done with a file set, its files stay as they were registered. -/
theorem Sound.step {s : FileSession} (h : s.Sound) (a : FileAction) : (s.step a).Sound := by
  cases a with
  | register name base? text =>
    unfold FileSession.step
    dsimp only
    split
    · next id l hl => exact h.register hl
    · exact h
  | read id =>
    unfold FileSession.step
    dsimp only
    split
    · next r hr => exact h.read hr
    · exact h
  | ask p =>
    -- only which file was found last has changed
    have hset : (s.lookup.position p).2.set = s.lookup.set := s.lookup.fileIdAt?_set p
    refine ⟨?_, ?_, ?_, fun {i f r} hf hr => ?_⟩
    · exact hset ▸ h.ordered
    · exact hset ▸ h.next
    · exact hset ▸ h.files
    · exact h.keeps (hset ▸ hf) hr

theorem sound_run (actions : List FileAction) : (run actions).Sound := by
  have hfoldl {s : FileSession} (h : s.Sound) : (actions.foldl FileSession.step s).Sound := by
    induction actions generalizing s with
    | nil => exact h
    | cons a actions ih => exact ih (h.step a)
  exact hfoldl sound_empty

/-- **From offsets to positions and back.**  However a file set was used, and whatever it was asked
before: every offset of a file that has been read has a position, whose place has the name of the
file, the offset, and the line and the column that the bytes of the text say.  The line table of the
file is the one that is taken from these bytes. -/
theorem position_pos (actions : List FileAction) {id : FileId} {r : Registered}
    (hr : (run actions).registered[id]? = some r) (hread : r.read = true) {offset : Nat}
    (ho : offset ≤ (bytesOf r.text).length) :
    ∃ f p, (run actions).lookup.set.files[id]? = some f ∧ f.pos? offset = some p ∧
      ((run actions).lookup.position p).1 =
        { filename := r.name
          offset := offset
          line := 1 + ((bytesOf r.text).take offset).count newlineByte
          column := offset - lineStartOf (bytesOf r.text) offset + 1 } ∧
      f.lines = (f.setLinesOfBytes (bytesOf r.text)).lines := by
  have hsound := sound_run actions
  have hid : id < (run actions).lookup.set.files.size := by
    rw [hsound.files]
    exact (Array.getElem?_eq_some_iff.1 hr).1
  obtain ⟨f, hf⟩ : ∃ f, (run actions).lookup.set.files[id]? = some f :=
    ⟨_, Array.getElem?_eq_getElem hid⟩
  have hkeeps := hsound.keeps hf hr
  have hlines : f.HasLinesOf (bytesOf r.text) := by
    have hlines := hkeeps.lines
    rwa [if_pos hread] at hlines
  have hpos : f.pos? offset = some (f.base + offset) := if_pos (hkeeps.size ▸ ho)
  have howns : f.Owns (f.base + offset) := by
    refine ⟨fun hzero => hkeeps.base (Nat.eq_zero_of_add_eq_zero_right hzero), ?_⟩
    unfold SourceFile.contains
    rw [hkeeps.size]
    simp only [Bool.and_eq_true, decide_eq_true_eq]
    exact ⟨Nat.le_add_right .., Nat.add_le_add_left ho _⟩
  have htable : f.lines = (f.setLinesOfBytes (bytesOf r.text)).lines := by
    unfold SourceFile.setLinesOfBytes
    rw [lineStartsInBytes_words (hkeeps.size ▸ hkeeps.room)]
    exact hlines
  refine ⟨f, f.base + offset, hf, hpos, ?_, htable⟩
  rw [FileLookup.position_eq hsound.ordered, hsound.ordered.position hf howns,
    hkeeps.lined.position_eq howns, Nat.add_sub_cancel_left]
  unfold SourceFile.unadjustedPlace
  rw [SourceFile.lineNumber_eq hlines ho, SourceFile.column_eq hlines ho, hkeeps.name]

/-- Two files, the second of which is given a base and is read first.  The first one has a newline in
a raw string and one in a comment. -/
def twoFiles : List FileAction :=
  [.register "a.mid" none "`\n` /*\n*/ x", .ask 4, .register "b.mid" (some 100) "\n", .read 1,
    .ask 100, .read 0, .ask 3]

/-- The identifier at the end of the first file stands on the third line. -/
theorem position_pos_twoFiles : ∃ f p, (run twoFiles).lookup.set.files[0]? = some f ∧
    f.pos? 10 = some p ∧ ((run twoFiles).lookup.position p).1 = ⟨"a.mid", 10, 3, 4⟩ ∧
    f.lines = #[0, 2, 7] := by
  have hr : (run twoFiles).registered[0]? = some ⟨"a.mid", "`\n` /*\n*/ x", true⟩ := by
    decide +kernel
  have ho : 10 ≤ (bytesOf "`\n` /*\n*/ x").length := by decide +kernel
  obtain ⟨f, p, hf, hp, hplace, hlines⟩ := position_pos twoFiles hr rfl ho
  refine ⟨f, p, hf, hp, hplace.trans ?_, hlines.trans ?_⟩
  · decide +kernel
  · show (0 :: (lineStartsInBytes 0 (bytesOf "`\n` /*\n*/ x")).map _).toArray = _
    decide +kernel

end FileSession

end Idl
