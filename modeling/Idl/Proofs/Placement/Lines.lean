/-
Idl/Proofs/Placement/Lines.lean

The lines of a source.

A source that is read from a position on has its lines there (`Source.fileAt`).  The line of a position
is one more than the number of newlines in front of it, counted in bytes (`Source.lineOf_fileAt`) or in
characters (`Source.lineOf_offset`), and outside of the source there are no lines.
-/
import Idl.Proofs.Messages
import Idl.Proofs.Token.Lines

namespace Idl

namespace Source

variable (s : Source) {base : Pos}

/-- The file of a source that stands at `base`, with its lines. -/
def fileAt (base : Pos) : SourceFile :=
  (SourceFile.scan { name := s.name, base := base, size := s.text.utf8ByteSize } s.text).2

theorem fileAt_eq (base : Pos) : (s.fileAt base).name = s.name ∧ (s.fileAt base).base = base ∧
    (s.fileAt base).size = s.text.utf8ByteSize :=
  SourceFile.foldl_addLine ..

theorem length_bytesOf : (bytesOf s.text).length = s.text.utf8ByteSize := by
  rw [bytesOf_eq, length_utf8, utf8ByteSize_eq]

theorem hasLinesOf_fileAt (base : Pos) : (s.fileAt base).HasLinesOf (bytesOf s.text) :=
  SourceFile.hasLinesOf_scan rfl s.length_bytesOf.symm

theorem hasLinesOf : s.alone.source.HasLinesOf (bytesOf s.text) := s.hasLinesOf_fileAt 1

theorem lined_fileAt (base : Pos) : (s.fileAt base).Lined :=
  SourceFile.Lined.foldl ⟨rfl, rfl⟩ _

/-- The line of a position in a source is one more than the number of newlines before it. -/
theorem lineOf_fileAt (hbase : base ≠ 0) {offset : Nat} (h : offset ≤ (bytesOf s.text).length) :
    (s.fileAt base).lineOf (base + offset) =
      1 + ((bytesOf s.text).take offset).count newlineByte := by
  obtain ⟨-, hfile, hsize⟩ := s.fileAt_eq base
  have howned : (s.fileAt base).Owns (base + offset) := by
    rw [SourceFile.owns_iff, hfile, hsize, ← s.length_bytesOf]
    unfold Pos at *
    omega
  have hline := SourceFile.lineNumber_eq (s.hasLinesOf_fileAt base) h
  rw [← hline]
  refine (congrArg Position.line ((s.lined_fileAt base).position_eq howned)).trans ?_
  rw [hfile, Nat.add_sub_cancel_left]
  rfl

/-- A position outside of a source has no line in it. -/
theorem lineOf_outside {p : Pos} (h : p < base ∨ base + s.text.utf8ByteSize < p) :
    (s.fileAt base).lineOf p = 0 := by
  obtain ⟨-, hfile, hsize⟩ := s.fileAt_eq base
  have hnone : (s.fileAt base).contains p = false := by
    unfold SourceFile.contains
    rw [hfile, hsize, Bool.and_eq_false_iff, decide_eq_false_iff_not, decide_eq_false_iff_not]
    unfold Pos at *
    omega
  unfold SourceFile.lineOf SourceFile.position
  rw [hnone, Bool.and_false]
  rfl

/-- The line of a place in a source is one more than the number of newlines in front of it, wherever the
source stands. -/
theorem lineOf_behind (hbase : base ≠ 0) {before after : List Char}
    (h : s.text.toList = before ++ after) :
    (s.fileAt base).lineOf (base + byteWidth before) = 1 + before.count '\n' := by
  have hbytes : bytesOf s.text = utf8 before ++ utf8 after := by
    rw [bytesOf_eq, h, utf8_append]
  have hoffset : byteWidth before ≤ (bytesOf s.text).length := by
    rw [hbytes, List.length_append, length_utf8]
    exact Nat.le_add_right ..
  rw [s.lineOf_fileAt hbase hoffset, hbytes, ← length_utf8 before, List.take_left,
    count_newlineByte]

/-- The line of a place in a source that stands alone. -/
theorem lineOf_offset {before after : List Char} (h : s.text.toList = before ++ after) :
    s.alone.source.lineOf (1 + byteWidth before) = 1 + before.count '\n' :=
  s.lineOf_behind Nat.one_ne_zero h

/-- Later positions in a source are on later lines, or on the same. -/
theorem lineOf_mono (hbase : base ≠ 0) {p q : Pos} (hp : base ≤ p) (hpq : p ≤ q)
    (hq : q ≤ base + s.text.utf8ByteSize) : (s.fileAt base).lineOf p ≤ (s.fileAt base).lineOf q := by
  obtain ⟨m, rfl⟩ := Nat.exists_eq_add_of_le hp
  obtain ⟨n, rfl⟩ := Nat.exists_eq_add_of_le hpq
  rw [Nat.add_assoc] at hq ⊢
  have hle := Nat.le_of_add_le_add_left hq
  rw [← s.length_bytesOf] at hle
  rw [s.lineOf_fileAt hbase (Nat.le_trans (Nat.le_add_right m n) hle), s.lineOf_fileAt hbase hle]
  exact Nat.add_le_add_left ((List.take_sublist_take_left (Nat.le_add_right m n)).count_le _) 1

end Source

end Idl
