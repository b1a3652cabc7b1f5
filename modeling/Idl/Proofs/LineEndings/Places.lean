/-
Idl/Proofs/LineEndings/Places.lean

Positions in sources with carriage returns.

Sources are read one behind the other, so a position moves up by as many bytes as there are newlines
before it, in its own source and in all sources before that (`stretch`).  The line of a position is one
more than the number of newlines before it in its source, and no newline comes or goes, so a position that
has moved is on the line where it was (`lineOf_stretched`).
-/
import Idl.Proofs.LineEndings.Scan
import Idl.Proofs.Respelling.Sources

namespace Idl

/-! ### Bytes -/

/-- Bytes with a carriage return in front of every newline. -/
def crlfBytes (bs : List UInt8) : List UInt8 :=
  bs.flatMap fun b => if b = newlineByte then [13, b] else [b]

theorem crlfBytes_append (xs ys : List UInt8) :
    crlfBytes (xs ++ ys) = crlfBytes xs ++ crlfBytes ys := List.flatMap_append

theorem crlfBytes_newline (bs : List UInt8) :
    crlfBytes (newlineByte :: bs) = 13 :: newlineByte :: crlfBytes bs := rfl

theorem crlfBytes_cons {b : UInt8} (hb : b ≠ newlineByte) (bs : List UInt8) :
    crlfBytes (b :: bs) = b :: crlfBytes bs := by
  unfold crlfBytes
  rw [List.flatMap_cons, if_neg hb]
  rfl

theorem utf8_crlf (cs : List Char) : utf8 (crlf cs) = crlfBytes (utf8 cs) := by
  induction cs with
  | nil => rfl
  | cons c cs ih =>
    by_cases hc : c = '\n'
    · subst hc
      rw [crlf_newline, utf8_cons, utf8_cons, ih]
      rfl
    · have hself {bs : List UInt8} (h : newlineByte ∉ bs) : crlfBytes bs = bs := by
        induction bs with
        | nil => rfl
        | cons b bs ih =>
          rw [List.mem_cons, not_or] at h
          rw [crlfBytes_cons (Ne.symm h.1), ih h.2]
      rw [crlf_cons hc, utf8_cons, utf8_cons, crlfBytes_append, ih, hself (newlineByte_not_mem hc)]

/-- As many bytes are put as there are newlines, and none of them is lost. -/
theorem crlfBytes_counts (bs : List UInt8) :
    (crlfBytes bs).length = bs.length + bs.count newlineByte ∧
      (crlfBytes bs).count newlineByte = bs.count newlineByte := by
  have hreturn : (13 : UInt8) ≠ newlineByte := by decide
  induction bs with
  | nil => exact ⟨rfl, rfl⟩
  | cons b bs ih =>
    obtain ⟨hlength, hcount⟩ := ih
    by_cases hb : b = newlineByte
    · subst hb
      rw [crlfBytes_newline, List.count_cons_of_ne hreturn, List.count_cons_self,
        List.count_cons_self, hcount]
      rw [List.length_cons, List.length_cons, hlength, List.length_cons]
      exact ⟨by omega, rfl⟩
    · rw [crlfBytes_cons hb, List.count_cons_of_ne hb, List.count_cons_of_ne hb, hcount]
      rw [List.length_cons, List.length_cons, hlength]
      exact ⟨by omega, rfl⟩

/-- What stands before an offset, with carriage returns. -/
theorem take_crlfBytes {bs : List UInt8} {offset : Nat} (h : offset ≤ bs.length) :
    (crlfBytes bs).take (offset + (bs.take offset).count newlineByte) =
      crlfBytes (bs.take offset) := by
  have hparts := crlfBytes_append (bs.take offset) (bs.drop offset)
  rw [List.take_append_drop] at hparts
  rw [hparts]
  refine List.take_left' ?_
  rw [(crlfBytes_counts _).1, List.length_take_of_le h]

/-! ### Positions -/

/-- Where a position goes when carriage returns are put in front of the newlines of `bytes`, of which the
first one has the position 1. -/
def stretch (bytes : List UInt8) (p : Pos) : Pos := p + (bytes.take (p - 1)).count newlineByte

theorem stretch_strictMono (bytes : List UInt8) : StrictMono (stretch bytes) := by
  intro p q hlt
  have hle : p - 1 ≤ q - 1 := Nat.sub_le_sub_right (Nat.le_of_lt hlt) 1
  have hcount := (List.take_prefix_take_left (l := bytes) hle).sublist.count_le newlineByte
  exact Nat.add_lt_add_of_lt_of_le hlt hcount

/-- Positions of bytes at `base` go where the bytes stand with carriage returns at `base'`. -/
def StretchesBytes (φ : Pos → Pos) (base base' : Pos) (bytes : List UInt8) : Prop :=
  ∀ offset ≤ bytes.length,
    φ (base + offset) = base' + (offset + (bytes.take offset).count newlineByte)

theorem stretch_middle (before bytes after : List UInt8) :
    StretchesBytes (stretch (before ++ (bytes ++ after))) (1 + before.length)
      (1 + before.length + before.count newlineByte) bytes := by
  intro offset h
  have htake : (before ++ (bytes ++ after)).take (before.length + offset) =
      before ++ bytes.take offset := by
    rw [List.take_length_add_append, List.take_append_of_le_length h]
  have hplace : 1 + before.length + offset - 1 = before.length + offset := by
    rw [Nat.add_assoc, Nat.add_sub_cancel_left]
  unfold stretch
  rw [hplace, htake, List.count_append]
  unfold Pos
  omega

/-- What holds of the bytes of a text holds of its characters. -/
theorem StretchesBytes.chars {φ : Pos → Pos} {base base' : Pos} {cs : List Char}
    (h : StretchesBytes φ base base' (utf8 cs)) : Stretches φ base base' cs := by
  rintro xs ys rfl
  have hlength : byteWidth xs = (utf8 xs).length := (length_utf8 xs).symm
  have hplace := h (byteWidth xs) (by rw [utf8_append, List.length_append, hlength]; omega)
  rw [utf8_append, hlength, List.take_left, count_newlineByte, ← hlength] at hplace
  rw [byteWidth_crlf]
  exact hplace

/-! ### Lines -/

namespace Source

variable (s : Source) {base : Pos}

theorem bytesOf_crlf : bytesOf s.crlf.text = crlfBytes (bytesOf s.text) := by
  rw [bytesOf_eq, bytesOf_eq, ← utf8_crlf]
  exact congrArg utf8 (toList_onChars Idl.crlf s.text)

/-- A position that has moved is on the line where it was. -/
theorem lineOf_stretched {φ : Pos → Pos} {base' : Pos} (hbase : base ≠ 0) (hbase' : base' ≠ 0)
    (hmono : StrictMono φ) (h : StretchesBytes φ base base' (bytesOf s.text)) (p : Pos) :
    (s.crlf.fileAt base').lineOf (φ p) = (s.fileAt base).lineOf p := by
  have hsize : s.crlf.text.utf8ByteSize =
      s.text.utf8ByteSize + (bytesOf s.text).count newlineByte := by
    rw [← s.crlf.length_bytesOf, bytesOf_crlf, (crlfBytes_counts _).1, s.length_bytesOf]
  have hstart : φ base = base' := h 0 (Nat.zero_le _)
  have hstop : φ (base + s.text.utf8ByteSize) = base' + s.crlf.text.utf8ByteSize := by
    rw [← s.length_bytesOf, h _ (Nat.le_refl _), List.take_length, s.length_bytesOf, hsize]
  -- in front of the source, behind it, and in it
  rcases Nat.lt_or_ge p base with hlt | hge
  · have hbefore : φ p < base' := hstart ▸ hmono hlt
    rw [s.lineOf_outside (.inl hlt), s.crlf.lineOf_outside (.inl hbefore)]
  rcases Nat.lt_or_ge (base + s.text.utf8ByteSize) p with hlt | hle
  · have hbehind : base' + s.crlf.text.utf8ByteSize < φ p := hstop ▸ hmono hlt
    rw [s.lineOf_outside (.inr hlt), s.crlf.lineOf_outside (.inr hbehind)]
  obtain ⟨offset, rfl⟩ := Nat.exists_eq_add_of_le hge
  have ho : offset ≤ (bytesOf s.text).length := by
    rw [s.length_bytesOf]
    exact Nat.le_of_add_le_add_left hle
  have ho' : offset + ((bytesOf s.text).take offset).count newlineByte ≤
      (bytesOf s.crlf.text).length := by
    have hcount := (List.take_sublist offset (bytesOf s.text)).count_le newlineByte
    rw [bytesOf_crlf, (crlfBytes_counts _).1]
    omega
  have hplace := h offset ho
  rw [hplace, s.crlf.lineOf_fileAt hbase' ho', s.lineOf_fileAt hbase ho, bytesOf_crlf,
    take_crlfBytes ho, (crlfBytes_counts _).2]

end Source

end Idl
