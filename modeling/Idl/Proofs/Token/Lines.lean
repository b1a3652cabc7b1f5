/-
Idl/Proofs/Token/Lines.lean

The lines of a text.

Lines are found in two ways: byte by byte, and by the reader of tokens, who notes each newline that
he comes by.  Both find the same (`lineStartsRead_eq`), since the newline is the only character in
whose UTF-8 form the byte of the newline occurs.  A file that records the lines of its text therefore
counts them as the bytes of the text say: the line of an offset is one more than the number of
newlines before it (`SourceFile.lineNumber_eq`), and its column is one more than the number of bytes
since the last of them (`SourceFile.column_eq`).
-/
import Idl.Syntax.File
import Mathlib.Data.List.Induction

namespace Idl

/-! ### Newlines in bytes -/

/-- The byte of the newline. -/
def newlineByte : UInt8 := 10

/-- The byte of the newline occurs in no other character. -/
theorem newlineByte_not_mem {c : Char} (hc : c ≠ '\n') :
    newlineByte ∉ String.utf8EncodeChar c := by
  have hval : c.val.toNat ≠ 10 := by
    intro h
    apply hc
    exact Char.ext (UInt32.toNat_inj.1 h)
  -- all bytes of a character that takes more than one are large
  have hlarge {n : Nat} (hn : n % 256 ≠ 10) : newlineByte ≠ UInt8.ofNat n := by
    intro h
    apply hn
    exact (congrArg UInt8.toNat h).symm
  unfold String.utf8EncodeChar
  dsimp only
  split
  · exact fun h => hlarge (by omega) (List.mem_singleton.1 h)
  split
  · simp only [List.mem_cons, List.not_mem_nil, or_false, not_or]
    exact ⟨hlarge (by omega), hlarge (by omega)⟩
  split
  · simp only [List.mem_cons, List.not_mem_nil, or_false, not_or]
    exact ⟨hlarge (by omega), hlarge (by omega), hlarge (by omega)⟩
  · simp only [List.mem_cons, List.not_mem_nil, or_false, not_or]
    exact ⟨hlarge (by omega), hlarge (by omega), hlarge (by omega), hlarge (by omega)⟩

/-- There are as many bytes of newlines as there are newlines. -/
theorem count_newlineByte (cs : List Char) : (utf8 cs).count newlineByte = cs.count '\n' := by
  induction cs with
  | nil => rfl
  | cons c cs ih =>
    rw [utf8_cons, List.count_append, ih, List.count_cons, Nat.add_comm]
    congr 1
    by_cases hc : c = '\n'
    · rw [hc]
      rfl
    · rw [List.count_eq_zero.2 (newlineByte_not_mem hc), if_neg fun h => hc (beq_iff_eq.1 h)]

/-! ### Line starts -/

theorem lineStartsInBytes_append (start : Nat) (xs ys : List UInt8) :
    lineStartsInBytes start (xs ++ ys) =
      lineStartsInBytes start xs ++ lineStartsInBytes (start + xs.length) ys := by
  induction xs generalizing start with
  | nil => rfl
  | cons x xs ih =>
    have hlength : start + (x :: xs).length = start + 1 + xs.length := by
      rw [List.length_cons, Nat.add_assoc, Nat.add_comm 1]
    rw [hlength, List.cons_append, lineStartsInBytes, lineStartsInBytes]
    split
    · rw [ih, List.cons_append]
    · exact ih _

/-- A line starts behind each newline. -/
theorem length_lineStartsInBytes (start : Nat) (xs : List UInt8) :
    (lineStartsInBytes start xs).length = xs.count newlineByte := by
  induction xs generalizing start with
  | nil => rfl
  | cons x xs ih =>
    rw [lineStartsInBytes, List.count_cons]
    split
    · next h => rw [List.length_cons, ih, h]; rfl
    · next h =>
      have hne : ¬ (x == newlineByte) = true := fun heq => h (eq_of_beq heq)
      rw [ih, if_neg hne, Nat.add_zero]

/-- Lines start behind each other, and none behind the end of the text. -/
theorem lineStartsInBytes_within (start : Nat) (xs : List UInt8) :
    (start :: lineStartsInBytes start xs).Pairwise (· < ·) ∧
      ∀ l ∈ lineStartsInBytes start xs, start < l ∧ l ≤ start + xs.length := by
  induction xs generalizing start with
  | nil => exact ⟨List.pairwise_singleton .., fun l hl => absurd hl List.not_mem_nil⟩
  | cons x xs ih =>
    obtain ⟨hpair, hwithin⟩ := ih (start + 1)
    have hlater {l : Nat} (hl : l ∈ lineStartsInBytes start (x :: xs)) :
        start < l ∧ l ≤ start + (x :: xs).length := by
      rw [List.length_cons]
      have hcases : l = start + 1 ∨ l ∈ lineStartsInBytes (start + 1) xs := by
        rw [lineStartsInBytes] at hl
        split at hl
        · exact List.mem_cons.1 hl
        · exact .inr hl
      rcases hcases with rfl | hl
      · omega
      · have := hwithin l hl
        omega
    refine ⟨List.pairwise_cons.2 ⟨fun l hl => (hlater hl).1, ?_⟩, fun l hl => hlater hl⟩
    rw [lineStartsInBytes]
    split
    · exact hpair
    · exact (List.pairwise_cons.1 hpair).2

theorem toNat_toUInt32 {n : Nat} (h : n < positionBound) : n.toUInt32.toNat = n :=
  Nat.mod_eq_of_lt h

/-- In as many bytes as a file may have, line starts are words of 32 bits. -/
theorem lineStartsInBytes_words {xs : List UInt8} (h : xs.length < positionBound) :
    (lineStartsInBytes 0 xs).map (fun n => n.toUInt32.toNat) = lineStartsInBytes 0 xs := by
  refine (List.map_congr_left fun n hn => toNat_toUInt32 ?_).trans (List.map_id _)
  have hle := ((lineStartsInBytes_within 0 xs).2 n hn).2
  omega

/-- The newlines among the characters are those among the bytes. -/
theorem lineStartsFrom_eq (start : Nat) (cs : List Char) :
    lineStartsFrom start cs = lineStartsInBytes start (utf8 cs) := by
  induction cs generalizing start with
  | nil => rfl
  | cons c cs ih =>
    rw [utf8_cons, lineStartsInBytes_append, String.length_utf8EncodeChar, ← ih, lineStartsFrom]
    split
    · next h =>
      rw [h]
      rfl
    · next h =>
      have hnone : lineStartsInBytes start (String.utf8EncodeChar c) = [] := by
        rw [← List.length_eq_zero_iff, length_lineStartsInBytes]
        exact List.count_eq_zero.2 (newlineByte_not_mem h)
      rw [hnone]
      rfl

theorem lineStartsFrom_append (start : Nat) (cs ds : List Char) : lineStartsFrom start (cs ++ ds) =
    lineStartsFrom start cs ++ lineStartsFrom (start + byteWidth cs) ds := by
  simp only [lineStartsFrom_eq, utf8_append, lineStartsInBytes_append, length_utf8]

/-- The reader of tokens comes by every newline, in order. -/
theorem lineStartsRead_eq (start : Nat) (cs : List Char) :
    lineStartsRead start cs = lineStartsFrom start cs := by
  fun_induction lineStartsRead start cs with
  | case1 => rfl
  | case2 start c cs hs ih =>
    rw [ih]
    exact (lineStartsFrom_append start [c] cs).symm
  | case3 start c cs hs more spelling ih =>
    have hcs : c :: cs = spelling ++ cs.drop more := by
      rw [List.cons_append, List.take_append_drop]
    rw [ih, hcs, lineStartsFrom_append]

/-! ### Places in lines -/

/-- The offset at which the line of an offset starts: right behind the last newline before it, or at
the start of the text. -/
def lineStartOf (bytes : List UInt8) (offset : Nat) : Nat :=
  offset - ((bytes.take offset).reverse.takeWhile (· ≠ newlineByte)).length

/-- The last line that starts in a text starts behind its last newline. -/
theorem getLast?_lineStartsInBytes (xs : List UInt8) :
    (0 :: lineStartsInBytes 0 xs).getLast? = some (lineStartOf xs xs.length) := by
  unfold lineStartOf
  rw [List.take_length]
  -- from the end, since only the last byte tells whether the line in front of it goes on
  induction xs using List.reverseRecOn with
  | nil => rfl
  | append_singleton xs x ih =>
    have hle := (List.takeWhile_prefix (p := (· ≠ newlineByte)) (l := xs.reverse)).length_le
    rw [List.length_reverse] at hle
    rw [lineStartsInBytes_append, ← List.cons_append, List.reverse_append, List.length_append,
      Nat.zero_add]
    show (_ ++ lineStartsInBytes xs.length [x]).getLast? =
      some (_ - (List.takeWhile _ (x :: xs.reverse)).length)
    by_cases hx : x = newlineByte
    · have hnew : lineStartsInBytes xs.length [x] = [xs.length + 1] := if_pos hx
      have htrailing : (x :: xs.reverse).takeWhile (· ≠ newlineByte) = [] :=
        List.takeWhile_cons_of_neg (by simp [hx])
      rw [hnew, htrailing, List.getLast?_concat]
      rfl
    · have hnone : lineStartsInBytes xs.length [x] = [] := if_neg hx
      have htrailing : (x :: xs.reverse).takeWhile (· ≠ newlineByte) =
          x :: xs.reverse.takeWhile (· ≠ newlineByte) :=
        List.takeWhile_cons_of_pos (decide_eq_true hx)
      rw [hnone, htrailing, List.append_nil, ih]
      simp only [List.length_cons, List.length_nil]
      congr 1
      omega

namespace SourceFile

/-- A file has recorded the lines of its text. -/
def HasLinesOf (f : SourceFile) (bytes : List UInt8) : Prop :=
  f.lines = (0 :: lineStartsInBytes 0 bytes).toArray

variable {f : SourceFile} {bytes : List UInt8}

/-- The line starts up to an offset are those in the text before it. -/
theorem HasLinesOf.splitsAt (h : f.HasLinesOf bytes) {offset : Nat} (ho : offset ≤ bytes.length) :
    SplitsAt (fun start => decide (start ≤ offset)) f.lines
      (1 + (bytes.take offset).count newlineByte) := by
  obtain ⟨xs, ys, rfl, rfl⟩ : ∃ xs ys, bytes = xs ++ ys ∧ offset = xs.length :=
    ⟨_, _, (List.take_append_drop offset bytes).symm, (List.length_take_of_le ho).symm⟩
  have hlines : f.lines.toList =
      0 :: (lineStartsInBytes 0 xs ++ lineStartsInBytes xs.length ys) := by
    rw [h, lineStartsInBytes_append, Nat.zero_add]
  have hbefore := (lineStartsInBytes_within 0 xs).2
  have hafter := (lineStartsInBytes_within xs.length ys).2
  have hcount := length_lineStartsInBytes 0 xs
  have hlength := congrArg List.length hlines
  simp only [Array.length_toList, List.length_cons, List.length_append, hcount] at hlength
  rw [List.take_left]
  -- the starts split where the text does: those in `xs` lie at most at its end, those in `ys` behind
  refine ⟨by omega, fun i hi => ?_⟩
  have hget : f.lines[i]? =
      (0 :: (lineStartsInBytes 0 xs ++ lineStartsInBytes xs.length ys))[i]? := by
    rw [← Array.getElem?_toList, hlines]
  rw [decide_eq_true_iff]
  rw [Array.getElem?_eq_getElem hi] at hget
  cases i with
  | zero =>
    rw [List.getElem?_cons_zero] at hget
    rw [Option.some.inj hget]
    omega
  | succ i =>
    rw [List.getElem?_cons_succ] at hget
    rcases Nat.lt_or_ge i (lineStartsInBytes 0 xs).length with hlt | hge
    · rw [List.getElem?_append_left hlt] at hget
      have := (hbefore _ (List.mem_of_getElem? hget.symm)).2
      omega
    · rw [List.getElem?_append_right hge] at hget
      have := (hafter _ (List.mem_of_getElem? hget.symm)).1
      omega

/-- The line of an offset is one more than the number of newlines before it. -/
theorem lineNumber_eq (h : f.HasLinesOf bytes) {offset : Nat} (ho : offset ≤ bytes.length) :
    f.lineNumber offset = 1 + (bytes.take offset).count newlineByte :=
  bisect_eq (h.splitsAt ho)

/-- The column of an offset counts from the start of its line. -/
theorem column_eq (h : f.HasLinesOf bytes) {offset : Nat} (ho : offset ≤ bytes.length) :
    f.column offset = offset - lineStartOf bytes offset + 1 := by
  have hstart : f.lines[f.lineNumber offset - 1]? = some (lineStartOf bytes offset) := by
    obtain ⟨xs, ys, rfl, rfl⟩ : ∃ xs ys, bytes = xs ++ ys ∧ offset = xs.length :=
      ⟨_, _, (List.take_append_drop offset bytes).symm, (List.length_take_of_le ho).symm⟩
    have hlast := getLast?_lineStartsInBytes xs
    have hsame : lineStartOf (xs ++ ys) xs.length = lineStartOf xs xs.length := by
      unfold lineStartOf
      rw [List.take_left, List.take_length]
    rw [lineNumber_eq h ho, List.take_left, Nat.add_sub_cancel_left, hsame, ← hlast, h,
      lineStartsInBytes_append, ← List.cons_append, List.getElem?_toArray,
      List.getElem?_append_left (by rw [List.length_cons, length_lineStartsInBytes]; omega),
      List.getLast?_eq_getElem?, List.length_cons, length_lineStartsInBytes, Nat.add_sub_cancel]
  unfold column
  rw [hstart]
  exact if_pos (Nat.sub_le ..)

/-! ### Recording lines -/

/-- Line starts that come in order are all recorded. -/
theorem lines_foldl_addLine (f : SourceFile) (last : Nat) (ls : List Nat)
    (hlast : f.lines.back? = some last) (hpair : (last :: ls).Pairwise (· < ·))
    (hsize : ∀ l ∈ ls, l ≤ f.size) : (ls.foldl addLine f).lines = f.lines ++ ls.toArray := by
  induction ls generalizing f last with
  | nil => exact (Array.append_empty).symm
  | cons l ls ih =>
    obtain ⟨hlt, hpair⟩ := List.pairwise_cons.1 hpair
    have hadd : f.addLine l = { f with lines := f.lines.push l } := by
      refine if_pos ⟨fun x hx => ?_, hsize l List.mem_cons_self⟩
      rw [← Option.some.inj (hlast.symm.trans hx)]
      exact hlt l List.mem_cons_self
    have hrest := ih (f.addLine l) l (by rw [hadd]; exact Array.back?_push) hpair fun x hx => by
      rw [hadd]
      exact hsize x (List.mem_cons_of_mem _ hx)
    rw [List.foldl_cons, hrest, hadd]
    simp

/-- Line starts that lie at the last one or before it are ignored. -/
theorem foldl_addLine_of_le (f : SourceFile) (last : Nat) (ls : List Nat)
    (hlast : f.lines.back? = some last) (hle : ∀ l ∈ ls, l ≤ last) : ls.foldl addLine f = f := by
  induction ls with
  | nil => rfl
  | cons l ls ih =>
    have hadd : f.addLine l = f := by
      refine if_neg fun h => ?_
      exact Nat.not_lt.2 (hle l List.mem_cons_self) (h.1 last hlast)
    rw [List.foldl_cons, hadd]
    exact ih fun l hl => hle l (List.mem_cons_of_mem _ hl)

/-- Reading the text of a file records the lines that start in it. -/
theorem scan_snd (f : SourceFile) (source : String) :
    (f.scan source).2 = (lineStartsInBytes 0 (bytesOf source)).foldl addLine f := by
  show (lineStartsRead 0 source.toList).foldl addLine f = _
  rw [lineStartsRead_eq, lineStartsFrom_eq, bytesOf_eq]

/-- A file that knew its first line only knows all lines of its text when it has been read. -/
theorem hasLinesOf_scan {source : String} (hlines : f.lines = #[0])
    (hsize : f.size = (bytesOf source).length) : (f.scan source).2.HasLinesOf (bytesOf source) := by
  obtain ⟨hpair, hwithin⟩ := lineStartsInBytes_within 0 (bytesOf source)
  have hrecorded := f.lines_foldl_addLine 0 (lineStartsInBytes 0 (bytesOf source))
    (by rw [hlines]; rfl) hpair fun l hl => by
      rw [hsize, ← Nat.zero_add (bytesOf source).length]
      exact (hwithin l hl).2
  unfold HasLinesOf
  rw [scan_snd, hrecorded, hlines]
  simp

/-- Reading the text of a file again records nothing new. -/
theorem HasLinesOf.scan {source : String} (h : f.HasLinesOf (bytesOf source)) :
    (f.scan source).2 = f := by
  obtain ⟨hpair, -⟩ := lineStartsInBytes_within 0 (bytesOf source)
  have hlast := getLast?_lineStartsInBytes (bytesOf source)
  rw [scan_snd]
  refine f.foldl_addLine_of_le _ _ (by rw [h, List.back?_toArray]; exact hlast) fun l hl => ?_
  -- the line that starts last starts behind all others
  obtain ⟨ls, hls⟩ := List.getLast?_eq_some_iff.1 hlast
  have hmem := List.mem_cons_of_mem 0 hl
  rw [hls] at hpair hmem
  rcases List.mem_append.1 hmem with hmem | hmem
  · exact Nat.le_of_lt ((List.pairwise_append.1 hpair).2.2 l hmem _ List.mem_cons_self)
  · exact Nat.le_of_eq (List.mem_singleton.1 hmem)

end SourceFile

end Idl
