/-
Idl/Proofs/LineTables.lean

What the tables of a file answer, whatever was recorded in them.

A file begins with its first line.  A table of lines can be put in the place of the one that it has, a line
can be added behind the others, and so can a remapping; what does not lie beyond the last entry is
dropped, and a table that does not increase is refused.  So what a file knows can be said by what was done
with it, without going through its states (`recordedStarts`, `recordedRemappings`): one action at a
time the tables keep up with that (`SourceFile.Records.record`).

What is recorded increases, and so the line starts and the remappings, which are searched by halving, are
found as by a scan from the left (`Cut`, `filter_getLast?`).

Main result: `SourceFile.Increasing.place_eq`, the place of an offset by counting the line starts up
to it and by the last remapping up to it.
-/
import Idl.Proofs.Token.Lines
import Mathlib.Data.List.Chain
import Mathlib.Data.List.DropRight

namespace Idl

/-! ### Searching by halving, scanning from the left -/

/-- No element that passes the test stands behind one that fails it. -/
def Cut {α : Type} (p : α → Bool) (xs : List α) : Prop :=
  xs.Pairwise fun x y => p y = true → p x = true

section Search

variable {α : Type} {p : α → Bool}

/-- Those that pass the test are the first ones. -/
theorem Cut.getElem_iff {xs : List α} (h : Cut p xs) (i : Nat) (hi : i < xs.length) :
    p xs[i] = true ↔ i < xs.countP p := by
  induction xs generalizing i with
  | nil => exact absurd hi (Nat.not_lt_zero i)
  | cons x xs ih =>
    obtain ⟨hx, hxs⟩ := List.pairwise_cons.1 h
    cases hp : p x with
    | true =>
      rw [List.countP_cons_of_pos hp]
      cases i with
      | zero => exact ⟨fun _ => Nat.succ_pos _, fun _ => hp⟩
      | succ i =>
        rw [List.getElem_cons_succ, Nat.succ_lt_succ_iff]
        exact ih hxs i _
    | false =>
      -- nothing behind an element that fails can pass
      have hnone : ∀ y ∈ x :: xs, ¬ p y = true := by
        intro y hy hpy
        rcases List.mem_cons.1 hy with rfl | hy
        · exact Bool.false_ne_true (hp.symm.trans hpy)
        · exact Bool.false_ne_true (hp.symm.trans (hx y hy hpy))
      rw [List.countP_eq_zero.2 hnone]
      exact iff_of_false (hnone _ (List.getElem_mem hi)) (Nat.not_lt_zero i)

/-- Those that pass the test are as many first ones. -/
theorem Cut.filter_eq_take {xs : List α} (h : Cut p xs) :
    xs.filter p = xs.take (xs.countP p) := by
  induction xs with
  | nil => rfl
  | cons x xs ih =>
    obtain ⟨hx, hxs⟩ := List.pairwise_cons.1 h
    cases hp : p x with
    | true =>
      rw [List.filter_cons_of_pos hp, List.countP_cons_of_pos hp, List.take_succ_cons, ih hxs]
    | false =>
      have hnone : xs.countP p = 0 :=
        List.countP_eq_zero.2 fun y hy hpy => Bool.false_ne_true (hp.symm.trans (hx y hy hpy))
      have hp : ¬ p x = true := ne_true_of_eq_false hp
      rw [List.filter_cons_of_neg hp, List.countP_cons_of_neg hp, ih hxs, hnone, List.take_zero,
        List.take_zero]

/-- Halving counts those that pass the test. -/
theorem bisect_eq_countP {xs : Array α} (h : Cut p xs.toList) :
    bisect p xs = xs.toList.countP p :=
  bisect_eq ⟨List.countP_le_length, fun i hi => h.getElem_iff i hi⟩

/-- The last one that passes the test stands right before the end that halving finds. -/
theorem filter_getLast? {xs : Array α} (h : Cut p xs.toList) :
    (xs.toList.filter p).getLast? =
      if bisect p xs = 0 then none else xs[bisect p xs - 1]? := by
  have hle : xs.toList.countP p ≤ xs.size := List.countP_le_length
  rw [h.filter_eq_take, List.getLast?_take, bisect_eq_countP h]
  split
  · rfl
  · next hpos =>
    have hlt : xs.toList.countP p - 1 < xs.size :=
      Nat.lt_of_lt_of_le (Nat.sub_one_lt hpos) hle
    rw [Array.getElem?_toList, Array.getElem?_eq_getElem hlt]
    rfl

end Search

/-! ### Tables that increase -/

/-- The test for increasing lists. -/
theorem strictlyIncreasing_iff (ls : List Nat) :
    strictlyIncreasing ls = true ↔ ls.Pairwise (· < ·) := by
  rw [← List.isChain_iff_pairwise]
  induction ls with
  | nil => exact iff_of_true rfl .nil
  | cons a ls ih =>
    cases ls with
    | nil => exact iff_of_true rfl (.singleton a)
    | cons b ls =>
      rw [strictlyIncreasing, Bool.and_eq_true, decide_eq_true_eq, ih, List.isChain_cons_cons]

section Maxima

variable {α : Type} {key : α → Nat}

/-- The elements whose keys lie beyond those of all elements before them. -/
def maxima (key : α → Nat) : List α → List α
  | [] => []
  | x :: xs => x :: (maxima key xs).filter fun y => key x < key y

theorem maxima_increasing (xs : List α) :
    (maxima key xs).Pairwise fun x y => key x < key y := by
  induction xs with
  | nil => exact .nil
  | cons x xs ih =>
    exact List.pairwise_cons.2
      ⟨fun y hy => of_decide_eq_true (List.mem_filter.1 hy).2, ih.filter _⟩

/-- Where keys increase, each element lies beyond those before it. -/
theorem maxima_eq_self {xs : List α} (h : xs.Pairwise fun x y => key x < key y) :
    maxima key xs = xs := by
  induction xs with
  | nil => rfl
  | cons x xs ih =>
    obtain ⟨hx, hxs⟩ := List.pairwise_cons.1 h
    rw [maxima, ih hxs, List.filter_eq_self.2 fun y hy => decide_eq_true (hx y hy)]

/-- What lies beyond the greatest elements lies beyond all. -/
theorem forall_maxima_iff (xs : List α) (k : Nat) :
    (∀ y ∈ maxima key xs, key y < k) ↔ ∀ y ∈ xs, key y < k := by
  induction xs with
  | nil => rfl
  | cons x xs ih =>
    simp only [maxima, List.forall_mem_cons, List.mem_filter, decide_eq_true_eq, and_imp]
    refine and_congr_right fun hx => ?_
    rw [← ih]
    refine forall₂_congr fun y _ => ⟨fun h => ?_, fun h _ => h⟩
    -- what is not beyond `x` is left out, and lies below `k` with `x`
    rcases Nat.lt_or_ge (key x) (key y) with hlt | hge
    · exact h hlt
    · exact Nat.lt_of_le_of_lt hge hx

theorem maxima_concat (xs : List α) (x : α) :
    maxima key (xs ++ [x]) =
      if ∀ y ∈ xs, key y < key x then maxima key xs ++ [x] else maxima key xs := by
  induction xs with
  | nil => rfl
  | cons a xs ih =>
    have hiff : (∀ y ∈ a :: xs, key y < key x) ↔ key a < key x ∧ ∀ y ∈ xs, key y < key x :=
      List.forall_mem_cons
    rw [List.cons_append, maxima, maxima, ih]
    by_cases hxs : ∀ y ∈ xs, key y < key x
    · rw [if_pos hxs, List.filter_append]
      by_cases ha : key a < key x
      · rw [if_pos (hiff.2 ⟨ha, hxs⟩), List.filter_singleton, decide_eq_true ha]
        rfl
      · rw [if_neg fun h => ha (hiff.1 h).1, List.filter_singleton, decide_eq_false ha,
          cond_false, List.append_nil]
    · rw [if_neg hxs, if_neg fun h => hxs (hiff.1 h).2]

/-- To lie beyond the last one of the greatest elements is to lie beyond all elements. -/
theorem forall_back?_iff {xs : List α} {table : Array α} (h : table.toList = maxima key xs)
    (k : Nat) : (∀ last ∈ table.back?, key last < k) ↔ ∀ y ∈ xs, key y < k := by
  rw [← forall_maxima_iff, ← h, ← Array.getLast?_toList]
  refine ⟨fun hlast y hy => ?_, fun hall last hmem => hall last (List.mem_of_getLast? hmem)⟩
  obtain ⟨last, hback⟩ : ∃ last, table.toList.getLast? = some last :=
    ⟨_, List.getLast?_eq_some_getLast (List.ne_nil_of_mem hy)⟩
  obtain ⟨init, heq⟩ := List.getLast?_eq_some_iff.1 hback
  have hincreasing : (maxima key xs).Pairwise fun x y => key x < key y := maxima_increasing xs
  rw [← h, heq, List.pairwise_append] at hincreasing
  rw [heq] at hy
  rcases List.mem_append.1 hy with hy | hy
  · exact Nat.lt_trans (hincreasing.2.2 y hy last (List.mem_singleton_self _)) (hlast last hback)
  · exact List.mem_singleton.1 hy ▸ hlast last hback

/-- An element beyond the last one of the table is the next of the greatest ones. -/
theorem maxima_concat_beyond {xs : List α} {table : Array α} (h : table.toList = maxima key xs)
    {x : α} (hx : ∀ last ∈ table.back?, key last < key x) :
    maxima key (xs ++ [x]) = (table.push x).toList := by
  rw [maxima_concat, if_pos ((forall_back?_iff h _).1 hx), Array.toList_push, h]

/-- Any other one is none of them. -/
theorem maxima_concat_within {xs : List α} {table : Array α} (h : table.toList = maxima key xs)
    {x : α} (hx : ¬ ∀ last ∈ table.back?, key last < key x) :
    maxima key (xs ++ [x]) = table.toList := by
  rw [maxima_concat, if_neg (mt (forall_back?_iff h _).2 hx), h]

end Maxima

/-! ### What is recorded in a file -/

/-- What can be recorded in a file. -/
inductive LineAction where
  /-- A line starts at the offset. -/
  | addLine (offset : Nat)
  /-- These are the line starts. -/
  | setLines (lines : List Nat)
  /-- The line starts are those of the bytes. -/
  | setLinesOf (content : List UInt8)
  /-- From some offset on, the text comes from elsewhere. -/
  | addRemapping (r : Remapping)
  deriving DecidableEq

/-- The starts of the lines of bytes: the first one at 0, the others right behind the newlines. -/
def newlineStarts (content : List UInt8) : List Nat :=
  0 :: ((List.range content.length).filter fun i => content[i]? = some newlineByte).map (· + 1)

namespace LineAction

/-- The table of lines that is put in the place of the one that a file of `size` bytes has. -/
def table? (size : Nat) : LineAction → Option (List Nat)
  | .setLines ls => if ls.Pairwise (· < ·) ∧ ∀ l ∈ ls, l ≤ size then some ls else none
  | .setLinesOf content => some (newlineStarts content)
  | .addLine _ | .addRemapping _ => none

/-- The line start that is added, if it lies in a file of `size` bytes. -/
def start? (size : Nat) : LineAction → Option Nat
  | .addLine offset => if offset ≤ size then some offset else none
  | .setLines _ | .setLinesOf _ | .addRemapping _ => none

/-- The remapping that is added, if it lies in a file of `size` bytes. -/
def remapping? (size : Nat) : LineAction → Option Remapping
  | .addRemapping r => if r.offset < size then some r else none
  | .addLine _ | .setLines _ | .setLinesOf _ => none

end LineAction

/-- The table of lines that a file of `size` bytes was given last. -/
def lastTable (size : Nat) (history : List LineAction) : List Nat :=
  (history.reverse.findSome? (LineAction.table? size)).getD [0]

/-- The line starts that were added since then. -/
def startsSince (size : Nat) (history : List LineAction) : List Nat :=
  (history.rtakeWhile fun a => (a.table? size).isNone).filterMap (LineAction.start? size)

/-- The line starts that a file of `size` bytes knows after a history of actions: those of the table that it
was given last, and of those that were added since then, the ones that lay beyond all before them. -/
def recordedStarts (size : Nat) (history : List LineAction) : List Nat :=
  maxima id (lastTable size history ++ startsSince size history)

/-- The remappings that a file of `size` bytes knows after a history of actions: of all that were added,
the ones that lay beyond all before them. -/
def recordedRemappings (size : Nat) (history : List LineAction) : List Remapping :=
  maxima (·.offset) (history.filterMap (LineAction.remapping? size))

/-- The line starts of bytes, taken one byte after the other. -/
theorem newlineStarts_eq (content : List UInt8) :
    newlineStarts content = 0 :: lineStartsInBytes 0 content := by
  have hbytes (start : Nat) (bs : List UInt8) :
      ((List.range bs.length).filter fun i => bs[i]? = some newlineByte).map
        (fun i => start + i + 1) = lineStartsInBytes start bs := by
    induction bs generalizing start with
    | nil => rfl
    | cons b bs ih =>
      have hrest : (((List.range bs.length).map Nat.succ).filter
          fun i => (b :: bs)[i]? = some newlineByte).map (fun i => start + i + 1) =
            lineStartsInBytes (start + 1) bs := by
        rw [List.filter_map, List.map_map, ← ih]
        refine List.map_congr_left fun i _ => ?_
        show start + (i + 1) + 1 = start + 1 + i + 1
        omega
      rw [List.length_cons, List.range_succ_eq_map, lineStartsInBytes]
      split
      · next hb =>
        rw [List.filter_cons_of_pos (by rw [hb]; rfl), List.map_cons, hrest]
      · next hb =>
        have hne : ¬ b = newlineByte := hb
        rw [List.filter_cons_of_neg (by simpa using hne), hrest]
  rw [newlineStarts, ← hbytes]
  simp only [Nat.zero_add]

section History

variable {size : Nat} {history : List LineAction} {a : LineAction}

/-- A table takes the place of all that was known. -/
theorem recordedStarts_table {ls : List Nat} (h : a.table? size = some ls)
    (hls : ls.Pairwise (· < ·)) : recordedStarts size (history ++ [a]) = ls := by
  have hlast : lastTable size (history ++ [a]) = ls := by
    rw [lastTable, List.reverse_append, List.reverse_singleton, List.singleton_append,
      List.findSome?_cons, h]
    rfl
  have hsince : startsSince size (history ++ [a]) = [] := by
    rw [startsSince, List.rtakeWhile_concat_neg _ _ _ (by rw [h]; exact Bool.false_ne_true)]
    rfl
  rw [recordedStarts, hlast, hsince, List.append_nil]
  exact maxima_eq_self hls

/-- What is no table adds its line start, if it has one. -/
theorem recordedStarts_concat (h : a.table? size = none) :
    recordedStarts size (history ++ [a]) =
      maxima id (lastTable size history ++ startsSince size history ++ (a.start? size).toList) := by
  have hlast : lastTable size (history ++ [a]) = lastTable size history := by
    rw [lastTable, List.reverse_append, List.reverse_singleton, List.singleton_append,
      List.findSome?_cons, h]
    rfl
  have hsince : startsSince size (history ++ [a]) =
      startsSince size history ++ (a.start? size).toList := by
    rw [startsSince, List.rtakeWhile_concat_pos _ _ _ (by rw [h]; rfl), List.filterMap_append]
    cases ha : a.start? size with
    | none => rw [List.filterMap_cons_none ha]; rfl
    | some n => rw [List.filterMap_cons_some ha]; rfl
  rw [recordedStarts, hlast, hsince, List.append_assoc]

theorem recordedRemappings_concat (history : List LineAction) (a : LineAction) :
    recordedRemappings size (history ++ [a]) = maxima (·.offset)
      (history.filterMap (LineAction.remapping? size) ++ (a.remapping? size).toList) := by
  rw [recordedRemappings, List.filterMap_append]
  cases ha : a.remapping? size with
  | none => rw [List.filterMap_cons_none ha]; rfl
  | some r => rw [List.filterMap_cons_some ha]; rfl

end History

namespace SourceFile

/-- Records something in a file.  Line starts that are refused change nothing. -/
def record (f : SourceFile) : LineAction → SourceFile
  | .addLine offset => f.addLine offset
  | .setLines lines => (f.setLines? lines).getD f
  | .setLinesOf content => f.setLinesOfBytes content
  | .addRemapping r => f.addRemapping r

/-- A file knows what a history of actions recorded. -/
structure Records (f : SourceFile) (history : List LineAction) : Prop where
  lines : f.lines.toList = recordedStarts f.size history
  remappings : f.remappings.toList = recordedRemappings f.size history

/-- Both tables of a file increase. -/
structure Increasing (f : SourceFile) : Prop where
  lines : f.lines.toList.Pairwise (· < ·)
  remappings : f.remappings.toList.Pairwise fun r r' => r.offset < r'.offset

variable {f : SourceFile} {history : List LineAction}

/-- What is recorded increases. -/
theorem Records.increasing (h : f.Records history) : f.Increasing :=
  ⟨h.lines ▸ maxima_increasing _, h.remappings ▸ maxima_increasing _⟩

/-- A new file knows one line and no remapping. -/
theorem records_new (name : String) (base : Pos) (size : Nat) :
    Records { name := name, base := base, size := size } [] :=
  ⟨rfl, rfl⟩

/-- Line starts are accepted if they increase and lie in the file. -/
theorem setLines?_eq_some {ls : List Nat} {g : SourceFile} :
    f.setLines? ls = some g ↔
      (ls.Pairwise (· < ·) ∧ ∀ l ∈ ls, l ≤ f.size) ∧ g = { f with lines := ls.toArray } := by
  have hiff : (strictlyIncreasing ls && ls.all (· ≤ f.size)) = true ↔
      ls.Pairwise (· < ·) ∧ ∀ l ∈ ls, l ≤ f.size := by
    rw [Bool.and_eq_true, strictlyIncreasing_iff, List.all_eq_true]
    simp only [decide_eq_true_eq]
  unfold setLines?
  split
  · next hok =>
    rw [Option.some.injEq, eq_comm]
    exact (and_iff_right (hiff.1 hok)).symm
  · next hno => exact iff_of_false (fun h => nomatch h) fun h => hno (hiff.2 h.1)

theorem setLines?_eq_none {ls : List Nat} :
    f.setLines? ls = none ↔ ¬ (ls.Pairwise (· < ·) ∧ ∀ l ∈ ls, l ≤ f.size) := by
  rw [Option.eq_none_iff_forall_ne_some]
  constructor
  · exact fun h hok => h _ (setLines?_eq_some.2 ⟨hok, rfl⟩)
  · exact fun h g hg => h (setLines?_eq_some.1 hg).1

/-- The line starts of bytes are in the table, if there are no more bytes than a file may have. -/
theorem lines_setLinesOfBytes (f : SourceFile) {content : List UInt8}
    (h : content.length < positionBound) :
    (f.setLinesOfBytes content).lines.toList = newlineStarts content := by
  rw [newlineStarts_eq]
  exact congrArg (0 :: ·) (lineStartsInBytes_words h)

/-- What adds no line leaves the line starts as they are. -/
theorem Records.lines_concat (h : f.Records history) {a : LineAction}
    (htable : a.table? f.size = none) (hstart : a.start? f.size = none) :
    f.lines.toList = recordedStarts f.size (history ++ [a]) := by
  rw [recordedStarts_concat htable, hstart, Option.toList_none, List.append_nil]
  exact h.lines

/-- What adds no remapping leaves the remappings as they are. -/
theorem Records.remappings_concat (h : f.Records history) {a : LineAction}
    (hnone : a.remapping? f.size = none) :
    f.remappings.toList = recordedRemappings f.size (history ++ [a]) := by
  rw [recordedRemappings_concat, hnone, Option.toList_none, List.append_nil]
  exact h.remappings

/-- An added line is known if it lies in the file and beyond all others. -/
theorem Records.addLine (h : f.Records history) (offset : Nat) :
    (f.addLine offset).Records (history ++ [.addLine offset]) := by
  have htable : (LineAction.addLine offset).table? f.size = none := rfl
  have hremappings := h.remappings_concat (a := .addLine offset) rfl
  have hadded (hsize : offset ≤ f.size) : recordedStarts f.size (history ++ [.addLine offset]) =
      maxima id (lastTable f.size history ++ startsSince f.size history ++ [offset]) := by
    have hstart : (LineAction.addLine offset).start? f.size = some offset := if_pos hsize
    rw [recordedStarts_concat htable, hstart, Option.toList_some]
  unfold SourceFile.addLine
  split
  · next hok =>
    exact ⟨((hadded hok.2).trans (maxima_concat_beyond h.lines hok.1)).symm, hremappings⟩
  · next hno =>
    refine ⟨?_, hremappings⟩
    by_cases hsize : offset ≤ f.size
    · rw [hadded hsize, maxima_concat_within h.lines fun hlast => hno ⟨hlast, hsize⟩]
    · exact h.lines_concat htable (if_neg hsize)

/-- An added remapping is known if it lies in the file and beyond all others. -/
theorem Records.addRemapping (h : f.Records history) (r : Remapping) :
    (f.addRemapping r).Records (history ++ [.addRemapping r]) := by
  have hlines := h.lines_concat (a := .addRemapping r) rfl rfl
  have hadded (hsize : r.offset < f.size) : recordedRemappings f.size (history ++ [.addRemapping r]) =
      maxima (·.offset) (history.filterMap (LineAction.remapping? f.size) ++ [r]) := by
    have hremapping : (LineAction.addRemapping r).remapping? f.size = some r := if_pos hsize
    rw [recordedRemappings_concat, hremapping, Option.toList_some]
  unfold SourceFile.addRemapping
  split
  · next hok =>
    exact ⟨hlines, ((hadded hok.2).trans (maxima_concat_beyond h.remappings hok.1)).symm⟩
  · next hno =>
    refine ⟨hlines, ?_⟩
    by_cases hsize : r.offset < f.size
    · rw [hadded hsize, maxima_concat_within h.remappings fun hlast => hno ⟨hlast, hsize⟩]
    · exact h.remappings_concat (if_neg hsize)

/-- A table of lines is known if it is accepted, and else nothing is new. -/
theorem Records.setLines (h : f.Records history) (ls : List Nat) :
    (f.record (.setLines ls)).Records (history ++ [.setLines ls]) := by
  have hremappings := h.remappings_concat (a := .setLines ls) rfl
  show ((f.setLines? ls).getD f).Records _
  cases hset : f.setLines? ls with
  | none =>
    have htable : (LineAction.setLines ls).table? f.size = none :=
      if_neg (setLines?_eq_none.1 hset)
    exact ⟨h.lines_concat htable rfl, hremappings⟩
  | some g =>
    obtain ⟨hok, rfl⟩ := setLines?_eq_some.1 hset
    have htable : (LineAction.setLines ls).table? f.size = some ls := if_pos hok
    exact ⟨(recordedStarts_table htable hok.1).symm, hremappings⟩

/-- **What is recorded is known.**  A file keeps up with one more action, as long as no lines are taken
from more bytes than a file may have. -/
theorem Records.record (h : f.Records history) {a : LineAction}
    (ha : ∀ content, a = .setLinesOf content → content.length < positionBound) :
    (f.record a).Records (history ++ [a]) := by
  cases a with
  | addLine offset => exact h.addLine offset
  | setLines ls => exact h.setLines ls
  | setLinesOf content =>
    have hincreasing : (newlineStarts content).Pairwise (· < ·) := by
      rw [newlineStarts_eq]
      exact (lineStartsInBytes_within 0 content).1
    exact ⟨(f.lines_setLinesOfBytes (ha content rfl)).trans
      (recordedStarts_table rfl hincreasing).symm, h.remappings_concat rfl⟩
  | addRemapping r => exact h.addRemapping r

/-- Whatever is recorded, the file stays where it is. -/
theorem record_range (f : SourceFile) (a : LineAction) :
    (f.record a).base = f.base ∧ (f.record a).size = f.size := by
  cases a with
  | addLine offset =>
    unfold record addLine
    dsimp only
    split <;> exact ⟨rfl, rfl⟩
  | setLines ls =>
    unfold record setLines?
    dsimp only
    split <;> exact ⟨rfl, rfl⟩
  | setLinesOf content => exact ⟨rfl, rfl⟩
  | addRemapping r =>
    unfold record addRemapping
    dsimp only
    split <;> exact ⟨rfl, rfl⟩

/-! ### Places by scanning -/

/-- The line starts up to an offset. -/
def startsUpTo (f : SourceFile) (offset : Nat) : List Nat :=
  f.lines.toList.filter fun start => start ≤ offset

/-- The place of an offset as the file itself counts: its line is the number of line starts up to
it, and its column counts from the last of them, which is column 1. -/
def scannedPlace (f : SourceFile) (offset : Nat) : Position where
  filename := f.name
  offset := offset
  line := (f.startsUpTo offset).length
  column := match (f.startsUpTo offset).getLast? with
    | some start => offset - start + 1
    | none => 0

/-- The last remapping up to an offset. -/
def lastRemapping? (f : SourceFile) (offset : Nat) : Option Remapping :=
  (f.remappings.toList.filter fun r => r.offset ≤ offset).getLast?

/-- The line of an offset after a remapping: the remapping's line, and one more for each line start
behind the remapping, up to the offset; 0 if that is too large.  A remapping that stands on no
line changes no line. -/
def scannedLineAfter (f : SourceFile) (r : Remapping) (offset : Nat) : Nat :=
  if f.startsUpTo r.offset = [] then (f.startsUpTo offset).length
  else
    let line := r.line + f.lines.toList.countP fun start => r.offset < start && start ≤ offset
    if line < positionBound then line else 0

/-- The place of an offset, with the last remapping up to it applied. -/
def remappedPlace (f : SourceFile) (offset : Nat) : Position :=
  match f.lastRemapping? offset with
  | none => f.scannedPlace offset
  | some r =>
    { f.scannedPlace offset with
      filename := r.filename
      line := f.scannedLineAfter r offset }

/-- The line starts up to an offset, counted up to a smaller one and from there on. -/
theorem length_startsUpTo_of_le {a offset : Nat} (hle : a ≤ offset) :
    (f.startsUpTo offset).length = (f.startsUpTo a).length +
      f.lines.toList.countP fun start => a < start && start ≤ offset := by
  unfold startsUpTo
  rw [← List.countP_eq_length_filter, ← List.countP_eq_length_filter,
    List.countP_eq_countP_filter_add _ _ fun start => decide (start ≤ a), List.countP_filter,
    List.countP_filter]
  congr 1
  · refine List.countP_congr fun start _ => ?_
    simp only [Bool.and_eq_true, decide_eq_true_eq]
    omega
  · refine List.countP_congr fun start _ => ?_
    simp only [Bool.and_eq_true, Bool.not_eq_true', decide_eq_true_eq, decide_eq_false_iff_not]
    omega

namespace Increasing

variable (h : f.Increasing)
include h

/-- The line starts up to an offset are the first ones. -/
theorem cut_lines (offset : Nat) :
    Cut (fun start => decide (start ≤ offset)) f.lines.toList :=
  h.lines.imp fun hlt hle =>
    decide_eq_true (Nat.le_of_lt (Nat.lt_of_lt_of_le hlt (of_decide_eq_true hle)))

/-- The remappings up to an offset are the first ones. -/
theorem cut_remappings (offset : Nat) :
    Cut (fun r : Remapping => decide (r.offset ≤ offset)) f.remappings.toList :=
  h.remappings.imp fun hlt hle =>
    decide_eq_true (Nat.le_of_lt (Nat.lt_of_lt_of_le hlt (of_decide_eq_true hle)))

/-- The number of the line is the number of line starts up to the offset. -/
theorem lineNumber_eq (offset : Nat) : f.lineNumber offset = (f.startsUpTo offset).length :=
  (bisect_eq_countP (h.cut_lines offset)).trans List.countP_eq_length_filter

/-- The column counts from the last line start up to the offset. -/
theorem column_eq (offset : Nat) : f.column offset = (f.scannedPlace offset).column := by
  have hlast : (f.startsUpTo offset).getLast? =
      if f.lineNumber offset = 0 then none else f.lines[f.lineNumber offset - 1]? :=
    filter_getLast? (h.cut_lines offset)
  unfold column scannedPlace
  dsimp only
  by_cases hzero : f.lineNumber offset = 0
  · rw [hlast, if_pos hzero]
    split
    · next start hstart =>
      -- the first line would start before the offset, and there is none that does
      rw [hzero] at hstart
      obtain ⟨hlt, rfl⟩ := Array.getElem?_eq_some_iff.1 hstart
      refine if_neg fun hle => Nat.lt_irrefl 0 ?_
      have hpos := ((h.cut_lines offset).getElem_iff 0 hlt).1 (decide_eq_true hle)
      rwa [← bisect_eq_countP (h.cut_lines offset), show bisect _ _ = 0 from hzero] at hpos
    · rfl
  · rw [if_neg hzero] at hlast
    rw [← hlast]
    cases hstart : (f.startsUpTo offset).getLast? with
    | none => rfl
    | some start =>
      exact if_pos (of_decide_eq_true (List.mem_filter.1 (List.mem_of_getLast? hstart)).2)

/-- The place as the file itself counts is found by scanning. -/
theorem unadjustedPlace_eq (offset : Nat) : f.unadjustedPlace offset = f.scannedPlace offset := by
  unfold unadjustedPlace
  rw [h.lineNumber_eq, h.column_eq]
  rfl

/-- The last remapping up to the offset is found by scanning. -/
theorem remapping?_eq (offset : Nat) : f.remapping? offset = f.lastRemapping? offset :=
  (filter_getLast? (h.cut_remappings offset)).symm

/-- The line after a remapping is found by counting from the remapping on. -/
theorem remappedLine_eq {r : Remapping} {offset : Nat} (hle : r.offset ≤ offset) :
    f.remappedLine offset r = f.scannedLineAfter r offset := by
  unfold remappedLine scannedLineAfter
  dsimp only
  rw [h.lineNumber_eq, h.lineNumber_eq]
  by_cases hnone : f.startsUpTo r.offset = []
  · rw [if_pos hnone, if_pos (List.length_eq_zero_iff.2 hnone)]
  · rw [if_neg hnone, if_neg (mt List.length_eq_zero_iff.1 hnone), length_startsUpTo_of_le hle]
    -- as many lines as lie up to the remapping are counted and taken away again
    have hshift (m n k : Nat) : ((m + n : Nat) : Int) + k - m = ((k + n : Nat) : Int) := by omega
    simp only [hshift, Int.natCast_nonneg, true_and, Int.ofNat_lt, Int.toNat_natCast]

/-- The place with remappings applied is found by scanning. -/
theorem place_eq (offset : Nat) : f.place offset = f.remappedPlace offset := by
  unfold place remappedPlace
  rw [h.remapping?_eq, h.unadjustedPlace_eq]
  cases hr : f.lastRemapping? offset with
  | none => rfl
  | some r =>
    have hle : r.offset ≤ offset :=
      of_decide_eq_true (List.mem_filter.1 (List.mem_of_getLast? hr)).2
    dsimp only
    rw [h.remappedLine_eq hle]

end Increasing

end SourceFile

end Idl
