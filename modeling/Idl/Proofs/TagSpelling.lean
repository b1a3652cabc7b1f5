/-
Idl/Proofs/TagSpelling.lean

Tags as people spell them.

A tag that the library writes has single blanks between its pairs and none around its colons.  A tag
in a source may be spelled more freely: a `SpelledPair` is a pair with what stands in front of it and
around its colon.

Spaces and tabs change nothing, and neither does what follows them, so good pairs keep their meaning
in front of any text (`pairs_spelled_append`).  Line breaks are another matter: no key starts with
one, so the pairs that are read are those in front of the first line break (`pairs_spelled_lines`),
and all others are dropped (`pairs_dropped_behind_lineBreak`).
-/
import Idl.Proofs.Tags

namespace Idl

/-! ### Spelled pairs -/

/-- A text of spaces and tabs only. -/
def IsBlankRun (t : String) : Prop := ∀ c ∈ t.toList, c = ' ' ∨ c = '\t'

/-- A text of spaces, tabs and line breaks only. -/
def IsWhiteRun (t : String) : Prop := ∀ c ∈ t.toList, c = ' ' ∨ c = '\t' ∨ c = '\n' ∨ c = '\r'

instance (t : String) : Decidable (IsBlankRun t) := List.decidableBAll _ t.toList

instance (t : String) : Decidable (IsWhiteRun t) := List.decidableBAll _ t.toList

/-- A pair as it is spelled in a tag. -/
structure SpelledPair where
  /-- What stands in front of the key. -/
  gap : String := ""
  key : String
  /-- What stands in front of the colon. -/
  before : String := ""
  /-- What stands behind the colon. -/
  after : String := ""
  value : String

namespace SpelledPair

/-- A pair with a key, and with spaces and tabs around its colon. -/
structure Proper (p : SpelledPair) : Prop where
  key : IsTagKey p.key
  before : IsBlankRun p.before
  after : IsBlankRun p.after

instance (p : SpelledPair) : Decidable p.Proper :=
  decidable_of_iff (IsTagKey p.key ∧ IsBlankRun p.before ∧ IsBlankRun p.after)
    ⟨fun h => ⟨h.1, h.2.1, h.2.2⟩, fun h => ⟨h.key, h.before, h.after⟩⟩

/-- What is spelled. -/
def pair (p : SpelledPair) : String × String := (p.key, p.value)

/-- How it is spelled. -/
def text (p : SpelledPair) : String :=
  p.gap ++ p.key ++ p.before ++ ":" ++ p.after ++ quote p.value

end SpelledPair

/-- The text of pairs one after the other. -/
def spelling (ps : List SpelledPair) : String := String.join (ps.map SpelledPair.text)

theorem toList_spelling_cons (p : SpelledPair) (ps : List SpelledPair) (cs : List Char) :
    (spelling (p :: ps)).toList ++ cs = p.gap.toList ++ (p.key.toList ++ (p.before.toList ++
      ':' :: (p.after.toList ++ ((quote p.value).toList ++ ((spelling ps).toList ++ cs))))) := by
  simp [spelling, SpelledPair.text]

/-! ### Spaces and tabs -/

theorem IsBlankRun.isTagBlank {t : String} (h : IsBlankRun t) :
    ∀ c ∈ t.toList, isTagBlank c = true := fun c hc => by
  rcases h c hc with rfl | rfl <;> rfl

/-- A proper pair behind spaces and tabs is the first one that is read, and what follows it is read
as if it stood alone. -/
theorem tagPairs_spelling_cons {p : SpelledPair} (h : p.Proper) (hgap : IsBlankRun p.gap)
    (ps : List SpelledPair) (cs : List Char) :
    tagPairs ((spelling (p :: ps)).toList ++ cs) =
      p.pair :: tagPairs ((spelling ps).toList ++ cs) := by
  rw [toList_spelling_cons, tagPairs_blanks hgap.isTagBlank,
    tagPairs_spelled h.key h.before.isTagBlank h.after.isTagBlank]
  rfl

theorem tagPairs_spelling {ps : List SpelledPair} (h : ∀ p ∈ ps, p.Proper ∧ IsBlankRun p.gap)
    (cs : List Char) :
    tagPairs ((spelling ps).toList ++ cs) = ps.map SpelledPair.pair ++ tagPairs cs := by
  induction ps with
  | nil => rfl
  | cons p ps ih =>
    obtain ⟨⟨hp, hgap⟩, hps⟩ := List.forall_mem_cons.1 h
    rw [tagPairs_spelling_cons hp hgap, ih hps, List.map_cons, List.cons_append]

/-- **Good pairs keep their meaning in front of any text.**  Pairs that are separated by spaces and
tabs, and by spaces and tabs from their colons, are read as they are spelled, and the text behind
them as if it stood alone, be it malformed or not. -/
theorem pairs_spelled_append {ps : List SpelledPair} (h : ∀ p ∈ ps, p.Proper ∧ IsBlankRun p.gap)
    (rest : String) :
    (Tag.mk (spelling ps ++ " " ++ rest)).pairs =
      ps.map SpelledPair.pair ++ (Tag.mk rest).pairs := by
  have htext : (spelling ps ++ " " ++ rest).toList =
      (spelling ps).toList ++ ' ' :: rest.toList := by simp
  unfold Tag.pairs
  dsimp only
  rw [htext, tagPairs_spelling h, tagPairs_blank]

/-- Pairs with quotes, backslashes and accents in their values, tabs around a colon and a key that is
repeated. -/
def spelledOddly : List SpelledPair := [
  { key := "json", value := "a \"b\" \\" },
  { gap := " \t ", key := "x-ü", before := "\t", after := "  ", value := "é\n日\x7f" },
  { gap := "\t", key := "json", value := "" }]

/-- Behind them stands a pair, a malformed one, and a pair that is not read any more. -/
theorem pairs_spelled_append_oddly :
    (∀ p ∈ spelledOddly, p.Proper ∧ IsBlankRun p.gap) ∧
      (Tag.mk (spelling spelledOddly ++ " " ++ "k:\"v\" y: z:\"w\"")).pairs =
        [("json", "a \"b\" \\"), ("x-ü", "é\n日\x7f"), ("json", ""), ("k", "v")] := by
  have hproper : ∀ p ∈ spelledOddly, p.Proper ∧ IsBlankRun p.gap := by decide
  have hrest : (Tag.mk "k:\"v\" y: z:\"w\"").pairs = [("k", "v")] := by with_unfolding_all decide
  refine ⟨hproper, ?_⟩
  rw [pairs_spelled_append hproper, hrest]
  rfl

/-! ### Line breaks -/

/-- No key stands behind white space with a line break in it. -/
theorem no_key_behind_lineBreak {gap : List Char} (hgap : ¬ ∀ c ∈ gap, c = ' ' ∨ c = '\t')
    (hwhite : ∀ c ∈ gap, c = ' ' ∨ c = '\t' ∨ c = '\n' ∨ c = '\r') (cs : List Char) :
    ((gap ++ cs).dropWhile isTagBlank).takeWhile isTagKeyChar = [] := by
  induction gap with
  | nil => exact absurd (List.forall_mem_nil _) hgap
  | cons c gap ih =>
    obtain ⟨hc, hwhite⟩ := List.forall_mem_cons.1 hwhite
    rw [List.forall_mem_cons, not_and_or] at hgap
    rw [List.cons_append]
    by_cases hblank : c = ' ' ∨ c = '\t'
    · have hskip : isTagBlank c = true := by rcases hblank with rfl | rfl <;> rfl
      rw [List.dropWhile_cons_of_pos hskip]
      exact ih (hgap.resolve_left (not_not_intro hblank)) hwhite
    · -- a line break is neither skipped nor part of a key
      have hbreak : c = '\n' ∨ c = '\r' := by
        rw [← or_assoc] at hc
        exact hc.resolve_left hblank
      rcases hbreak with rfl | rfl <;> rfl

/-- Reading ends at a line break. -/
theorem tagPairs_lineBreak {gap : String} (hgap : ¬ IsBlankRun gap) (hwhite : IsWhiteRun gap)
    (cs : List Char) : tagPairs (gap.toList ++ cs) = [] := by
  refine tagPairs_of_none ?_
  have hkey := no_key_behind_lineBreak hgap hwhite cs
  unfold RawPair.read?
  simp only [hkey, List.isEmpty_nil, Bool.true_or, if_true]

/-- **Only pairs on the first line are read.**  Of pairs that are separated by spaces, tabs and line
breaks, those in front of the first line break are read.  So all of them are read if and only if
spaces and tabs separate them. -/
theorem pairs_spelled_lines {ps : List SpelledPair} (h : ∀ p ∈ ps, p.Proper ∧ IsWhiteRun p.gap) :
    (Tag.mk (spelling ps)).pairs =
        (ps.takeWhile fun p => decide (IsBlankRun p.gap)).map SpelledPair.pair ∧
      ((Tag.mk (spelling ps)).pairs = ps.map SpelledPair.pair ↔ ∀ p ∈ ps, IsBlankRun p.gap) := by
  have hread : tagPairs (spelling ps).toList =
      (ps.takeWhile fun p => decide (IsBlankRun p.gap)).map SpelledPair.pair := by
    induction ps with
    | nil => exact tagPairs_of_none rfl
    | cons p ps ih =>
      obtain ⟨⟨hp, hwhite⟩, hps⟩ := List.forall_mem_cons.1 h
      rw [← List.append_nil (spelling (p :: ps)).toList]
      by_cases hgap : IsBlankRun p.gap
      · have htake : (p :: ps).takeWhile (fun p => decide (IsBlankRun p.gap)) =
            p :: ps.takeWhile fun p => decide (IsBlankRun p.gap) :=
          List.takeWhile_cons_of_pos (decide_eq_true hgap)
        rw [tagPairs_spelling_cons hp hgap, List.append_nil, ih hps, htake, List.map_cons]
      · have htake : (p :: ps).takeWhile (fun p => decide (IsBlankRun p.gap)) = [] :=
          List.takeWhile_cons_of_neg (by simpa using hgap)
        rw [toList_spelling_cons, tagPairs_lineBreak hgap hwhite, htake, List.map_nil]
  have hpairs : (Tag.mk (spelling ps)).pairs =
      (ps.takeWhile fun p => decide (IsBlankRun p.gap)).map SpelledPair.pair := hread
  refine ⟨hpairs, ?_⟩
  rw [hpairs]
  constructor
  · -- as many pairs are read as are spelled, so reading never ends before the last one
    intro hall p hp
    have hlength := congrArg List.length hall
    rw [List.length_map, List.length_map] at hlength
    have hself := (List.takeWhile_prefix _).eq_of_length hlength
    exact of_decide_eq_true (List.takeWhile_eq_self_iff.1 hself p hp)
  · intro hblank
    rw [List.takeWhile_eq_self_iff.2 fun p hp => decide_eq_true (hblank p hp)]

/-- Pairs on two lines. -/
def spelledOnTwoLines : List SpelledPair := [
  { key := "json", value := "name" },
  { gap := " ", key := "db", value := "user \"n\"" },
  { gap := "\r\n\t", key := "doc", value := "é" },
  { gap := " ", key := "xml", value := "" }]

theorem pairs_spelled_lines_twoLines :
    (∀ p ∈ spelledOnTwoLines, p.Proper ∧ IsWhiteRun p.gap) ∧
      (Tag.mk (spelling spelledOnTwoLines)).pairs = [("json", "name"), ("db", "user \"n\"")] := by
  have hproper : ∀ p ∈ spelledOnTwoLines, p.Proper ∧ IsWhiteRun p.gap := by decide
  have hfirst : (spelledOnTwoLines.takeWhile fun p => decide (IsBlankRun p.gap)).map
      SpelledPair.pair = [("json", "name"), ("db", "user \"n\"")] := by decide
  exact ⟨hproper, (pairs_spelled_lines hproper).1.trans hfirst⟩

/-- A pair on a line of its own is dropped. -/
theorem pairs_dropped_behind_lineBreak :
    let ps : List SpelledPair := [
      { key := "a", value := "1" }, { gap := "\n", key := "b", value := "2" }]
    (∀ p ∈ ps, p.Proper ∧ IsWhiteRun p.gap) ∧ spelling ps = "a:\"1\"\nb:\"2\"" ∧
      (Tag.mk (spelling ps)).pairs = [("a", "1")] ∧
      (Tag.mk (spelling ps)).pairs ≠ ps.map SpelledPair.pair := by
  intro ps
  have hpairs : (Tag.mk (spelling ps)).pairs = [("a", "1")] := by with_unfolding_all decide
  refine ⟨by decide, by decide +kernel, hpairs, ?_⟩
  rw [hpairs]
  decide

end Idl
