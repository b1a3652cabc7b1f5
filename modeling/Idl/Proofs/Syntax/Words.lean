/-
Idl/Proofs/Syntax/Words.lean

Texts that are written word by word.

A word is what the parser sees of a token: its kind, its text and its line.  `Writes` says that a
text writes certain words, with nothing between them but separators, and has one rule for each way
to put something in front of a text.  A source that writes words is read as just these, without a
fault and without a comment (`Source.start_holds`).
-/
import Idl.Proofs.Json.Digits
import Idl.Proofs.Placement.Lines
import Idl.Proofs.Syntax.Ending
import Idl.Proofs.Token.Forms

namespace Idl

/-! ### Words -/

/-- What the parser sees of a token: its kind, its text and the line it stands on. -/
structure Word where
  kind : TokenKind
  text : String
  line : Nat
  deriving DecidableEq

/-- A token of a file as a word. -/
def Token.word (f : SourceFile) (t : Token) : Word := ⟨t.kind, t.text, f.lineOf t.pos⟩

/-- From the line on, the text writes certain words, with nothing wrong in them. -/
inductive Writes : Nat → List Char → List Word → Prop
  | done {n : Nat} : Writes n [] []
  | blank {n : Nat} {c : Char} {cs : List Char} {ws : List Word} (hc : isSeparator c = true)
      (hline : c ≠ '\n') (h : Writes n cs ws) : Writes n (c :: cs) ws
  | newline {n : Nat} {cs : List Char} {ws : List Word} (h : Writes (n + 1) cs ws) :
      Writes n ('\n' :: cs) ws
  | word {n : Nat} {c : Char} {more cs : List Char} {kind : TokenKind} {ws : List Word}
      (hc : isSeparator c = false) (hscan : scan c (more ++ cs) = ⟨kind, more.length, []⟩)
      (hkind : kind ≠ .comment ∧ kind ≠ .illegal) (hline : '\n' ∉ c :: more)
      (h : Writes n cs ws) : Writes n (c :: more ++ cs) (⟨kind, String.ofList (c :: more), n⟩ :: ws)

namespace Writes

/-- The tokens of a text are its words, where `lineOf` counts its lines. -/
theorem tokensFrom {n : Nat} {cs : List Char} {ws : List Word} (h : Writes n cs ws) (pos : Pos)
    {lineOf : Pos → Nat} (hlines : ∀ before after, cs = before ++ after →
      lineOf (pos + byteWidth before) = n + before.count '\n') :
    (∀ t ∈ Idl.tokensFrom pos cs, t.faults = [] ∧ t.token.kind ≠ .comment ∧
      t.token.kind ≠ .illegal) ∧
      (Idl.tokensFrom pos cs).map (fun t => (⟨t.token.kind, t.token.text, lineOf t.token.pos⟩ : Word)) =
        ws := by
  -- what is known of the lines stays known behind some of the text
  have hbehind {n n' : Nat} {pos : Pos} (front : List Char) {cs : List Char} (hfront : n' = n + front.count '\n')
      (hlines : ∀ before after, front ++ cs = before ++ after →
        lineOf (pos + byteWidth before) = n + before.count '\n') :
      ∀ before after, cs = before ++ after →
        lineOf (pos + byteWidth front + byteWidth before) = n' + before.count '\n' := by
    rintro before after rfl
    have h := hlines (front ++ before) after (List.append_assoc ..).symm
    rw [byteWidth_append, List.count_append] at h
    rw [Nat.add_assoc, h, hfront, Nat.add_assoc]
  induction h generalizing pos with
  | done =>
    rw [Idl.tokensFrom]
    exact ⟨fun t ht => (List.not_mem_nil ht).elim, rfl⟩
  | @blank n c cs ws hc hline h ih =>
    rw [Idl.tokensFrom, if_pos hc]
    refine ih _ (hbehind [c] ?_ hlines)
    rw [List.count_singleton, if_neg (by simpa using hline), Nat.add_zero]
  | newline h ih =>
    rw [Idl.tokensFrom, if_pos (show isSeparator '\n' = true from rfl)]
    exact ih _ (hbehind ['\n'] rfl hlines)
  | @word n c more cs kind ws hc hscan hkind hline h ih =>
    have hrest := ih (pos + byteWidth (c :: more)) (hbehind (c :: more)
      (by rw [List.count_eq_zero_of_not_mem hline, Nat.add_zero]) hlines)
    have htake : (more ++ cs).take more.length = more := List.take_left' rfl
    have hdrop : (more ++ cs).drop more.length = cs := List.drop_left' rfl
    have htext : tokenText kind (c :: more) = c :: more := tokenText_of_ne hkind.1 _
    rw [List.cons_append, Idl.tokensFrom, if_neg (by rw [hc]; decide)]
    simp only [hscan, htake, hdrop, htext, List.map_nil]
    refine ⟨List.forall_mem_cons.2 ⟨⟨rfl, hkind⟩, hrest.1⟩, ?_⟩
    rw [List.map_cons, hrest.2]
    have hline := hlines [] (c :: more ++ cs) rfl
    rw [byteWidth_nil, Nat.add_zero, List.count_nil, Nat.add_zero] at hline
    show (⟨kind, String.ofList (c :: more), lineOf pos⟩ : Word) :: ws = _
    rw [hline]

/-! ### Ways to write words -/

variable {n : Nat} {cs : List Char} {ws : List Word}

/-- A character that continues no name ends the one in front of it. -/
theorem ends {c : Char} (hc : isIdentContinue c = false) :
    ∀ d ∈ (c :: cs).head?, isIdentContinue d = false := by
  rintro d ⟨⟩
  exact hc

theorem space (h : Writes n cs ws) : Writes n (' ' :: cs) ws := .blank rfl (by decide) h

/-- A mark is a token by itself, but a period in front of a digit is not. -/
theorem mark (p : Punct) (hdigit : p = .period → cs.head?.any isDigit = false)
    (h : Writes n cs ws) :
    Writes n (p.char :: cs) (⟨.punct p, String.ofList [p.char], n⟩ :: ws) := by
  have hscan : scan p.char ([] ++ cs) = ⟨.punct p, 0, []⟩ := by
    cases p with
    | period =>
      have hnot : (isDigit '.' || ('.' == '.' && cs.head?.any isDigit)) = false := by
        rw [hdigit rfl]
        rfl
      show (if (isDigit '.' || ('.' == '.' && cs.head?.any isDigit)) = true then _ else _) = _
      rw [hnot]
      rfl
    | _ => rfl
  exact .word (by cases p <;> rfl) hscan (by simp) (by cases p <;> decide) h

/-- What is spelled like a name is a word of its own where nothing continues it. -/
theorem spelled {w : String} (hw : Spelled w) (hnext : ∀ c ∈ cs.head?, isIdentContinue c = false)
    (h : Writes n cs ws) : Writes n (w.toList ++ cs)
      (⟨match Keyword.ofSpelling? w with | some k => .keyword k | none => .ident, w, n⟩ :: ws) := by
  obtain ⟨c, more, hc, hmore, rfl⟩ := hw
  have htail : (more ++ cs).takeWhile isIdentContinue = more :=
    takeWhile_run (List.all_eq_true.1 hmore) fun d hd => Bool.eq_false_iff.1 (hnext d hd)
  have hscan : scan c (more ++ cs) = ⟨match Keyword.ofSpelling? (String.ofList (c :: more)) with
      | some k => .keyword k
      | none => .ident, more.length, []⟩ := by
    unfold scan scanWord
    exact (if_pos hc).trans (congrArg (fun tail : List Char =>
      (⟨match Keyword.ofSpelling? (String.ofList (c :: tail)) with
        | some k => .keyword k
        | none => .ident, tail.length, []⟩ : Scan)) htail)
  have hname : Spelled (String.ofList (c :: more)) := ⟨c, more, hc, hmore, rfl⟩
  have hsep : isSeparator c = false := by
    by_contra hsep
    have hblank : isIdentContinue c = false := by
      simp only [isSeparator, Bool.not_eq_false, Bool.or_eq_true, beq_iff_eq] at hsep
      rcases hsep with ((rfl | rfl) | rfl) | rfl <;> rfl
    exact hname.not_mem hblank (by rw [String.toList_ofList]; exact List.mem_cons_self)
  have hline : '\n' ∉ c :: more := by
    have hnot := hname.not_mem (show isIdentContinue '\n' = false from rfl)
    rwa [String.toList_ofList] at hnot
  rw [String.toList_ofList]
  refine .word hsep hscan ?_ hline h
  split <;> simp

theorem keyword (k : Keyword) (hnext : ∀ c ∈ cs.head?, isIdentContinue c = false)
    (h : Writes n cs ws) : Writes n (k.spelling.toList ++ cs)
      (⟨.keyword k, k.spelling, n⟩ :: ws) := by
  have hspelled : Spelled k.spelling := by
    cases k <;> exact ⟨_, _, rfl, rfl, (String.ofList_toList).symm⟩
  have hword := h.spelled hspelled hnext
  rwa [Keyword.ofSpelling?_spelling] at hword

end Writes

/-- A name: what is spelled like one, and is no reserved word. -/
structure IsName (w : String) : Prop where
  spelled : Spelled w
  free : Keyword.ofSpelling? w = none

/-- The digits of the language are those of ASCII. -/
theorem isDigit_eq (c : Char) : isDigit c = c.isDigit := by
  cases hc : c.isDigit with
  | true => exact isDigitIn_of_isDigit hc
  | false =>
    have hrange : ('0' ≤ c && c ≤ '9') = false := hc
    have hlarge : ¬ (if 'a' ≤ c && c ≤ 'f' then c.toNat - 'a'.toNat + 10
        else if 'A' ≤ c && c ≤ 'F' then c.toNat - 'A'.toNat + 10 else 10) < 10 := by
      split
      · omega
      · split <;> omega
    unfold isDigit isDigitIn digitValue
    simp only [hrange, Bool.false_eq_true, ↓reduceIte, if_neg hlarge, Option.isSome_none]

theorem isIdentStart_of_isDigit {c : Char} (h : c.isDigit = true) : isIdentStart c = false := by
  obtain ⟨hlow, hhigh⟩ := toNat_of_isDigit h
  have halpha : c.isAlpha = false := by
    rw [Bool.eq_false_iff]
    intro halpha
    have hcases : (65 ≤ c.toNat ∧ c.toNat ≤ 90) ∨ (97 ≤ c.toNat ∧ c.toNat ≤ 122) := by
      have hletter : (decide (c.val ≥ 65 ∧ c.val ≤ 90) ||
          decide (c.val ≥ 97) && decide (c.val ≤ 122)) = true := halpha
      simpa [UInt32.le_iff_toNat_le] using hletter
    omega
  have hscore : (c == '_') = false := beq_false_of_ne fun heq => by
    rw [heq] at hhigh
    exact absurd hhigh (by decide)
  rw [isIdentStart, isLetter_of_lt (by omega), halpha, hscore]
  rfl

/-- Digits that nothing continues are an integer, unless a zero leads them. -/
theorem scanNumber_digits {d : Char} {ds cs : List Char} (h : ∀ c ∈ d :: ds, c.isDigit = true)
    (hzero : ds ≠ [] → d ≠ '0')
    (hnext : ∀ c ∈ cs.head?, isDigit c = false ∧ c ∉ ['.', 'e', 'E', 'x', 'X']) :
    scanNumber (d :: ds ++ cs) = ⟨.int, ds.length, []⟩ := by
  have hrun : runLength isDigit (d :: ds ++ cs) = (d :: ds).length :=
    runLength_run (fun c hc => (isDigit_eq c).trans (h c hc))
      fun c hc => Bool.eq_false_iff.1 (hnext c hc).1
  have hfraction : fractionLength cs = 0 := by
    unfold fractionLength
    split
    · next cs => exact absurd (by simp) (hnext '.' rfl).2
    · rfl
  have hexponent : exponentLength cs = 0 := by
    unfold exponentLength
    split
    · next c cs =>
      refine if_neg fun hc => (hnext c rfl).2 ?_
      rcases hc with rfl | rfl <;> simp
    · rfl
  have hdecimal (fault : Nat → NumberFault → List LexError) :
      scanNumber.decimal (d :: ds ++ cs) fault = ⟨.int, ds.length, []⟩ := by
    have hdrop : (d :: ds ++ cs).drop (d :: ds).length = cs := List.drop_left' rfl
    have hoctal : (decide (1 < (d :: ds).length) && (d :: ds ++ cs).head? == some '0') = false := by
      cases ds with
      | nil => rfl
      | cons e es =>
        have hne : (some d == some '0') = false :=
          beq_false_of_ne fun heq => hzero (by simp) (Option.some.inj heq)
        exact hne.symm ▸ Bool.and_false _
    unfold scanNumber.decimal
    simp only [hrun, hdrop, hfraction, hexponent, Nat.add_zero, hoctal, ↓reduceIte,
      Bool.false_and, Bool.false_eq_true]
    rfl
  -- no letter for another radix stands behind the first digit
  have hradix {x : Char} {rest : List Char} (hx : ds ++ cs = x :: rest) : ¬(x = 'x' ∨ x = 'X') := by
    cases ds with
    | nil =>
      have hx : cs.head? = some x := by rw [← List.nil_append cs, hx]; rfl
      rintro (rfl | rfl) <;> exact absurd (by simp) (hnext _ hx).2
    | cons e es =>
      have he := h e (List.mem_cons_of_mem _ List.mem_cons_self)
      obtain ⟨rfl, -⟩ := List.cons.inj hx
      rintro (rfl | rfl) <;> cases he
  unfold scanNumber
  dsimp only
  split
  · next x rest hcases =>
    rw [if_neg (hradix (List.cons.inj hcases).2)]
    exact hdecimal _
  · exact hdecimal _

namespace Writes

variable {n : Nat} {cs : List Char} {ws : List Word}

theorem name {w : String} (hw : IsName w) (hnext : ∀ c ∈ cs.head?, isIdentContinue c = false)
    (h : Writes n cs ws) : Writes n (w.toList ++ cs) (⟨.ident, w, n⟩ :: ws) := by
  have hword := h.spelled hw.spelled hnext
  rwa [hw.free] at hword

/-- A number in decimal digits ends with the last of them. -/
theorem number (m : Nat)
    (hnext : ∀ c ∈ cs.head?, isDigit c = false ∧ c ∉ ['.', 'e', 'E', 'x', 'X'])
    (h : Writes n cs ws) : Writes n ((toString m).toList ++ cs) (⟨.int, toString m, n⟩ :: ws) := by
  obtain ⟨d, ds, hds⟩ := List.exists_cons_of_ne_nil (toString_ne_nil m)
  have hdigit {c : Char} (hc : c ∈ d :: ds) : c.isDigit = true := isDigit_of_mem_toString (hds ▸ hc)
  have hzero (hlong : ds ≠ []) : d ≠ '0' := by
    rw [toList_toString] at hds
    intro hzero
    refine head_digits_ne_zero (n := m) (fun hm => ?_) (by rw [hds, hzero]; rfl)
    rw [hm, Nat.toDigits_zero] at hds
    exact hlong (List.cons.inj hds).2.symm
  have hread := scanNumber_digits (fun c hc => hdigit hc) hzero hnext
  have hd := hdigit List.mem_cons_self
  have hscan : scan d (ds ++ cs) = ⟨.int, ds.length, []⟩ := by
    unfold scan
    rw [if_neg (by rw [isIdentStart_of_isDigit hd]; decide),
      if_pos (by rw [isDigit_eq, hd]; rfl)]
    exact hread
  have hplain {c : Char} (hc : isSeparator c = true) : c ∉ d :: ds := fun hmem => by
    have hc' := hdigit hmem
    simp only [isSeparator, Bool.or_eq_true, beq_iff_eq] at hc
    rcases hc with ((rfl | rfl) | rfl) | rfl <;> cases hc'
  have hsep : isSeparator d = false := by
    by_contra hsep
    exact hplain (eq_true_of_ne_false hsep) List.mem_cons_self
  have htext : toString m = String.ofList (d :: ds) := by rw [← hds, String.ofList_toList]
  rw [hds, htext]
  exact .word hsep hscan (by decide) (hplain rfl) h

end Writes

/-! ### States in front of words -/

/-- A state in front of words, with no comments between them. -/
structure ParseState.Holds (s : ParseState) (ws : List Word) : Prop where
  words : s.left.map (fun t => t.token.word s.file) = ws
  eof : s.eof.token.kind = .eof
  lead : s.lead = none
  bare : ∀ t ∈ s.left ++ [s.eof], t.lead = none ∧ t.trailing = none

/-- A source that writes words has no faults, and it is parsed from these words on. -/
theorem Source.start_holds (s : Source) {ws : List Word} (h : Writes 1 s.text.toList ws) :
    s.scanned.1.errors = [] ∧ s.start.Holds ws := by
  have hlines {before after : List Char} (hsplit : s.text.toList = before ++ after) :=
    s.lineOf_offset hsplit
  obtain ⟨htokens, hwords⟩ := h.tokensFrom 1 fun before after hsplit => hlines hsplit
  have hall : ∀ t ∈ s.scanned.1.allTokens, t.kind ≠ .comment ∧ t.kind ≠ .illegal := by
    intro t ht
    rcases List.mem_append.1 ht with ht | ht
    · obtain ⟨u, hu, rfl⟩ := List.mem_map.1 ht
      exact (htokens u hu).2
    · have hkind : s.scanned.1.eof.kind = .eof := rfl
      rw [List.mem_singleton.1 ht, hkind]
      decide
  let bare (t : Token) : SignificantToken := ⟨t, none, none, []⟩
  have hsignificant : s.tokens = (s.scanned.1.tokens.map (·.token)).map bare ++
      [bare s.scanned.1.eof] := by
    have hbare : s.tokens = s.scanned.1.allTokens.map bare := significantFrom_bare _ 0 hall
    rw [hbare, Scanned.allTokens, List.map_append, List.map_singleton]
  have hleft : s.start.left = (s.scanned.1.tokens.map (·.token)).map bare := by
    show s.tokens.dropLast = _
    rw [hsignificant, List.dropLast_concat]
  have heof : s.start.eof = bare s.scanned.1.eof := by
    show s.tokens.getLastD _ = _
    rw [hsignificant, List.getLastD_concat]
  have hbare : ∀ t ∈ s.start.left ++ [s.start.eof], t.lead = none ∧ t.trailing = none := by
    rw [hleft, heof, ← List.map_singleton, ← List.map_append]
    intro t ht
    obtain ⟨u, -, rfl⟩ := List.mem_map.1 ht
    exact ⟨rfl, rfl⟩
  refine ⟨List.flatMap_eq_nil_iff.2 fun t ht => (htokens t ht).1, ⟨?_, ?_, ?_, hbare⟩⟩
  · rw [hleft, List.map_map, List.map_map]
    exact hwords
  · rw [heof]
    rfl
  · have hlead : s.start.lead = s.start.current.lead := rfl
    rw [hlead]
    refine (hbare _ ?_).1
    unfold ParseState.current
    cases s.start.left with
    | nil => exact List.mem_cons_self
    | cons t left => exact List.mem_cons_self

end Idl
