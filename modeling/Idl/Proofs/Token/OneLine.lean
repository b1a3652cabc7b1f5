/-
Idl/Proofs/Token/OneLine.lean

Tokens that stay on their line.

A newline goes on with no word, number or mark, it ends a quoted literal even behind a backslash, and so
the only tokens that can span lines are block comments, literals between back quotes, and illegal text
(`newline_not_mem_spelling`).
-/
import Idl.Proofs.Token.Lookahead

namespace Idl

/-- What the length `f` covers of a text stays on its line. -/
def OneLine (f : List Char → Nat) : Prop := ∀ cs : List Char, '\n' ∉ cs.take (f cs)

/-! ### Words and numbers -/

theorem runLength_oneLine {p : Char → Bool} (hp : ¬ p '\n' = true) : OneLine (runLength p) := by
  intro cs
  exact not_mem_run hp cs

theorem digits_oneLine : OneLine (runLength isDigit) := runLength_oneLine (by decide)

theorem fractionLength_oneLine : OneLine fractionLength := by
  intro cs
  unfold fractionLength
  split
  · next cs =>
    rw [Nat.add_comm, List.take_succ_cons, List.mem_cons, not_or]
    exact ⟨by decide, digits_oneLine cs⟩
  · exact List.not_mem_nil

theorem exponentLength_oneLine : OneLine exponentLength := by
  have hletter {e : Char} (he : IsExponentLetter e) : '\n' ≠ e := by
    rintro rfl
    revert he
    unfold IsExponentLetter
    decide
  have hsign {s : Char} (hs : IsSign s) : '\n' ≠ s := by
    rintro rfl
    revert hs
    unfold IsSign
    decide
  intro cs
  rcases exponentLength_cases cs with ⟨e, s, ds, rfl, he, hs⟩ | ⟨e, ds, rfl, he, hds⟩ | hcs
  · rw [exponentLength_signed he hs, List.take_succ_cons, List.take_succ_cons]
    simp only [List.mem_cons, not_or]
    exact ⟨hletter he, hsign hs, digits_oneLine ds⟩
  · rw [exponentLength_plain he hds, List.take_succ_cons, List.mem_cons, not_or]
    exact ⟨hletter he, digits_oneLine ds⟩
  · rw [exponentLength_eq_zero hcs]
    exact List.not_mem_nil

theorem decimalLength_oneLine : OneLine decimalLength := by
  intro cs
  unfold decimalLength
  dsimp only
  rw [List.take_add, List.take_add, List.mem_append, List.mem_append, not_or, not_or]
  exact ⟨⟨digits_oneLine cs, fractionLength_oneLine _⟩, exponentLength_oneLine _⟩

/-! ### Quoted literals -/

theorem digitValue_newline (radix : Nat) : digitValue radix '\n' = none :=
  if_neg (Nat.lt_irrefl radix)

/-- The digits that are read off a text stay on their line. -/
theorem leadingDigits_oneLine (radix count : Nat) :
    OneLine fun cs => (leadingDigits radix count cs).length := by
  intro cs h
  have hvalues := (leadingDigits_spec radix count cs).1
  have hmem := List.mem_map_of_mem (f := digitValue radix) h
  rw [hvalues, digitValue_newline] at hmem
  obtain ⟨d, -, hd⟩ := List.mem_map.1 hmem
  cases hd

/-- A newline is part of no escape. -/
theorem Escape.read_oneLine {quote : Char} (hquote : IsQuote quote) :
    OneLine fun cs => (Escape.read quote cs).width := by
  intro cs
  cases cs with
  | nil => exact List.not_mem_nil
  | cons c cs =>
    dsimp only
    by_cases hc : c = '\n'
    · have hnone : Escape.read quote ('\n' :: cs) = ⟨0, .error (.unknown '\n')⟩ := by
        rcases hquote with rfl | rfl <;> rfl
      rw [hc, hnone]
      exact List.not_mem_nil
    -- an escape is a letter, or digits behind at most one letter
    have hfirst (n : Nat) (hn : n ≤ 1) : '\n' ∉ (c :: cs).take n := by
      intro h
      have hmem := (List.take_prefix_take_left (l := c :: cs) hn).subset h
      exact hc (List.mem_singleton.1 hmem).symm
    cases escapeForm hquote c with
    | letter d hread htake =>
      rw [hread]
      exact hfirst 1 (Nat.le_refl 1)
    | number lead radix count piece? hlead hdigit hradix hcount hread htake =>
      rw [hread]
      show '\n' ∉ (c :: cs).take (lead + (leadingDigits radix count ((c :: cs).drop lead)).length)
      rw [List.take_add, List.mem_append, not_or]
      exact ⟨hfirst lead hlead, leadingDigits_oneLine radix count _⟩
    | other hread htake =>
      rw [hread]
      exact List.not_mem_nil

/-- A quoted literal ends with its line at the latest. -/
theorem QuotedBody.read_oneLine {quote : Char} (hquote : IsQuote quote) (start : Nat) :
    OneLine fun cs => (QuotedBody.read quote start cs).length := by
  intro cs
  show '\n' ∉ cs.take (QuotedBody.read quote start cs).length
  -- by the pieces of the literal: it ends, an escape, or a plain character
  fun_induction read quote start cs with
  | case1 => exact List.not_mem_nil
  | case2 => exact List.not_mem_nil
  | case3 start cs hn =>
    show '\n' ∉ [quote]
    exact fun h => hn (List.mem_singleton.1 h).symm
  | case4 start cs e rest hn hq ih =>
    dsimp only
    rw [take_escape, List.mem_cons, List.mem_append, not_or, not_or]
    exact ⟨by decide, Escape.read_oneLine hquote cs, ih⟩
  | case5 start c cs hn hq hb rest ih =>
    dsimp only
    rw [Nat.add_comm, List.take_succ_cons, List.mem_cons, not_or]
    exact ⟨fun h => hn h.symm, ih⟩

/-! ### Any token -/

/-- **Tokens stay on their line**, save for comments, illegal text and literals between back quotes. -/
theorem newline_not_mem_spelling {c : Char} {cs : List Char} (hc : c ≠ '\n') (hraw : c ≠ backQuote)
    (hcomment : (scan c cs).kind ≠ .comment) (hillegal : (scan c cs).kind ≠ .illegal) :
    '\n' ∉ c :: cs.take (scan c cs).more := by
  rw [List.mem_cons, not_or]
  refine ⟨hc.symm, ?_⟩
  cases scanForm c cs with
  | word hword hscan =>
    rw [hscan]
    exact runLength_oneLine (p := isIdentContinue) (not_isIdentContinue _ (by decide)) cs
  | number hnumber hscan =>
    rw [hscan]
    by_cases hhex : IsHexadecimal (c :: cs)
    · obtain ⟨hzero, x, hx, hletter⟩ := hhex
      obtain rfl := Option.some.inj hzero
      obtain ⟨ds, rfl⟩ := List.head?_eq_some_iff.1 hx
      rw [scanNumber_hexadecimal hletter, Nat.add_comm, List.take_succ_cons, List.mem_cons, not_or]
      refine ⟨?_, runLength_oneLine (by decide) ds⟩
      rintro rfl
      revert hletter
      unfold IsRadixLetter
      decide
    · have hlength := scanNumber_more hnumber.decimalLength_pos.1 hhex
      have hline := decimalLength_oneLine (c :: cs)
      rw [← hlength, List.take_succ_cons] at hline
      exact fun h => hline (List.mem_cons_of_mem c h)
  | string hquote hscan =>
    rw [hscan]
    exact QuotedBody.read_oneLine (.inl rfl) 1 cs
  | rawString hquote hscan => exact absurd hquote hraw
  | char hquote hscan =>
    rw [hscan]
    exact QuotedBody.read_oneLine (.inr rfl) 1 cs
  | lineComment hslash hnext hscan =>
    rw [hscan] at hcomment
    exact absurd rfl hcomment
  | blockComment hslash hnext hscan =>
    rcases scan_slash cs with hkind | hkind
    · exact absurd (hslash ▸ hkind) hcomment
    · exact absurd (hslash ▸ hkind) hillegal
  | mark p hmark hscan =>
    rw [hscan]
    exact List.not_mem_nil
  | other hscan =>
    rw [hscan] at hillegal
    exact absurd rfl hillegal

end Idl
