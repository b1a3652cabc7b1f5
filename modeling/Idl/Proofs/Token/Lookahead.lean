/-
Idl/Proofs/Token/Lookahead.lean

What a token asks of the text behind it.

A token is read up to the first character that does not go on with it, and nothing behind that
character matters.  A separator goes on with no token, save a literal that its line or the text cuts off,
and behind such a literal stands a newline or nothing.  So a token stays what it is when another text
is put behind it that starts in the same way, or with a separator, or that is empty (`scan_congr`).
Comments and illegal text are left aside.
-/
import Idl.Proofs.Token.Literals

namespace Idl

/-! ### Texts that start alike -/

/-- The characters that may stand between tokens. -/
def separators : List Char := [' ', '\t', '\r', '\n']

/-- What is asked of every separator is asked of four characters. -/
theorem forall_separators {P : Char → Prop} :
    (∀ d ∈ separators, P d) ↔ P ' ' ∧ P '\t' ∧ P '\r' ∧ P '\n' := by
  simp [separators]

/-- The text `ds` starts as `cs` does, or with a separator or with nothing where `cs` starts with
anything. -/
def StartsAlike (cs ds : List Char) : Prop :=
  ds.head? = cs.head? ∨ cs ≠ [] ∧ ∀ d ∈ ds.head?, d ∈ separators

namespace StartsAlike

variable {cs ds : List Char}

theorem eq_nil (h : StartsAlike [] ds) : ds = [] := by
  rcases h with h | ⟨hne, -⟩
  · exact List.head?_eq_none_iff.1 h
  · exact absurd rfl hne

/-- Nothing may stand where anything stands. -/
theorem nil (cs : List Char) : StartsAlike cs [] := by
  cases cs with
  | nil => exact .inl rfl
  | cons c cs => exact .inr ⟨List.cons_ne_nil c cs, fun d hd => by cases hd⟩

/-- A separator may stand where anything stands. -/
theorem separator {d : Char} (hcs : cs ≠ []) (hd : d ∈ separators) (ds : List Char) :
    StartsAlike cs (d :: ds) := .inr ⟨hcs, fun _ h => Option.some.inj h ▸ hd⟩

/-- Texts start alike if what follows a part that they share does. -/
theorem behind {n : Nat} (h : StartsAlike (cs.drop n) ds) : StartsAlike cs (cs.take n ++ ds) := by
  cases n with
  | zero => exact h
  | succ n =>
    cases cs with
    | nil => exact h
    | cons c cs => exact .inl rfl

/-- What does not hold of separators and of the start of a text does not hold of the other's start. -/
theorem stops (h : StartsAlike cs ds) {p : Char → Prop} (hsep : ∀ d ∈ separators, ¬ p d)
    (hcs : ∀ c ∈ cs.head?, ¬ p c) : ∀ d ∈ ds.head?, ¬ p d := by
  intro d hd
  rcases h with h | ⟨-, hmem⟩
  · exact hcs d (h ▸ hd)
  · exact hsep d (hmem d hd)

/-- What is kept of a text, when another one is put behind it, and what is put there. -/
theorem parts {n : Nat} (h : StartsAlike (cs.drop n) ds) :
    (cs.take n ++ ds).take n = cs.take n ∧ (cs.take n ++ ds).drop n = ds := by
  rcases Nat.le_total n cs.length with hle | hle
  · have hlength := List.length_take_of_le hle
    exact ⟨List.take_left' hlength, List.drop_left' hlength⟩
  · rw [List.drop_of_length_le hle] at h
    rw [h.eq_nil, List.append_nil, List.take_take, Nat.min_self]
    refine ⟨rfl, List.drop_of_length_le ?_⟩
    rw [List.take_of_length_le hle]
    exact hle

/-- A text of which at most its newline is looked at starts as the other one does, if that newline
stays. -/
theorem head?_eq (h : StartsAlike cs ds) (hcs : ∀ c ∈ cs.head?, c = '\n')
    (hline : cs.head? = some '\n' → ds.head? = some '\n') : ds.head? = cs.head? := by
  cases cs with
  | nil => rw [h.eq_nil]
  | cons c cs =>
    obtain rfl := hcs c rfl
    exact hline rfl

end StartsAlike

/-! ### Lengths -/

/-- A length that is read off the start of a text: what is behind it does not matter, as long as it
starts alike. -/
structure ReadAhead (f : List Char → Nat) : Prop where
  le (cs : List Char) : f cs ≤ cs.length
  congr {cs ds : List Char} (h : StartsAlike (cs.drop (f cs)) ds) : f (cs.take (f cs) ++ ds) = f cs

/-- More of the text may be kept than the length says. -/
theorem ReadAhead.take {f : List Char → Nat} (hf : ReadAhead f) {cs ds : List Char} {n : Nat}
    (hn : f cs ≤ n) (h : StartsAlike (cs.drop n) ds) : f (cs.take n ++ ds) = f cs := by
  obtain ⟨k, rfl⟩ := Nat.exists_eq_add_of_le hn
  rw [List.take_add, List.append_assoc]
  refine hf.congr (StartsAlike.behind ?_)
  rwa [List.drop_drop]

section Runs

variable {p : Char → Bool} (hsep : ∀ d ∈ separators, ¬ p d = true)
include hsep

theorem takeWhile_congr {cs ds : List Char} (h : StartsAlike (cs.drop (runLength p cs)) ds) :
    (cs.take (runLength p cs) ++ ds).takeWhile p = cs.takeWhile p := by
  rw [take_runLength]
  exact takeWhile_run (fun c hc => List.mem_takeWhile_imp hc)
    (h.stops hsep (head?_drop_runLength p cs))

theorem runLength_readAhead : ReadAhead (runLength p) where
  le _ := (List.takeWhile_prefix p).length_le
  congr h := congrArg List.length (takeWhile_congr hsep h)

end Runs

/-! ### Numbers -/

theorem digits_readAhead : ReadAhead (runLength isDigit) :=
  runLength_readAhead (forall_separators.2 (by decide))

theorem fractionLength_eq_zero {cs : List Char} (h : ∀ c ∈ cs.head?, ¬ c = '.') :
    fractionLength cs = 0 := by
  unfold fractionLength
  split
  · exact absurd rfl (h '.' rfl)
  · rfl

theorem fractionLength_readAhead : ReadAhead fractionLength where
  le cs := by
    unfold fractionLength
    split
    · next cs =>
      rw [Nat.add_comm]
      exact Nat.succ_le_succ (digits_readAhead.le cs)
    · exact Nat.zero_le _
  congr {cs ds} h := by
    by_cases hdot : cs.head? = some '.'
    · obtain ⟨cs, rfl⟩ := List.head?_eq_some_iff.1 hdot
      have hlength (cs : List Char) : fractionLength ('.' :: cs) = runLength isDigit cs + 1 :=
        Nat.add_comm ..
      rw [hlength] at h ⊢
      rw [List.take_succ_cons, List.cons_append, hlength, digits_readAhead.congr h]
    · have hcs : ∀ c ∈ cs.head?, ¬ c = '.' := fun c hc heq => hdot (heq ▸ hc)
      have hzero := fractionLength_eq_zero hcs
      rw [hzero] at h ⊢
      exact fractionLength_eq_zero (h.stops (p := (· = '.')) (forall_separators.2 (by decide)) hcs)

/-- The letters of exponents. -/
def IsExponentLetter (c : Char) : Prop := c = 'e' ∨ c = 'E'

/-- The signs of exponents. -/
def IsSign (c : Char) : Prop := c = '+' ∨ c = '-'

theorem exponentLength_eq_zero {cs : List Char} (h : ∀ c ∈ cs.head?, ¬ IsExponentLetter c) :
    exponentLength cs = 0 := by
  cases cs with
  | nil => rfl
  | cons c cs => exact if_neg (h c rfl)

theorem exponentLength_signed {e sign : Char} (he : IsExponentLetter e) (hsign : IsSign sign)
    (cs : List Char) : exponentLength (e :: sign :: cs) = runLength isDigit cs + 2 := by
  have hlength : exponentLength (e :: sign :: cs) = 2 + runLength isDigit cs := by
    refine (if_pos he).trans ?_
    rcases hsign with rfl | rfl
    · rfl
    · rfl
  rw [hlength, Nat.add_comm]

theorem exponentLength_plain {e : Char} (he : IsExponentLetter e) {cs : List Char}
    (h : ∀ c ∈ cs.head?, ¬ IsSign c) : exponentLength (e :: cs) = runLength isDigit cs + 1 := by
  have hlength : exponentLength (e :: cs) = 1 + runLength isDigit cs := by
    refine (if_pos he).trans ?_
    split
    · exact absurd (.inl rfl) (h '+' rfl)
    · exact absurd (.inr rfl) (h '-' rfl)
    · rfl
  rw [hlength, Nat.add_comm]

/-- The start of a text is an exponent with a sign, one without a sign, or no exponent. -/
theorem exponentLength_cases (cs : List Char) :
    (∃ e sign ds, cs = e :: sign :: ds ∧ IsExponentLetter e ∧ IsSign sign) ∨
      (∃ e ds, cs = e :: ds ∧ IsExponentLetter e ∧ ∀ c ∈ ds.head?, ¬ IsSign c) ∨
        ∀ c ∈ cs.head?, ¬ IsExponentLetter c := by
  by_cases hletter : ∃ e ∈ cs.head?, IsExponentLetter e
  · obtain ⟨e, he, hletter⟩ := hletter
    obtain ⟨ds, rfl⟩ := List.head?_eq_some_iff.1 he
    by_cases hsign : ∃ c ∈ ds.head?, IsSign c
    · obtain ⟨sign, hc, hsign⟩ := hsign
      obtain ⟨ds, rfl⟩ := List.head?_eq_some_iff.1 hc
      exact .inl ⟨e, sign, ds, rfl, hletter, hsign⟩
    · exact .inr (.inl ⟨e, ds, rfl, hletter, fun c hc hs => hsign ⟨c, hc, hs⟩⟩)
  · exact .inr (.inr fun c hc he => hletter ⟨c, hc, he⟩)

theorem exponentLength_readAhead : ReadAhead exponentLength where
  le cs := by
    rcases exponentLength_cases cs with ⟨e, sign, ds, rfl, he, hsign⟩ | ⟨e, ds, rfl, he, hds⟩ | hcs
    · rw [exponentLength_signed he hsign]
      exact Nat.add_le_add_right (digits_readAhead.le ds) 2
    · rw [exponentLength_plain he hds]
      exact Nat.succ_le_succ (digits_readAhead.le ds)
    · rw [exponentLength_eq_zero hcs]
      exact Nat.zero_le _
  congr {cs rest} h := by
    rcases exponentLength_cases cs with ⟨e, sign, ds, rfl, he, hsign⟩ | ⟨e, ds, rfl, he, hds⟩ | hcs
    · rw [exponentLength_signed he hsign] at h ⊢
      rw [List.take_succ_cons, List.take_succ_cons, List.cons_append, List.cons_append,
        exponentLength_signed he hsign, digits_readAhead.congr h]
    · rw [exponentLength_plain he hds] at h ⊢
      have halike : StartsAlike ds (ds.take (runLength isDigit ds) ++ rest) := .behind h
      have hnone := halike.stops (p := IsSign) (forall_separators.2 (by unfold IsSign; decide)) hds
      rw [List.take_succ_cons, List.cons_append, exponentLength_plain he hnone,
        digits_readAhead.congr h]
    · have hzero := exponentLength_eq_zero hcs
      rw [hzero] at h ⊢
      exact exponentLength_eq_zero
        (h.stops (forall_separators.2 (by unfold IsExponentLetter; decide)) hcs)

/-- The length of a number that is not hexadecimal. -/
def decimalLength (cs : List Char) : Nat :=
  let whole := runLength isDigit cs
  let fraction := fractionLength (cs.drop whole)
  whole + fraction + exponentLength (cs.drop (whole + fraction))

theorem decimalLength_le (cs : List Char) : decimalLength cs ≤ cs.length := by
  have hwhole := digits_readAhead.le cs
  have hfraction := fractionLength_readAhead.le (cs.drop (runLength isDigit cs))
  have hexponent := exponentLength_readAhead.le
    (cs.drop (runLength isDigit cs + fractionLength (cs.drop (runLength isDigit cs))))
  unfold decimalLength
  simp only [List.length_drop] at hfraction hexponent ⊢
  omega

theorem decimal_more (cs : List Char) (fault : Nat → NumberFault → List LexError) :
    (scanNumber.decimal cs fault).more = decimalLength cs - 1 := by
  unfold scanNumber.decimal
  dsimp only
  split
  · rfl
  · rfl

/-- What is behind a part of what is kept of a text. -/
theorem drop_take_append {cs ds : List Char} {m n : Nat} (hm : m ≤ n) (hn : n ≤ cs.length) :
    (cs.take n ++ ds).drop m = (cs.drop m).take (n - m) ++ ds := by
  have hlength : m ≤ (cs.take n).length := by
    rw [List.length_take_of_le hn]
    exact hm
  rw [List.drop_append_of_le_length hlength, List.drop_take]

/-- The same number with another text behind it; the faults are reported for its characters. -/
theorem decimal_congr {cs ds : List Char} (hpos : 0 < decimalLength cs)
    (h : StartsAlike (cs.drop (decimalLength cs)) ds)
    (fault fault' : Nat → NumberFault → List LexError)
    (hfault : fault' (decimalLength cs) = fault (decimalLength cs)) :
    scanNumber.decimal (cs.take (decimalLength cs) ++ ds) fault' = scanNumber.decimal cs fault := by
  have hle := decimalLength_le cs
  have htake : (cs.take (decimalLength cs) ++ ds).take (decimalLength cs) =
      cs.take (decimalLength cs) := List.take_left' (List.length_take_of_le hle)
  have hhead : (cs.take (decimalLength cs) ++ ds).head? = cs.head? := by
    cases cs with
    | nil => exact absurd hpos (Nat.lt_irrefl 0)
    | cons c cs =>
      obtain ⟨n, hn⟩ := Nat.exists_eq_succ_of_ne_zero (Nat.ne_of_gt hpos)
      rw [hn]
      rfl
  have hdrop {m : Nat} (hm : m ≤ decimalLength cs) :
      StartsAlike ((cs.drop m).drop (decimalLength cs - m)) ds := by
    rw [List.drop_drop, Nat.add_sub_cancel' hm]
    exact h
  -- each part is read from a place of its own, so what is kept behind that place has to hold it
  have hpart {f : List Char → Nat} (hf : ReadAhead f) {m : Nat}
      (hm : m + f (cs.drop m) ≤ decimalLength cs) :
      f ((cs.take (decimalLength cs) ++ ds).drop m) = f (cs.drop m) := by
    have hle' : m ≤ decimalLength cs := Nat.le_trans (Nat.le_add_right ..) hm
    rw [drop_take_append hle' hle]
    exact hf.take (Nat.le_sub_of_add_le' hm) (hdrop hle')
  have hwhole : runLength isDigit (cs.take (decimalLength cs) ++ ds) = runLength isDigit cs :=
    digits_readAhead.take (by unfold decimalLength; dsimp only; omega) h
  have hfraction := hpart fractionLength_readAhead (m := runLength isDigit cs)
    (by unfold decimalLength; dsimp only; omega)
  have hexponent := hpart exponentLength_readAhead
    (m := runLength isDigit cs + fractionLength (cs.drop (runLength isDigit cs))) (Nat.le_refl _)
  have hlength : runLength isDigit cs + fractionLength (cs.drop (runLength isDigit cs)) +
      exponentLength (cs.drop (runLength isDigit cs +
        fractionLength (cs.drop (runLength isDigit cs)))) = decimalLength cs := rfl
  unfold scanNumber.decimal
  simp only [hwhole, hfraction, hexponent, hhead, hlength, htake, hfault]

/-- The faults of numbers. -/
def numberFault (cs : List Char) (length : Nat) (f : NumberFault) : List LexError :=
  [⟨.invalidNumber f, ⟨0, byteWidth (cs.take length)⟩⟩]

/-- The letters behind the zero of a hexadecimal number. -/
def IsRadixLetter (c : Char) : Prop := c = 'x' ∨ c = 'X'

/-- A number is hexadecimal. -/
def IsHexadecimal (cs : List Char) : Prop :=
  cs.head? = some '0' ∧ ∃ x ∈ cs.tail.head?, IsRadixLetter x

theorem scanNumber_hexadecimal {x : Char} (hx : IsRadixLetter x) (cs : List Char) :
    scanNumber ('0' :: x :: cs) =
      { kind := .int, more := 1 + runLength (isDigitIn 16) cs
        faults := if runLength (isDigitIn 16) cs = 0 then numberFault ('0' :: x :: cs) 2 .hexDigitsMissing
          else [] } := if_pos hx

theorem scanNumber_decimal {cs : List Char} (h : ¬ IsHexadecimal cs) :
    scanNumber cs = scanNumber.decimal cs (numberFault cs) := by
  unfold scanNumber
  dsimp only
  split
  · next x ds => exact if_neg fun hx => h ⟨rfl, x, rfl, hx⟩
  · rfl

/-- The characters behind a number decide nothing about its radix. -/
theorem IsHexadecimal.of_take {cs ds : List Char} {n : Nat} (hn : 0 < n) (hcs : cs ≠ [])
    (h : StartsAlike (cs.drop n) ds) (hhex : IsHexadecimal (cs.take n ++ ds)) :
    IsHexadecimal cs := by
  obtain ⟨hzero, x, hx, hletter⟩ := hhex
  obtain ⟨c, cs, rfl⟩ := List.exists_cons_of_ne_nil hcs
  obtain ⟨n, rfl⟩ := Nat.exists_eq_succ_of_ne_zero (Nat.ne_of_gt hn)
  refine ⟨hzero, Classical.by_contradiction fun hnone => ?_⟩
  have hcs : ∀ c ∈ cs.head?, ¬ IsRadixLetter c := fun c hc hr => hnone ⟨c, hc, hr⟩
  have halike : StartsAlike cs (cs.take n ++ ds) := .behind h
  exact halike.stops (forall_separators.2 (by unfold IsRadixLetter; decide)) hcs x hx hletter

theorem scanNumber_more {cs : List Char} (hpos : 0 < decimalLength cs) (h : ¬ IsHexadecimal cs) :
    (scanNumber cs).more + 1 = decimalLength cs := by
  rw [scanNumber_decimal h, decimal_more]
  exact Nat.sub_add_cancel hpos

theorem scanNumber_congr {cs ds : List Char} (hpos : 0 < decimalLength cs)
    (h : StartsAlike (cs.drop ((scanNumber cs).more + 1)) ds) :
    scanNumber (cs.take ((scanNumber cs).more + 1) ++ ds) = scanNumber cs := by
  by_cases hhex : IsHexadecimal cs
  · obtain ⟨hzero, x, hx, hletter⟩ := hhex
    obtain ⟨tail, rfl⟩ := List.head?_eq_some_iff.1 hzero
    obtain ⟨hs, rfl⟩ := List.head?_eq_some_iff.1 hx
    have hdigits : ReadAhead (runLength (isDigitIn 16)) :=
      runLength_readAhead (forall_separators.2 (by decide))
    have hmore : (scanNumber ('0' :: x :: hs)).more + 1 = runLength (isDigitIn 16) hs + 2 := by
      rw [scanNumber_hexadecimal hletter]
      exact (Nat.add_right_comm ..).trans (Nat.add_comm ..)
    rw [hmore] at h ⊢
    rw [List.take_succ_cons, List.take_succ_cons, List.cons_append, List.cons_append,
      scanNumber_hexadecimal hletter, scanNumber_hexadecimal hletter, hdigits.congr h]
    rfl
  · have hcs : cs ≠ [] := by
      rintro rfl
      exact absurd (decimalLength_le []) (Nat.not_le.2 hpos)
    rw [scanNumber_more hpos hhex] at h ⊢
    have hfault : numberFault (cs.take (decimalLength cs) ++ ds) (decimalLength cs) =
        numberFault cs (decimalLength cs) := by
      funext f
      unfold numberFault
      rw [List.take_left' (List.length_take_of_le (decimalLength_le cs))]
    rw [scanNumber_decimal fun hnew => hhex (hnew.of_take hpos hcs h), scanNumber_decimal hhex,
      decimal_congr hpos h _ _ hfault]

/-! ### Words and literals -/

theorem not_isIdentContinue : ∀ d ∈ separators, ¬ isIdentContinue d = true :=
  forall_separators.2 (by decide +kernel)

theorem scanWord_congr {c : Char} {cs ds : List Char}
    (h : StartsAlike (cs.drop (scanWord c cs).more) ds) :
    scanWord c (cs.take (scanWord c cs).more ++ ds) = scanWord c cs := by
  have htail : (cs.take (scanWord c cs).more ++ ds).takeWhile isIdentContinue =
      cs.takeWhile isIdentContinue := takeWhile_congr not_isIdentContinue h
  unfold scanWord at htail ⊢
  dsimp only at htail ⊢
  rw [htail]

/-- Behind a body that is not closed comes the end of its line or of the text. -/
theorem QuotedBody.read_open {quote : Char} {start : Nat} {cs : List Char}
    (h : (read quote start cs).closed = false) :
    ∀ c ∈ (cs.drop (read quote start cs).length).head?, c = '\n' := by
  fun_induction read quote start cs with
  | case1 => simp
  | case2 =>
    intro c hc
    exact (Option.some.inj hc).symm
  | case3 => cases h
  | case4 start cs e rest hn hq ih =>
    dsimp only
    rw [drop_escape]
    exact ih h
  | case5 start c cs hn hq hb rest ih =>
    dsimp only
    rw [Nat.add_comm, List.drop_succ_cons]
    exact ih h

/-- The newline that cuts a token off is still there in the other text, unless nothing is wrong with the
token. -/
def Scan.CutAlike (s : Scan) (cs ds : List Char) : Prop :=
  s.faults = [] ∨ ((cs.drop s.more).head? = some '\n' → ds.head? = some '\n')

/-- What is read of a body depends on what it takes, and on whether the text behind it starts
alike. -/
theorem QuotedBody.read_alike {quote : Char} (hquote : IsQuote quote) {start : Nat}
    {cs ds : List Char} (h : StartsAlike (cs.drop (read quote start cs).length) ds)
    (hcut : (read quote start cs).closed = true ∨
      ((cs.drop (read quote start cs).length).head? = some '\n' → ds.head? = some '\n')) :
    read quote start (cs.take (read quote start cs).length ++ ds) = read quote start cs := by
  refine read_congr hquote ?_
  -- a closed body does not look behind its quote
  cases hclosed : (read quote start cs).closed with
  | true => exact .inl rfl
  | false =>
    have hline := hcut.resolve_left (by rw [hclosed]; exact Bool.false_ne_true)
    exact .inr (h.head?_eq (read_open hclosed) hline)

theorem scanString_congr {cs ds : List Char} (h : StartsAlike (cs.drop (scanString cs).more) ds)
    (hcut : (scanString cs).CutAlike cs ds) :
    scanString (cs.take (scanString cs).more ++ ds) = scanString cs := by
  have hclosed : (scanString cs).faults = [] → (QuotedBody.read '"' 1 cs).closed = true := by
    intro hfaults
    by_contra hopen
    have hnone : ([⟨.unterminatedString, _⟩] : List LexError) = [] :=
      (if_neg hopen).symm.trans (List.append_eq_nil_iff.1 hfaults).2
    cases hnone
  have hbody : QuotedBody.read '"' 1 (cs.take (QuotedBody.read '"' 1 cs).length ++ ds) =
      QuotedBody.read '"' 1 cs := QuotedBody.read_alike (.inl rfl) h (hcut.imp_left hclosed)
  have hlength : (QuotedBody.read '"' 1 cs).length ≤ cs.length := (QuotedBody.read_length ..).1
  unfold scanString
  dsimp only
  rw [hbody, List.take_left' (List.length_take_of_le hlength)]

theorem scanChar_congr {cs ds : List Char} (h : StartsAlike (cs.drop (scanChar cs).more) ds)
    (hcut : (scanChar cs).CutAlike cs ds) :
    scanChar (cs.take (scanChar cs).more ++ ds) = scanChar cs := by
  have hclosed : (scanChar cs).faults = [] → (QuotedBody.read '\'' 1 cs).closed = true := by
    intro hfaults
    by_contra hopen
    have hnone : ([⟨.invalidCharacter, _⟩] : List LexError) = [] :=
      (if_neg fun h => hopen (Bool.and_eq_true_iff.1 h).1).symm.trans
        (List.append_eq_nil_iff.1 hfaults).2
    cases hnone
  have hbody : QuotedBody.read '\'' 1 (cs.take (QuotedBody.read '\'' 1 cs).length ++ ds) =
      QuotedBody.read '\'' 1 cs := QuotedBody.read_alike (.inr rfl) h (hcut.imp_left hclosed)
  have hlength : (QuotedBody.read '\'' 1 cs).length ≤ cs.length := (QuotedBody.read_length ..).1
  unfold scanChar
  dsimp only
  rw [hbody, List.take_left' (List.length_take_of_le hlength)]

theorem scanRawString_congr {cs ds : List Char}
    (h : StartsAlike (cs.drop (scanRawString cs).more) ds) :
    scanRawString (cs.take (scanRawString cs).more ++ ds) = scanRawString cs := by
  have hclosed {cs : List Char} (hlength : runLength (· != backQuote) cs < cs.length) :
      scanRawString cs = { kind := .string, more := runLength (· != backQuote) cs + 1 } :=
    if_pos hlength
  by_cases hlength : runLength (· != backQuote) cs < cs.length
  · have hnew : cs.take (runLength (· != backQuote) cs + 1) ++ ds =
        cs.takeWhile (· != backQuote) ++ backQuote :: ds := by
      rw [take_runLength_succ hlength, take_runLength, List.append_assoc, List.singleton_append]
    have hrun : runLength (· != backQuote) (cs.takeWhile (· != backQuote) ++ backQuote :: ds) =
        runLength (· != backQuote) cs :=
      runLength_run (fun c hc => List.mem_takeWhile_imp (p := (· != backQuote)) hc) (by simp)
    have hshorter : runLength (· != backQuote) (cs.takeWhile (· != backQuote) ++ backQuote :: ds) <
        (cs.takeWhile (· != backQuote) ++ backQuote :: ds).length := by
      rw [hrun, List.length_append]
      exact Nat.lt_add_of_pos_right (Nat.succ_pos _)
    rw [hclosed hlength, hnew, hclosed hshorter, hrun]
  · -- the literal takes all of the text, and nothing starts as the end of a text does
    have hmore : (scanRawString cs).more = runLength (· != backQuote) cs :=
      congrArg Scan.more (if_neg hlength)
    have hall : cs.length ≤ runLength (· != backQuote) cs := Nat.not_lt.1 hlength
    rw [hmore, List.drop_of_length_le hall] at h
    rw [hmore, List.take_of_length_le hall, h.eq_nil, List.append_nil]

/-! ### Block comments -/

/-- A character that opens or closes no level of a comment. -/
theorem blockCommentLength?_skip {depth : Nat} {c : Char} {cs : List Char}
    (hclose : ¬ (c = '*' ∧ cs.head? = some '/')) (hopen : ¬ (c = '/' ∧ cs.head? = some '*')) :
    blockCommentLength? depth (c :: cs) = (blockCommentLength? depth cs).map (· + 1) := by
  rw [blockCommentLength?]
  · rintro ds rfl rfl
    exact hclose ⟨rfl, rfl⟩
  · rintro ds rfl rfl
    exact hopen ⟨rfl, rfl⟩

/-- A block comment is closed by what it takes. -/
theorem blockCommentLength?_take {depth n : Nat} {cs : List Char}
    (h : blockCommentLength? depth cs = some n) :
    blockCommentLength? depth (cs.take n) = some n := by
  -- by the cases of reading a comment: it ends, a level closes, a level opens, or it goes on
  fun_induction blockCommentLength? depth cs generalizing n with
  | case1 cs =>
    obtain rfl := Option.some.inj h
    rfl
  | case2 cs depth ih =>
    obtain ⟨n, hn, rfl⟩ := Option.map_eq_some_iff.1 h
    show (blockCommentLength? depth (cs.take n)).map (· + 2) = _
    rw [ih hn]
    rfl
  | case3 depth cs ih =>
    obtain ⟨n, hn, rfl⟩ := Option.map_eq_some_iff.1 h
    show (blockCommentLength? (depth + 1) (cs.take n)).map (· + 2) = _
    rw [ih hn]
    rfl
  | case4 depth c cs hclose hopen ih =>
    obtain ⟨n, hn, rfl⟩ := Option.map_eq_some_iff.1 h
    -- what opens or closes a level does so in the whole text as well
    have hnext {d : Char} (hd : (cs.take n).head? = some d) : ∃ ds, cs = d :: ds := by
      cases n with
      | zero => cases hd
      | succ n =>
        rw [List.head?_take, if_neg (Nat.succ_ne_zero n)] at hd
        exact List.head?_eq_some_iff.1 hd
    rw [List.take_succ_cons, blockCommentLength?_skip, ih hn]
    · rfl
    · rintro ⟨rfl, hd⟩
      obtain ⟨ds, rfl⟩ := hnext hd
      exact hclose ds rfl rfl
    · rintro ⟨rfl, hd⟩
      obtain ⟨ds, rfl⟩ := hnext hd
      exact hopen ds rfl rfl
  | case5 => cases h

/-! ### Any token -/

namespace StartsNumber

variable {c : Char} {cs ds : List Char}

/-- A number has a digit, or a period and a digit behind it. -/
theorem decimalLength_pos (h : StartsNumber c cs) :
    0 < decimalLength (c :: cs) ∧ (isDigit c = true ∨ 1 < decimalLength (c :: cs)) := by
  have hrun {c : Char} (hc : isDigit c = true) (cs : List Char) :
      runLength isDigit (c :: cs) = runLength isDigit cs + 1 :=
    congrArg List.length (List.takeWhile_cons_of_pos hc)
  rcases h with hc | ⟨rfl, d, hd, hdigit⟩
  · refine ⟨?_, .inl hc⟩
    unfold decimalLength
    rw [hrun hc]
    dsimp only
    omega
  · obtain ⟨cs, rfl⟩ := List.head?_eq_some_iff.1 hd
    have hfraction : decimalLength ('.' :: d :: cs) = 0 + (1 + runLength isDigit (d :: cs)) +
        exponentLength (('.' :: d :: cs).drop (0 + (1 + runLength isDigit (d :: cs)))) := rfl
    rw [hfraction, hrun hdigit]
    exact ⟨by omega, .inr (by omega)⟩

/-- A number starts with the same character when another text is put behind it. -/
theorem congr (h : StartsNumber c cs)
    (halike : StartsAlike (cs.drop (scanNumber (c :: cs)).more) ds) :
    StartsNumber c (cs.take (scanNumber (c :: cs)).more ++ ds) := by
  obtain ⟨hpos, hlong⟩ := h.decimalLength_pos
  rcases h with hc | ⟨rfl, d, hd, hdigit⟩
  · exact .inl hc
  · have hperiod : ¬ IsHexadecimal ('.' :: cs) := fun hhex => by
      have hzero := Option.some.inj hhex.1
      revert hzero
      decide
    -- the digit behind the period belongs to the number, so it is kept
    have hmore : 0 < (scanNumber ('.' :: cs)).more := by
      have hlong := hlong.resolve_left (by decide)
      rw [← scanNumber_more hpos hperiod] at hlong
      exact Nat.lt_of_succ_lt_succ hlong
    obtain ⟨n, hn⟩ := Nat.exists_eq_succ_of_ne_zero (Nat.ne_of_gt hmore)
    obtain ⟨cs, rfl⟩ := List.head?_eq_some_iff.1 hd
    refine .inr ⟨rfl, d, ?_, hdigit⟩
    rw [hn]
    rfl

/-- No number starts with a character when the text behind it starts as one behind which none
starts. -/
theorem not_congr (h : ¬ StartsNumber c cs) (halike : StartsAlike cs ds) : ¬ StartsNumber c ds := by
  rintro (hc | ⟨rfl, d, hd, hdigit⟩)
  · exact h (.inl hc)
  · exact halike.stops (p := (isDigit · = true)) (forall_separators.2 (by decide))
      (fun d hd hdigit => h (.inr ⟨rfl, d, hd, hdigit⟩)) d hd hdigit

end StartsNumber

/-- Tokens that start with a slash are comments or illegal. -/
theorem scan_slash (cs : List Char) :
    (scan '/' cs).kind = .comment ∨ (scan '/' cs).kind = .illegal := by
  cases scanForm '/' cs with
  | word hc hscan =>
    have hword : ¬ isIdentStart '/' = true := by decide +kernel
    exact absurd hc hword
  | number hc hscan =>
    rcases hc with hc | ⟨hc, -⟩
    · exact absurd hc (by decide)
    · exact absurd hc (by decide)
  | string hc hscan => exact absurd hc (by decide)
  | rawString hc hscan => exact absurd hc (by decide)
  | char hc hscan => exact absurd hc (by decide)
  | lineComment hc hnext hscan => exact .inl (hscan ▸ rfl)
  | blockComment hc hnext hscan => exact hscan ▸ scanBlockComment_kind cs
  | mark p hc hscan => cases hc
  | other hscan => exact .inr (hscan ▸ rfl)

/-- A token of one character does not look at the text behind it, save that no number starts. -/
theorem scan_mark {c : Char} {cs ds : List Char} (hword : ¬ isIdentStart c = true)
    (hcs : ¬ StartsNumber c cs) (hds : ¬ StartsNumber c ds) (hstring : c ≠ '"')
    (hraw : c ≠ backQuote) (hchar : c ≠ '\'') (hslash : c ≠ '/') : scan c cs = scan c ds := by
  rw [← startsNumber_iff] at hcs hds
  unfold scan
  simp only [hword, hcs, hds, hstring, hraw, hchar, hslash, false_and, Bool.false_eq_true, if_false]

/-- A token that is no literal between quotes stays what it is when the text behind it is replaced by one
that starts alike. -/
theorem scan_congr_unquoted {c : Char} {cs ds : List Char} (hcomment : (scan c cs).kind ≠ .comment)
    (hillegal : (scan c cs).kind ≠ .illegal) (hstring : c ≠ '"') (hchar : c ≠ '\'')
    (h : StartsAlike (cs.drop (scan c cs).more) ds) :
    scan c (cs.take (scan c cs).more ++ ds) = scan c cs := by
  by_cases hword : isIdentStart c = true
  · have hscan (cs : List Char) : scan c cs = scanWord c cs := if_pos hword
    rw [hscan] at h ⊢
    rw [hscan, scanWord_congr h]
  by_cases hnumber : StartsNumber c cs
  · have hscan {cs : List Char} (hn : StartsNumber c cs) : scan c cs = scanNumber (c :: cs) :=
      (if_neg hword).trans (if_pos ((startsNumber_iff c cs).2 hn))
    rw [hscan hnumber] at h ⊢
    rw [hscan (hnumber.congr h)]
    exact scanNumber_congr hnumber.decimalLength_pos.1 h
  by_cases hraw : c = backQuote
  · subst hraw
    have hscan (cs : List Char) : scan backQuote cs = scanRawString cs := rfl
    rw [hscan] at h ⊢
    rw [hscan, scanRawString_congr h]
  by_cases hslash : c = '/'
  · subst hslash
    rcases scan_slash cs with hkind | hkind
    · exact absurd hkind hcomment
    · exact absurd hkind hillegal
  · exact scan_mark hword (StartsNumber.not_congr hnumber (.behind h)) hnumber hstring hraw hchar hslash

/-- **Tokens look ahead by one character.**  A token that is neither a comment nor illegal text stays
what it is when the text behind it is replaced by one that starts alike. -/
theorem scan_congr {c : Char} {cs ds : List Char} (hcomment : (scan c cs).kind ≠ .comment)
    (hillegal : (scan c cs).kind ≠ .illegal) (h : StartsAlike (cs.drop (scan c cs).more) ds)
    (hcut : (scan c cs).CutAlike cs ds) :
    scan c (cs.take (scan c cs).more ++ ds) = scan c cs := by
  by_cases hstring : c = '"'
  · subst hstring
    have hscan (cs : List Char) : scan '"' cs = scanString cs := rfl
    rw [hscan] at h hcut ⊢
    rw [hscan, scanString_congr h hcut]
  by_cases hchar : c = '\''
  · subst hchar
    have hscan (cs : List Char) : scan '\'' cs = scanChar cs := rfl
    rw [hscan] at h hcut ⊢
    rw [hscan, scanChar_congr h hcut]
  · exact scan_congr_unquoted hcomment hillegal hstring hchar h

end Idl
