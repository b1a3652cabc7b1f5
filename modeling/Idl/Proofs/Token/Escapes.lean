/-
Idl/Proofs/Token/Escapes.lean

Escapes, read twice.

The reader of tokens checks an escape on its way through a literal (`Escape.read`), and the reader of
literals takes the same escape off a body later on (`Piece.read?`).  What either of them does is
decided by the character behind the backslash (`EscapeForm`).  The first one looks at no more than one
character behind what it takes (`Escape.read_congr`), and the second one finds the piece that the first
one has seen, or nothing where the first one has seen a fault (`Piece.read?_eq`).
-/
import Idl.Proofs.Syntax.Ending

namespace Idl

/-! ### Digits -/

/-- The digits at the head of a text are those that are read, and where there are too few of them, what
follows is none. -/
theorem leadingDigits_spec (radix count : Nat) (cs : List Char) :
    (cs.take (leadingDigits radix count cs).length).map (digitValue radix) =
        (leadingDigits radix count cs).map some ∧
      (leadingDigits radix count cs).length ≤ count ∧
      ((leadingDigits radix count cs).length < count →
        ∀ c ∈ (cs.drop (leadingDigits radix count cs).length).head?, digitValue radix c = none) := by
  fun_induction leadingDigits radix count cs with
  | case1 => simp
  | case2 => simp
  | case3 count c cs d h ih =>
    obtain ⟨htake, hle, hnext⟩ := ih
    refine ⟨?_, Nat.succ_le_succ hle, fun hlt => hnext (Nat.lt_of_succ_lt_succ hlt)⟩
    rw [List.length_cons, List.take_succ_cons, List.map_cons, htake, h, List.map_cons]
  | case4 count c cs h =>
    refine ⟨rfl, Nat.zero_le _, fun _ d hd => ?_⟩
    rw [← Option.some.inj hd]
    exact h

/-- Only the digits decide what is read, and what follows them if there are too few. -/
theorem leadingDigits_append {radix count : Nat} {pre rest : List Char} {ds : List Nat}
    (hpre : pre.map (digitValue radix) = ds.map some) (hle : pre.length ≤ count)
    (hrest : pre.length < count → ∀ c ∈ rest.head?, digitValue radix c = none) :
    leadingDigits radix count (pre ++ rest) = ds := by
  induction pre generalizing count ds with
  | nil =>
    obtain rfl : ds = [] := (List.map_eq_nil_iff.1 hpre.symm)
    cases count with
    | zero => rfl
    | succ count =>
      cases rest with
      | nil => rfl
      | cons c rest =>
        have hnone := hrest (Nat.succ_pos _) c rfl
        rw [List.nil_append, leadingDigits, hnone]
  | cons c pre ih =>
    cases ds with
    | nil => cases hpre
    | cons d ds =>
      obtain ⟨hc, hpre⟩ := List.cons.inj hpre
      cases count with
      | zero => cases hle
      | succ count =>
        rw [List.cons_append, leadingDigits, hc]
        show d :: leadingDigits radix count (pre ++ rest) = _
        rw [ih hpre (Nat.le_of_succ_le_succ hle) fun hlt => hrest (Nat.succ_lt_succ hlt)]

/-- As many digits are read as are asked for if there are so many characters, and all are digits. -/
theorem leadingDigits_full (radix count : Nat) (cs : List Char) :
    ((cs.take count).length = count ∧ (cs.take count).all (isDigitIn radix) = true) ↔
      (leadingDigits radix count cs).length = count := by
  fun_induction leadingDigits radix count cs with
  | case1 => simp
  | case2 => simp
  | case3 count c cs d h ih =>
    have hc : isDigitIn radix c = true := by
      unfold isDigitIn
      rw [h]
      rfl
    rw [List.length_cons, Nat.add_right_cancel_iff, ← ih, List.take_succ_cons, List.length_cons,
      Nat.add_right_cancel_iff, List.all_cons, hc, Bool.true_and]
  | case4 count c cs h =>
    have hc : isDigitIn radix c = false := by
      unfold isDigitIn
      rw [h]
      rfl
    simp [hc]

/-- Taking digits needs as many as are asked for. -/
theorem takeDigits?_eq (count radix : Nat) (cs : List Char) : takeDigits? count radix cs =
    if (leadingDigits radix count cs).length = count then
      some (ofDigitValues radix (leadingDigits radix count cs), cs.drop count)
    else none := by
  unfold takeDigits?
  simp only [leadingDigits_full]
  split
  · next hlength =>
    obtain ⟨htake, -⟩ := leadingDigits_spec radix count cs
    have hvalues := congrArg (List.filterMap fun d : Option Nat => d) htake
    rw [hlength, List.filterMap_map, List.filterMap_map] at hvalues
    have hvalues : (cs.take count).filterMap (digitValue radix) = leadingDigits radix count cs := by
      simpa [Function.comp_def] using hvalues
    rw [hvalues]
  · rfl

/-! ### Numbers in escapes -/

section Numeric

variable {name : Char} {lead radix count : Nat} {piece? : Nat → Option Piece} {cs tail : List Char}

/-- What is taken of an escape are its lead and its digits. -/
theorem Escape.numeric_take (hlead : lead ≤ cs.length)
    (htail : ∀ c ∈ tail.head?,
      (cs.drop (numeric name lead radix count piece? cs).width).head? = some c) :
    leadingDigits radix count ((cs.take (numeric name lead radix count piece? cs).width ++
        tail).drop lead) = leadingDigits radix count (cs.drop lead) := by
  obtain ⟨htake, hle, hnext⟩ := leadingDigits_spec radix count (cs.drop lead)
  have hwidth : (numeric name lead radix count piece? cs).width =
      lead + (leadingDigits radix count (cs.drop lead)).length := rfl
  rw [hwidth] at htail ⊢
  generalize leadingDigits radix count (cs.drop lead) = ds at *
  have hsplit : (cs.take (lead + ds.length) ++ tail).drop lead =
      (cs.drop lead).take ds.length ++ tail := by
    rw [List.take_add, List.append_assoc,
      List.drop_left' (List.length_take_of_le hlead)]
  have hlength := congrArg List.length htake
  rw [List.length_map, List.length_map] at hlength
  rw [hsplit]
  refine leadingDigits_append htake ((Nat.le_of_eq hlength).trans hle) fun hlt c hc => ?_
  refine hnext (Nat.lt_of_le_of_lt (Nat.le_of_eq hlength.symm) hlt) c ?_
  rw [List.drop_drop]
  exact htail c hc

/-- An escape depends on what it takes and on the next character. -/
theorem Escape.numeric_congr (hlead : lead ≤ cs.length)
    (htail : ∀ c ∈ tail.head?,
      (cs.drop (numeric name lead radix count piece? cs).width).head? = some c) :
    numeric name lead radix count piece?
      (cs.take (numeric name lead radix count piece? cs).width ++ tail) =
        numeric name lead radix count piece? cs := by
  have hdigits := numeric_take hlead htail
  generalize cs.take (numeric name lead radix count piece? cs).width ++ tail = ds at hdigits
  unfold numeric
  rw [hdigits]

/-- The number of an escape is taken off a body if nothing was found wrong with it. -/
theorem Piece.numeric?_eq (hlead : lead ≤ cs.length)
    (htail : ∀ c ∈ tail.head?,
      (cs.drop (Escape.numeric name lead radix count piece? cs).width).head? = some c) :
    Piece.numeric? piece? count radix
      ((cs.take (Escape.numeric name lead radix count piece? cs).width ++ tail).drop lead) =
        (Escape.numeric name lead radix count piece? cs).outcome.toOption.map (·, tail) := by
  obtain ⟨htake, hle, -⟩ := leadingDigits_spec radix count (cs.drop lead)
  have hdigits := Escape.numeric_take hlead htail
  unfold numeric?
  rw [takeDigits?_eq, hdigits]
  unfold Escape.numeric at *
  dsimp only at *
  generalize leadingDigits radix count (cs.drop lead) = ds at *
  -- only a number with all its digits stands for something
  by_cases hcount : ds.length = count
  · have hlength : (cs.take (lead + ds.length)).length = lead + count := by
      have hlength := congrArg List.length htake
      rw [List.length_map, List.length_map] at hlength
      rw [List.take_add, List.length_append, List.length_take_of_le hlead, hlength, hcount]
    have hrest : ((cs.take (lead + ds.length) ++ tail).drop lead).drop count = tail := by
      rw [List.drop_drop]
      exact List.drop_left' hlength
    rw [if_pos hcount, if_neg (Nat.not_lt.2 (Nat.le_of_eq hcount.symm)), hrest, Option.bind_some]
    cases piece? (ofDigitValues radix ds) with
    | none => rfl
    | some p => rfl
  · rw [if_neg hcount, if_pos (Nat.lt_of_le_of_ne hle hcount)]
    rfl

/-- The character that names a number is taken with it. -/
theorem Escape.numeric_cons (piece? : Nat → Option Piece) (cs tail : List Char)
    (hfirst : lead = 0 → (digitValue radix name).isSome = true) (hcount : 0 < count) : ∃ ds, (name :: cs).take
      (numeric name lead radix count piece? (name :: cs)).width ++ tail = name :: ds := by
  have hpos : 0 < (numeric name lead radix count piece? (name :: cs)).width := by
    show 0 < lead + (leadingDigits radix count ((name :: cs).drop lead)).length
    cases lead with
    | zero =>
      obtain ⟨d, hd⟩ := Option.isSome_iff_exists.1 (hfirst rfl)
      obtain ⟨n, rfl⟩ := Nat.exists_eq_succ_of_ne_zero (Nat.ne_of_gt hcount)
      rw [List.drop_zero, leadingDigits, hd, Nat.zero_add]
      exact Nat.succ_pos _
    | succ lead => omega
  obtain ⟨n, hn⟩ := Nat.exists_eq_succ_of_ne_zero (Nat.ne_of_gt hpos)
  exact ⟨cs.take n ++ tail, by rw [hn, List.take_succ_cons, List.cons_append]⟩

end Numeric

/-! ### Escapes by their first character -/

/-- What both readers do with an escape is decided by its first character: it stands for a character,
or it starts a number, or it starts no escape. -/
inductive EscapeForm (quote c : Char) : Prop
  | letter (d : Char) (hread : ∀ cs, Escape.read quote (c :: cs) = ⟨1, .ok (.char d)⟩)
      (htake : ∀ cs, Piece.escape? quote (c :: cs) = some (.char d, cs))
  | number (lead radix count : Nat) (piece? : Nat → Option Piece) (hlead : lead ≤ 1)
      (hfirst : lead = 0 → (digitValue radix c).isSome = true) (hradix : radix ≤ 16)
      (hcount : 0 < count)
      (hread : ∀ cs, Escape.read quote (c :: cs) =
        Escape.numeric c lead radix count piece? (c :: cs))
      (htake : ∀ cs, Piece.escape? quote (c :: cs) =
        Piece.numeric? piece? count radix ((c :: cs).drop lead))
  | other (hread : ∀ cs, Escape.read quote (c :: cs) = ⟨0, .error (.unknown c)⟩)
      (htake : ∀ cs, Piece.escape? quote (c :: cs) = none)

/-- A quote that escapes may stand between. -/
def IsQuote (quote : Char) : Prop := quote = '"' ∨ quote = '\''

theorem letterEscape?_eq {quote : Char} (hquote : IsQuote quote) (c : Char) :
    letterEscape? quote c = (shortEscape? c).or (if c = quote then some c else none) := by
  unfold letterEscape? shortEscape?
  split
  all_goals try rfl
  rw [Option.none_or]
  by_cases hc : c = quote
  · rw [if_pos hc, if_pos ⟨hc ▸ hquote.symm, hc⟩]
  · rw [if_neg hc, if_neg fun h => hc h.2]

/-- The octal digits. -/
theorem isDigitIn_eight (c : Char) : isDigitIn 8 c = true ↔ '0' ≤ c ∧ c ≤ '7' := by
  have hle (d : Char) : (c ≤ d ↔ c.toNat ≤ d.toNat) ∧ (d ≤ c ↔ d.toNat ≤ c.toNat) :=
    ⟨Iff.rfl, Iff.rfl⟩
  have hvalue (v : Nat) : (if v < 8 then some v else none).isSome = true ↔ v < 8 := by
    split <;> simp [*]
  unfold isDigitIn digitValue
  dsimp only
  rw [hvalue]
  simp only [(hle _).1, (hle _).2, Bool.and_eq_true, decide_eq_true_eq]
  have hzero : '0'.toNat = 48 := rfl
  have hseven : '7'.toNat = 55 := rfl
  have hnine : '9'.toNat = 57 := rfl
  rw [hzero, hseven, hnine]
  split
  · omega
  · split
    · omega
    · split <;> omega

theorem escapeForm {quote : Char} (hquote : IsQuote quote) (c : Char) : EscapeForm quote c := by
  have hletter := letterEscape?_eq hquote c
  have hdigit := isDigitIn_eight c
  cases hshort : shortEscape? c with
  | some d =>
    rw [hshort, Option.some_or] at hletter
    exact .letter d (fun cs => by simp only [Escape.read, hshort])
      fun cs => by simp only [Piece.escape?, hletter]
  | none =>
    rw [hshort, Option.none_or] at hletter
    by_cases hc : c = quote
    · rw [if_pos hc] at hletter
      exact .letter c (fun cs => by simp only [Escape.read, hshort, if_pos hc])
        fun cs => by simp only [Piece.escape?, hletter]
    rw [if_neg hc] at hletter
    have hread (cs : List Char) : Escape.read quote (c :: cs) =
        if isDigitIn 8 c then Escape.numeric c 0 8 3 bytePiece? (c :: cs)
        else if c = 'x' then Escape.numeric c 1 16 2 bytePiece? (c :: cs)
        else if c = 'u' then Escape.numeric c 1 16 4 charPiece? (c :: cs)
        else if c = 'U' then Escape.numeric c 1 16 8 charPiece? (c :: cs)
        else ⟨0, .error (.unknown c)⟩ := by
      simp only [Escape.read, hshort, if_neg hc]
    have htake (cs : List Char) : Piece.escape? quote (c :: cs) =
        if c = 'x' then Piece.numeric? bytePiece? 2 16 cs
        else if c = 'u' ∨ c = 'U' then Piece.numeric? charPiece? (if c = 'u' then 4 else 8) 16 cs
        else if '0' ≤ c ∧ c ≤ '7' then Piece.numeric? bytePiece? 3 8 (c :: cs)
        else none := by
      simp only [Piece.escape?, hletter]
    -- The two readers ask for the letters and the octal digits in different orders; no character is
    -- both, so each form is told by its first character.
    by_cases hx : c = 'x'
    · subst hx
      exact .number 1 16 2 bytePiece? (by decide) (by decide) (by decide) (by decide)
        (fun cs => by rw [hread]; rfl) fun cs => by rw [htake]; rfl
    by_cases hu : c = 'u'
    · subst hu
      exact .number 1 16 4 charPiece? (by decide) (by decide) (by decide) (by decide)
        (fun cs => by rw [hread]; rfl) fun cs => by rw [htake]; rfl
    by_cases hU : c = 'U'
    · subst hU
      exact .number 1 16 8 charPiece? (by decide) (by decide) (by decide) (by decide)
        (fun cs => by rw [hread]; rfl) fun cs => by rw [htake]; rfl
    by_cases hoctal : isDigitIn 8 c = true
    · refine .number 0 8 3 bytePiece? (by decide) (fun _ => hoctal) (by decide) (by decide)
        (fun cs => by rw [hread, if_pos hoctal]) fun cs => ?_
      rw [htake, if_neg hx, if_neg (not_or.2 ⟨hu, hU⟩), if_pos (hdigit.1 hoctal)]
      rfl
    · refine .other (fun cs => ?_) fun cs => ?_
      · rw [hread, if_neg hoctal, if_neg hx, if_neg hu, if_neg hU]
      · rw [htake, if_neg hx, if_neg (not_or.2 ⟨hu, hU⟩), if_neg fun h => hoctal (hdigit.2 h)]

/-! ### Both readers -/

section Readers

variable {quote : Char} (hquote : IsQuote quote) {cs tail : List Char}
include hquote

/-- What is read of an escape depends on what it takes and on the next character. -/
theorem Escape.read_congr (htail : tail.head? = (cs.drop (read quote cs).width).head?) :
    read quote (cs.take (read quote cs).width ++ tail) = read quote cs := by
  cases cs with
  | nil =>
    obtain rfl : tail = [] := List.head?_eq_none_iff.1 htail
    rfl
  | cons c cs =>
    cases escapeForm hquote c with
    | letter d hread htake =>
      rw [hread]
      exact hread _
    | number lead radix count piece? hlead hfirst hradix hcount hread htake =>
      rw [hread] at htail ⊢
      have hlength : lead ≤ (c :: cs).length := Nat.le_trans hlead (Nat.succ_le_succ (Nat.zero_le _))
      have hcongr := numeric_congr hlength fun d hd => htail.symm.trans hd
      obtain ⟨ds, hds⟩ := numeric_cons piece? cs tail hfirst hcount
      rw [hds] at hcongr ⊢
      rw [hread, hcongr]
    | other hread htake =>
      rw [hread] at htail ⊢
      obtain ⟨ds, rfl⟩ := List.head?_eq_some_iff.1 htail
      exact hread _

/-- An escape is taken off a body as it was read, if nothing was found wrong with it. -/
theorem Piece.escape?_eq
    (htail : ∀ c ∈ tail.head?, (cs.drop (Escape.read quote cs).width).head? = some c) :
    escape? quote (cs.take (Escape.read quote cs).width ++ tail) =
      (Escape.read quote cs).outcome.toOption.map (·, tail) := by
  cases cs with
  | nil =>
    cases tail with
    | nil => rfl
    | cons c tail => cases htail c rfl
  | cons c cs =>
    cases escapeForm hquote c with
    | letter d hread htake =>
      rw [hread]
      exact htake _
    | number lead radix count piece? hlead hfirst hradix hcount hread htake =>
      rw [hread] at htail ⊢
      have hlength : lead ≤ (c :: cs).length := Nat.le_trans hlead (Nat.succ_le_succ (Nat.zero_le _))
      have hnumeric := numeric?_eq hlength htail
      obtain ⟨ds, hds⟩ := Escape.numeric_cons piece? cs tail hfirst hcount
      rw [hds] at hnumeric ⊢
      rw [htake, hnumeric]
    | other hread htake =>
      rw [hread] at htail ⊢
      cases tail with
      | nil => rfl
      | cons d tail =>
        obtain rfl : c = d := Option.some.inj (htail d rfl)
        exact htake _

/-- Only the end of the text cuts an escape off. -/
theorem Escape.read_finished (hcs : cs ≠ []) :
    (read quote cs).outcome ≠ .error .unfinished := by
  obtain ⟨c, cs, rfl⟩ := List.exists_cons_of_ne_nil hcs
  intro h
  cases escapeForm hquote c with
  | letter d hread htake =>
    rw [hread] at h
    cases h
  | number lead radix count piece? hlead hfirst hradix hcount hread htake =>
    rw [hread] at h
    unfold numeric at h
    dsimp only at h
    split at h
    · cases h
    · split at h <;> cases h
  | other hread htake =>
    rw [hread] at h
    cases h

/-- An escape is reported for nothing just where it stands for something, if the text goes on. -/
theorem Escape.faults_eq_nil_iff (hcs : cs ≠ []) (start : Nat) :
    (read quote cs).faults start cs = [] ↔ ∃ p, (read quote cs).outcome = .ok p := by
  have hfinished := read_finished hquote hcs
  unfold Escape.faults
  cases houtcome : (read quote cs).outcome with
  | ok p => exact iff_of_true rfl ⟨p, rfl⟩
  | error f =>
    rw [houtcome] at hfinished
    refine iff_of_false (fun h => ?_) fun h => ?_
    · cases f with
      | unfinished => exact hfinished rfl
      | unknown name => cases h
      | invalidCodePoint => cases h
    · obtain ⟨p, hp⟩ := h
      cases hp

/-- A quote ends what is taken of an escape only if it is all of it. -/
theorem Escape.read_quote {ds : List Char} (h : cs.take (read quote cs).width = ds ++ [quote]) :
    ds = [] := by
  have hdigit (radix : Nat) : digitValue radix quote = none := by
    rcases hquote with rfl | rfl <;> simp [digitValue]
  cases cs with
  | nil => cases ds <;> cases h
  | cons c cs =>
    cases escapeForm hquote c with
    | letter d hread htake =>
      rw [hread] at h
      have hlength := congrArg List.length h
      simp only [List.take_succ_cons, List.take_zero, List.length_cons, List.length_nil,
        List.length_append] at hlength
      exact List.eq_nil_of_length_eq_zero (by omega)
    | number lead radix count piece? hlead hfirst hradix hcount hread htake =>
      obtain ⟨hdigits, -⟩ := leadingDigits_spec radix count ((c :: cs).drop lead)
      rw [hread] at h
      have h : (c :: cs).take (lead + (leadingDigits radix count ((c :: cs).drop lead)).length) =
          ds ++ [quote] := h
      rw [List.take_add] at h
      generalize leadingDigits radix count ((c :: cs).drop lead) = vs at *
      rcases List.eq_nil_or_concat (((c :: cs).drop lead).take vs.length) with hnil | ⟨xs, x, hxs⟩
      · rw [hnil, List.append_nil] at h
        have hlength := congrArg List.length h
        rw [List.length_take, List.length_append, List.length_singleton] at hlength
        exact List.eq_nil_of_length_eq_zero (by omega)
      · -- the quote would be a digit
        rw [hxs, List.concat_eq_append, ← List.append_assoc] at h
        obtain ⟨-, hx⟩ := List.append_inj' h rfl
        obtain rfl := List.head_eq_of_cons_eq hx
        rw [hxs, List.concat_eq_append, List.map_append] at hdigits
        have hmem : digitValue radix x ∈ vs.map some := hdigits ▸ List.mem_append_right _ (by simp)
        obtain ⟨v, -, hv⟩ := List.mem_map.1 hmem
        rw [hdigit] at hv
        cases hv
    | other hread htake =>
      rw [hread] at h
      cases ds <;> cases h

end Readers

end Idl
