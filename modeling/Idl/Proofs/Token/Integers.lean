/-
Idl/Proofs/Token/Integers.lean

The numbers that integer literals denote.

`DenotesInt` says by the digits of a text which number they write, and in which base.  It leaves out
the plus sign, which the reader of digits takes but no token has (`plus_not_mem_int`), so the literals
of a source are read as what they denote (`intLiteral?_eq_some`).

What the reader of tokens reports in an integer is just what keeps its text from denoting a number:
missing digits behind `0x`, and eights and nines behind another leading zero (`exists_denotesInt_iff`).
-/
import Idl.Proofs.Token.Lookahead
import Mathlib.Data.Nat.Digits.Defs

namespace Idl

/-! ### Digits -/

/-- The digits write the number in the radix, the most significant one first. -/
structure IsNumeral (radix : Nat) (cs : List Char) (n : Nat) : Prop where
  nonempty : cs ≠ []
  value : ∃ ds : List Nat, cs.map (digitValue radix) = ds.map some ∧
    n = Nat.ofDigits radix ds.reverse

/-- Whatever is written is written in digits. -/
theorem IsNumeral.isDigitIn {radix n : Nat} {cs : List Char} (h : IsNumeral radix cs n) {c : Char}
    (hc : c ∈ cs) : isDigitIn radix c = true := by
  obtain ⟨ds, hds, -⟩ := h.value
  have hmem : digitValue radix c ∈ ds.map some := hds ▸ List.mem_map_of_mem hc
  obtain ⟨d, -, hd⟩ := List.mem_map.1 hmem
  unfold Idl.isDigitIn
  rw [← hd]
  rfl

theorem mapM_eq_some {α β : Type} {f : α → Option β} {xs : List α} {ys : List β} :
    xs.mapM f = some ys ↔ xs.map f = ys.map some := by
  induction xs generalizing ys with
  | nil => cases ys <;> simp
  | cons x xs ih =>
    rw [List.mapM_cons, List.map_cons]
    cases ys with
    | nil => cases f x <;> cases xs.mapM f <;> simp [bind]
    | cons y ys =>
      rw [List.map_cons, List.cons.injEq, ← ih]
      cases f x <;> cases xs.mapM f <;> simp [bind, pure]

theorem ofDigitValues_eq (radix : Nat) (ds : List Nat) :
    ofDigitValues radix ds = Nat.ofDigits radix ds.reverse := by
  rw [Nat.ofDigits_eq_foldr, List.foldr_reverse]
  unfold ofDigitValues
  congr 1
  funext n d
  exact (Nat.add_comm ..).trans (congrArg (d + ·) (Nat.mul_comm ..))

/-- A text of digits is read as what it writes. -/
theorem natOfDigits?_eq_some {radix n : Nat} {cs : List Char} (h : '+' ∉ cs) :
    natOfDigits? radix cs = some n ↔ IsNumeral radix cs n := by
  have hhead : cs.head? ≠ some '+' := fun hplus => h (List.mem_of_mem_head? hplus)
  unfold natOfDigits?
  dsimp only
  rw [if_neg hhead]
  constructor
  · intro hread
    split at hread
    · cases hread
    · next hne =>
      obtain ⟨ds, hds, rfl⟩ := Option.map_eq_some_iff.1 hread
      refine ⟨fun hnil => hne (List.isEmpty_iff.2 hnil), ds, mapM_eq_some.1 hds, ?_⟩
      exact ofDigitValues_eq radix ds
  · rintro ⟨hne, ds, hds, rfl⟩
    rw [if_neg fun hnil => hne (List.isEmpty_iff.1 hnil), mapM_eq_some.2 hds]
    exact congrArg some (ofDigitValues_eq radix ds)

/-- The digits of a base up to ten. -/
theorem isDigitIn_iff {radix : Nat} (hradix : radix ≤ 10) (c : Char) :
    isDigitIn radix c = true ↔ '0' ≤ c ∧ c.toNat < 48 + radix := by
  have hle (d : Char) : (c ≤ d ↔ c.toNat ≤ d.toNat) ∧ (d ≤ c ↔ d.toNat ≤ c.toNat) :=
    ⟨Iff.rfl, Iff.rfl⟩
  have hvalue (v : Nat) : (if v < radix then some v else none).isSome = true ↔ v < radix := by
    split <;> simp [*]
  have hzero : '0'.toNat = 48 := rfl
  have hnine : '9'.toNat = 57 := rfl
  unfold isDigitIn digitValue
  dsimp only
  rw [hvalue]
  simp only [(hle _).1, (hle _).2, Bool.and_eq_true, decide_eq_true_eq, hzero, hnine]
  split
  · omega
  · split
    · omega
    · split <;> omega

/-- A decimal digit is an octal one, unless it is an eight or a nine. -/
theorem isDigitIn_eight_of_isDigit {c : Char} (h : isDigit c = true) (h8 : c ≠ '8') (h9 : c ≠ '9') :
    isDigitIn 8 c = true := by
  obtain ⟨hzero, hlt⟩ := (isDigitIn_iff (Nat.le_refl 10) c).1 h
  refine (isDigitIn_iff (by decide) c).2 ⟨hzero, ?_⟩
  have hne {d : Char} (hd : c ≠ d) : c.toNat ≠ d.toNat := fun h => hd (Char.toNat_inj.1 h)
  have h8 : c.toNat ≠ 56 := hne h8
  have h9 : c.toNat ≠ 57 := hne h9
  omega

/-- Every text of digits writes a number. -/
theorem exists_isNumeral {radix : Nat} {cs : List Char} (hne : cs ≠ [])
    (h : ∀ c ∈ cs, isDigitIn radix c = true) : ∃ n, IsNumeral radix cs n := by
  have hvalues : ∃ ds : List Nat, cs.map (digitValue radix) = ds.map some := by
    clear hne
    induction cs with
    | nil => exact ⟨[], rfl⟩
    | cons c cs ih =>
      obtain ⟨hc, hcs⟩ := List.forall_mem_cons.1 h
      obtain ⟨d, hd⟩ := Option.isSome_iff_exists.1 hc
      obtain ⟨ds, hds⟩ := ih hcs
      exact ⟨d :: ds, by rw [List.map_cons, List.map_cons, hd, hds]⟩
  obtain ⟨ds, hds⟩ := hvalues
  exact ⟨_, hne, ds, hds, rfl⟩

/-! ### Literals -/

/-- The number that the text of an integer literal denotes: in base 16 behind `0x` or `0X`, in base 8
behind another leading zero, and in base 10 otherwise. -/
inductive DenotesInt : List Char → Nat → Prop
  | hex {x : Char} {cs : List Char} {n : Nat} (hx : x = 'x' ∨ x = 'X') (h : IsNumeral 16 cs n) :
    DenotesInt ('0' :: x :: cs) n
  | octal {cs : List Char} {n : Nat} (h : IsNumeral 8 cs n) : DenotesInt ('0' :: cs) n
  | decimal {cs : List Char} {n : Nat} (hlead : cs.head? = some '0' → cs = ['0'])
    (h : IsNumeral 10 cs n) : DenotesInt cs n

theorem intLiteralNat?_eq_some {cs : List Char} {n : Nat} (h : '+' ∉ cs) :
    intLiteralNat? cs = some n ↔ DenotesInt cs n := by
  unfold intLiteralNat?
  split
  · next cs =>
    have hrest : '+' ∉ cs := fun hmem => h (List.mem_cons_of_mem _ (List.mem_cons_of_mem _ hmem))
    rw [natOfDigits?_eq_some hrest]
    refine ⟨.hex (.inl rfl), fun hdenotes => ?_⟩
    cases hdenotes with
    | hex _ h => exact h
    | octal h => exact absurd (h.isDigitIn List.mem_cons_self) (by decide)
    | decimal hlead => cases hlead rfl
  · next cs =>
    have hrest : '+' ∉ cs := fun hmem => h (List.mem_cons_of_mem _ (List.mem_cons_of_mem _ hmem))
    rw [natOfDigits?_eq_some hrest]
    refine ⟨.hex (.inr rfl), fun hdenotes => ?_⟩
    cases hdenotes with
    | hex _ h => exact h
    | octal h => exact absurd (h.isDigitIn List.mem_cons_self) (by decide)
    | decimal hlead => cases hlead rfl
  · next c cs hx hX =>
    have hrest : '+' ∉ c :: cs := fun hmem => h (List.mem_cons_of_mem _ hmem)
    rw [natOfDigits?_eq_some hrest]
    refine ⟨.octal, fun hdenotes => ?_⟩
    cases hdenotes with
    | hex hcases _ => exact hcases.elim (fun h => absurd h hx) fun h => absurd h hX
    | octal h => exact h
    | decimal hlead => cases hlead rfl
  · next hzero =>
    rw [natOfDigits?_eq_some h]
    have hlead : cs.head? = some '0' → cs = ['0'] := by
      intro hhead
      cases cs with
      | nil => cases hhead
      | cons c cs =>
        obtain rfl : c = '0' := Option.some.inj hhead
        cases cs with
        | nil => rfl
        | cons d ds => exact (hzero d ds rfl).elim
    refine ⟨.decimal hlead, fun hdenotes => ?_⟩
    cases hdenotes with
    | hex _ _ => exact (hzero _ _ rfl).elim
    | @octal ds n h =>
      cases ds with
      | nil => exact absurd rfl h.nonempty
      | cons d ds => exact (hzero d ds rfl).elim
    | decimal _ h => exact h

/-- A literal that has a value denotes it. -/
theorem intLiteral?_eq_some {text : String} (h : '+' ∉ text.toList) {v : UInt64} :
    intLiteral? text = some v ↔ DenotesInt text.toList v.toNat := by
  unfold intLiteral?
  rw [Option.bind_eq_some_iff]
  constructor
  · rintro ⟨n, hn, hv⟩
    split at hv
    · next hlt =>
      obtain rfl := Option.some.inj hv
      rw [UInt64.toNat_ofNat_of_lt' hlt]
      exact (intLiteralNat?_eq_some h).1 hn
    · cases hv
  · intro hdenotes
    refine ⟨_, (intLiteralNat?_eq_some h).2 hdenotes, ?_⟩
    rw [if_pos v.toNat_lt]
    exact congrArg some UInt64.ofNat_toNat

/-- In hexadecimal form, any digits denote a number. -/
theorem exists_denotesInt_hexadecimal {x : Char} {ds : List Char} (hx : IsRadixLetter x)
    (hdigits : ∀ d ∈ ds, isDigitIn 16 d = true) :
    (∃ n, DenotesInt ('0' :: x :: ds) n) ↔ ds ≠ [] := by
  constructor
  · rintro ⟨n, hdenotes⟩
    cases hdenotes with
    | hex _ hnumeral => exact hnumeral.nonempty
    | octal hnumeral =>
      have hletter := hnumeral.isDigitIn List.mem_cons_self
      rcases hx with rfl | rfl <;> exact absurd hletter (by decide)
    | decimal hlead _ => cases hlead rfl
  · intro hne
    obtain ⟨n, hnumeral⟩ := exists_isNumeral hne hdigits
    exact ⟨n, .hex hx hnumeral⟩

/-- Eights and nines are out of place behind a leading zero. -/
def MisreadOctal (cs : List Char) : Prop :=
  (1 < cs.length ∧ cs.head? = some '0') ∧ ∃ d ∈ cs, d = '8' ∨ d = '9'

/-- In any other form, digits denote a number unless they have eights and nines behind a leading
zero. -/
theorem exists_denotesInt_digits {cs : List Char} (hne : cs ≠ [])
    (hdigits : ∀ d ∈ cs, isDigit d = true) : (∃ n, DenotesInt cs n) ↔ ¬ MisreadOctal cs := by
  constructor
  · -- behind a zero stands another digit, so base 8 is left, which has no eights and nines
    rintro ⟨n, hdenotes⟩ ⟨⟨hlength, hzero⟩, d, hd, hbad⟩
    cases hdenotes with
    | @hex x ds n hx hnumeral =>
      have hletter := hdigits x (List.mem_cons_of_mem _ List.mem_cons_self)
      rcases hx with rfl | rfl <;> exact absurd hletter (by decide)
    | octal hnumeral =>
      rcases List.mem_cons.1 hd with rfl | hd
      · exact absurd hbad (by decide)
      · have hoctal := hnumeral.isDigitIn hd
        rcases hbad with rfl | rfl <;> exact absurd hoctal (by decide)
    | decimal hlead _ =>
      rw [hlead hzero] at hlength
      exact absurd hlength (by decide)
  · intro hright
    by_cases hlead : cs.head? = some '0' → cs = ['0']
    · obtain ⟨n, hnumeral⟩ := exists_isNumeral hne hdigits
      exact ⟨n, .decimal hlead hnumeral⟩
    · obtain ⟨hzero, hlong⟩ := Classical.not_imp.1 hlead
      obtain ⟨ds, rfl⟩ := List.head?_eq_some_iff.1 hzero
      have hds : ds ≠ [] := fun h => hlong (congrArg ('0' :: ·) h)
      have hlength : 1 < ('0' :: ds).length := Nat.succ_lt_succ (List.length_pos_of_ne_nil hds)
      have hoctal : ∀ d ∈ ds, isDigitIn 8 d = true := by
        intro d hd
        have hd := List.mem_cons_of_mem '0' hd
        have hne {e : Char} (he : e = '8' ∨ e = '9') : d ≠ e := by
          rintro rfl
          exact hright ⟨⟨hlength, hzero⟩, d, hd, he⟩
        exact isDigitIn_eight_of_isDigit (hdigits d hd) (hne (.inl rfl)) (hne (.inr rfl))
      obtain ⟨n, hnumeral⟩ := exists_isNumeral hds hoctal
      exact ⟨n, .octal hnumeral⟩

/-- A text denotes one number at most. -/
theorem DenotesInt.unique {cs : List Char} {m n : Nat} (h : '+' ∉ cs) (hm : DenotesInt cs m)
    (hn : DenotesInt cs n) : m = n := by
  have hread := (intLiteralNat?_eq_some h).2 hm
  rw [(intLiteralNat?_eq_some h).2 hn] at hread
  exact (Option.some.inj hread).symm

/-- A literal has the value that it denotes, as long as that is below `2 ^ 64`. -/
theorem DenotesInt.intLiteral?_eq {text : String} (h : '+' ∉ text.toList) {n : Nat}
    (hn : DenotesInt text.toList n) :
    (intLiteral? text).map UInt64.toNat = if n < 2 ^ 64 then some n else none := by
  unfold intLiteral?
  rw [(intLiteralNat?_eq_some h).2 hn, Option.bind_some]
  by_cases hlt : n < UInt64.size
  · have hvalue : (UInt64.ofNat n).toNat = n := UInt64.toNat_ofNat_of_lt' hlt
    rw [if_pos hlt, Option.map_some, hvalue]
    exact (if_pos hlt).symm
  · rw [if_neg hlt, Option.map_none]
    exact (if_neg hlt).symm

/-! ### Tokens -/

/-- How an integer is read: in hexadecimal form it is `0x` or `0X` and a run of digits, which may be
missing, and in any other form it is a run of decimal digits. -/
inductive IntForm (c : Char) (cs : List Char) : Prop
  | hexadecimal {x : Char} {ds : List Char} (hc : c = '0') (hcs : cs = x :: ds)
      (hx : IsRadixLetter x)
      (htake : cs.take (scan c cs).more = x :: ds.takeWhile (isDigitIn 16))
      (hdrop : cs.drop (scan c cs).more = ds.dropWhile (isDigitIn 16))
      (hfaults : (scan c cs).faults = [] ↔ ds.takeWhile (isDigitIn 16) ≠ [])
  | decimal (hx : ∀ x ∈ cs.head?, c = '0' → ¬ IsRadixLetter x) (hc : isDigit c = true)
      (htake : cs.take (scan c cs).more = cs.takeWhile isDigit)
      (hdrop : cs.drop (scan c cs).more = cs.dropWhile isDigit)
      (hfaults : (scan c cs).faults = [] ↔ ¬ MisreadOctal (c :: cs.takeWhile isDigit))

theorem runLength_eq_zero {p : Char → Bool} {cs : List Char} :
    runLength p cs = 0 ↔ cs.takeWhile p = [] := List.length_eq_zero_iff

/-- A number without a fraction and an exponent is a run of digits. -/
theorem decimalLength_int {cs : List Char} {fault : Nat → NumberFault → List LexError}
    (h : (scanNumber.decimal cs fault).kind = .int) : decimalLength cs = runLength isDigit cs := by
  unfold scanNumber.decimal at h
  dsimp only at h
  split at h
  · next hnone =>
    unfold decimalLength
    dsimp only
    rw [Nat.add_assoc, hnone]
    rfl
  · cases h

/-- Nothing is wrong with such a run, unless it starts with a zero and is not octal. -/
theorem decimal_int {cs : List Char} {fault : Nat → NumberFault → List LexError}
    (h : (scanNumber.decimal cs fault).kind = .int) : scanNumber.decimal cs fault =
      { kind := .int, more := runLength isDigit cs - 1
        faults :=
          if (decide (1 < runLength isDigit cs) && cs.head? == some '0') &&
            (cs.takeWhile isDigit).any (fun c => c == '8' || c == '9')
          then fault (runLength isDigit cs) .octalDigitInvalid else [] } := by
  unfold scanNumber.decimal at h ⊢
  dsimp only at h ⊢
  split at h
  · next hnone =>
    rw [if_pos hnone, Nat.add_assoc, hnone, Nat.add_zero, take_runLength]
  · cases h

theorem intForm {c : Char} {cs : List Char} (h : (scan c cs).kind = .int) : IntForm c cs := by
  obtain ⟨hnumber, hscan⟩ : StartsNumber c cs ∧ scan c cs = scanNumber (c :: cs) := by
    cases kindForm h with
    | int hc hscan => exact ⟨hc, hscan⟩
  by_cases hhex : IsHexadecimal (c :: cs)
  · obtain ⟨hzero, x, hx, hletter⟩ := hhex
    obtain rfl := Option.some.inj hzero
    obtain ⟨ds, rfl⟩ := List.head?_eq_some_iff.1 hx
    rw [scanNumber_hexadecimal hletter] at hscan
    refine .hexadecimal rfl rfl hletter ?_ ?_ ?_
    · rw [hscan, Nat.add_comm, List.take_succ_cons, take_runLength]
    · rw [hscan, Nat.add_comm, List.drop_succ_cons, drop_runLength]
    · rw [hscan]
      dsimp only
      rw [ne_eq, ← runLength_eq_zero]
      split
      · next hnone => exact iff_of_false (List.cons_ne_nil _ _) fun hne => hne hnone
      · next hsome => exact iff_of_true rfl hsome
  · have hpos := hnumber.decimalLength_pos.1
    rw [hscan, scanNumber_decimal hhex] at h
    rw [scanNumber_decimal hhex, decimal_int h] at hscan
    rw [decimalLength_int h] at hpos
    have hc : isDigit c = true := by
      by_contra hc
      rw [runLength_eq_zero.2 (List.takeWhile_cons_of_neg hc)] at hpos
      exact Nat.lt_irrefl 0 hpos
    have hwhole : (c :: cs).takeWhile isDigit = c :: cs.takeWhile isDigit :=
      List.takeWhile_cons_of_pos hc
    have hmore : runLength isDigit (c :: cs) = runLength isDigit cs + 1 := congrArg List.length hwhole
    rw [hmore, Nat.add_sub_cancel, hwhole] at hscan
    refine .decimal (fun x hx hc hletter => hhex ⟨congrArg some hc, x, hx, hletter⟩) hc ?_ ?_ ?_
    · rw [hscan, take_runLength]
    · rw [hscan, drop_runLength]
    · have hbad : ((decide (1 < runLength isDigit cs + 1) && (c :: cs).head? == some '0') &&
          (c :: cs.takeWhile isDigit).any (fun c => c == '8' || c == '9')) = true ↔
            MisreadOctal (c :: cs.takeWhile isDigit) := by
        have hlength : (c :: cs.takeWhile isDigit).length = runLength isDigit cs + 1 := rfl
        simp only [MisreadOctal, hlength, Bool.and_eq_true, decide_eq_true_eq, beq_iff_eq,
          List.any_eq_true, Bool.or_eq_true, List.head?_cons]
      rw [hscan]
      dsimp only
      split
      · next hoctal => exact iff_of_false (List.cons_ne_nil _ _) fun hne => hne (hbad.1 hoctal)
      · next hoctal => exact iff_of_true rfl fun hmis => hoctal (hbad.2 hmis)

/-- Integer tokens have no signs. -/
theorem plus_not_mem_int {c : Char} {cs : List Char} (h : (scan c cs).kind = .int) :
    '+' ∉ c :: cs.take (scan c cs).more := by
  have hrun {p : Char → Bool} (hp : ¬ p '+' = true) (cs : List Char) : '+' ∉ cs.takeWhile p := by
    rw [← take_runLength]
    exact not_mem_run hp cs
  cases intForm h with
  | @hexadecimal x ds hc hcs hx htake hdrop hfaults =>
    rw [htake, hc, List.mem_cons, List.mem_cons, not_or, not_or]
    refine ⟨by decide, ?_, hrun (by decide) ds⟩
    rcases hx with rfl | rfl <;> decide
  | decimal hx hc htake hdrop hfaults =>
    rw [htake, List.mem_cons, not_or]
    refine ⟨?_, hrun (by decide) cs⟩
    rintro rfl
    exact absurd hc (by decide)

/-- An integer denotes a number just where nothing is wrong with it. -/
theorem exists_denotesInt_iff {c : Char} {cs : List Char} (h : (scan c cs).kind = .int) :
    (∃ n, DenotesInt (c :: cs.take (scan c cs).more) n) ↔ (scan c cs).faults = [] := by
  cases intForm h with
  | hexadecimal hc hcs hx htake hdrop hfaults =>
    rw [htake, hfaults, hc]
    exact exists_denotesInt_hexadecimal hx fun d hd => List.mem_takeWhile_imp hd
  | decimal hx hc htake hdrop hfaults =>
    rw [htake, hfaults]
    refine exists_denotesInt_digits (List.cons_ne_nil c _) (List.forall_mem_cons.2 ⟨hc, ?_⟩)
    exact fun d hd => List.mem_takeWhile_imp hd

/-! ### Integers of sources -/

/-- Integer tokens have the value they denote: an integer in which nothing is reported denotes one
number, and has it as its value, as long as it is below `2 ^ 64`.  One in which something is reported
denotes nothing and has no value. -/
theorem intLiteral?_token (base : Pos) (source : String) (t : Token)
    (ht : t ∈ (scanSource base source).allTokens) (hkind : t.kind = .int) :
    ((∀ e ∈ (scanSource base source).errors, t.span.contains e.span = false) →
      ∃ n, (∀ m, DenotesInt t.text.toList m ↔ m = n) ∧
        (intLiteral? t.text).map UInt64.toNat = if n < 2 ^ 64 then some n else none) ∧
    ((∃ e ∈ (scanSource base source).errors, t.span.contains e.span = true) →
      (∀ m, ¬ DenotesInt t.text.toList m) ∧ intLiteral? t.text = none) := by
  obtain ⟨u, hu, rfl⟩ := exists_scanned ht (by rw [hkind]; decide)
  have hfaults : u.faults = [] ↔
      ∀ e ∈ (scanSource base source).errors, u.token.span.contains e.span = false :=
    faults_eq_nil_iff hu
  obtain ⟨p, c, ds, rfl⟩ := exists_read hu
  have hscan : (scan c ds).kind = .int := hkind
  have htext : (ScannedToken.read p c ds).token.text.toList = c :: ds.take (scan c ds).more := by
    have hne : (scan c ds).kind ≠ .comment := by rw [hscan]; decide
    show (String.ofList (tokenText _ _)).toList = _
    rw [String.toList_ofList, tokenText_of_ne hne]
  have hnil : (ScannedToken.read p c ds).faults = [] ↔ (scan c ds).faults = [] := List.map_eq_nil_iff
  have hplus : '+' ∉ (ScannedToken.read p c ds).token.text.toList := htext ▸ plus_not_mem_int hscan
  have hdenotes : (∃ n, DenotesInt (ScannedToken.read p c ds).token.text.toList n) ↔
      ∀ e ∈ (scanSource base source).errors,
        (ScannedToken.read p c ds).token.span.contains e.span = false := by
    rw [← hfaults, hnil, ← exists_denotesInt_iff hscan, ← htext]
  constructor
  · intro hclear
    obtain ⟨n, hn⟩ := hdenotes.2 hclear
    exact ⟨n, fun m => ⟨fun hm => hm.unique hplus hn, fun hm => hm ▸ hn⟩, hn.intLiteral?_eq hplus⟩
  · rintro ⟨e, he, hinside⟩
    have hnone (m : Nat) : ¬ DenotesInt (ScannedToken.read p c ds).token.text.toList m := by
      intro hm
      rw [hdenotes.1 ⟨m, hm⟩ e he] at hinside
      cases hinside
    refine ⟨hnone, Option.eq_none_iff_forall_ne_some.2 fun v hv => ?_⟩
    exact hnone _ ((intLiteral?_eq_some hplus).1 hv)

end Idl
