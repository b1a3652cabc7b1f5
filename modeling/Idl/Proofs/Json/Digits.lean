/-
Idl/Proofs/Json/Digits.lean

Natural numbers as JSON spells them.

A number is written with decimal digits, the first of which is no zero unless it is the only one
(`head_digits_ne_zero`).  Reading the digits gives the number back (`natOfDigits?_toString`), the
number ends where the digits do (`numberLength?_toString`), and a number of 64 bits lies in the
range of double-precision numbers (`numberFits_toString`).
-/
import Idl.Json.Read
import Idl.Json.Record
import Mathlib.Data.List.Basic
import Mathlib.Data.List.TakeWhile

namespace Idl

/-! ### Digits -/

theorem toList_toString (n : Nat) : (toString n).toList = Nat.toDigits 10 n := Nat.toList_repr

theorem isDigit_of_mem_toString {n : Nat} {c : Char} (hc : c ∈ (toString n).toList) :
    c.isDigit = true := by
  rw [toList_toString] at hc
  exact Nat.isDigit_of_mem_toDigits (by decide) (by decide) hc

theorem toString_ne_nil (n : Nat) : (toString n).toList ≠ [] := by
  rw [toList_toString]
  exact Nat.toDigits_ne_nil

/-- The code of a digit lies between those of 0 and 9. -/
theorem toNat_of_isDigit {c : Char} (h : c.isDigit = true) : 48 ≤ c.toNat ∧ c.toNat ≤ 57 := by
  obtain ⟨hlow, hhigh⟩ := Bool.and_eq_true_iff.1 h
  exact ⟨UInt32.le_iff_toNat_le.1 (of_decide_eq_true hlow),
    UInt32.le_iff_toNat_le.1 (of_decide_eq_true hhigh)⟩

theorem digitValue_of_isDigit {c : Char} (h : c.isDigit = true) :
    digitValue 10 c = some (c.toNat - 48) := by
  obtain ⟨hlow, hhigh⟩ := toNat_of_isDigit h
  have hrange : (decide ('0' ≤ c) && decide (c ≤ '9')) = true := h
  have hvalue : c.toNat - '0'.toNat < 10 := by
    rw [show '0'.toNat = 48 from rfl]
    omega
  unfold digitValue
  rw [if_pos hrange, if_pos hvalue]
  rfl

theorem isDigitIn_of_isDigit {c : Char} (h : c.isDigit = true) : isDigitIn 10 c = true := by
  rw [isDigitIn, digitValue_of_isDigit h]
  rfl

/-- A number but zero does not start with a zero. -/
theorem head_digits_ne_zero {n : Nat} (h : n ≠ 0) : (Nat.toDigits 10 n).head? ≠ some '0' := by
  induction n using Nat.strongRecOn with
  | ind n ih =>
    rcases Nat.lt_or_ge n 10 with hlt | hge
    · rw [Nat.toDigits_of_lt_base hlt, List.head?_cons, ne_eq, Option.some.injEq,
        Nat.digitChar_eq_zero]
      exact h
    · have hdiv : n / 10 ≠ 0 := by omega
      rw [Nat.toDigits_of_base_le (by decide) hge, List.head?_append_of_ne_nil _ Nat.toDigits_ne_nil]
      exact ih (n / 10) (by omega) hdiv

/-! ### Values -/

theorem mapM_digitValue {cs : List Char} (h : ∀ c ∈ cs, c.isDigit = true) :
    cs.mapM (digitValue 10) = some (cs.map fun c => c.toNat - 48) := by
  induction cs with
  | nil => rfl
  | cons c cs ih =>
    rw [List.mapM_cons, digitValue_of_isDigit (h c List.mem_cons_self),
      ih fun d hd => h d (List.mem_cons_of_mem _ hd)]
    rfl

theorem leadingDigits_of_isDigit {cs : List Char} (h : ∀ c ∈ cs, c.isDigit = true) :
    leadingDigits 10 cs.length cs = cs.map fun c => c.toNat - 48 := by
  induction cs with
  | nil => rfl
  | cons c cs ih =>
    rw [List.length_cons, leadingDigits, digitValue_of_isDigit (h c List.mem_cons_self),
      ih fun d hd => h d (List.mem_cons_of_mem _ hd)]
    rfl

/-- The values of the digits of a number. -/
def digitsOf (n : Nat) : List Nat := (Nat.toDigits 10 n).map fun c => c.toNat - 48

theorem ofDigitValues_digitsOf (n : Nat) : ofDigitValues 10 (digitsOf n) = n := by
  have h : ofDigitValues 10 (digitsOf n) = Nat.ofDigitChars 10 (Nat.toDigits 10 n) 0 := by
    rw [Nat.ofDigitChars_eq_foldl, ofDigitValues, digitsOf, List.foldl_map]
    simp only [Nat.mul_comm]
    rfl
  rw [h, Nat.ofDigitChars_ten_toDigits]

/-- Reading what is written. -/
theorem natOfDigits?_toString (n : Nat) : natOfDigits? 10 (toString n).toList = some n := by
  have hplus : (toString n).toList.head? ≠ some '+' := fun h =>
    absurd (isDigit_of_mem_toString (List.mem_of_head? h)) (by decide)
  unfold natOfDigits?
  simp only [if_neg hplus]
  rw [if_neg (by simp), mapM_digitValue fun _ => isDigit_of_mem_toString,
    toList_toString]
  exact congrArg some (ofDigitValues_digitsOf n)

theorem Json.nat?_ofNat (n : Nat) : (Json.ofNat n).nat? = some n := by
  have hall : (toString n).toList.all (isDigitIn 10) = true :=
    List.all_eq_true.2 fun c hc => isDigitIn_of_isDigit (isDigit_of_mem_toString hc)
  rw [Json.ofNat, Json.nat?, if_pos hall, natOfDigits?_toString]

theorem Json.natBelow?_ofNat {n bound : Nat} (h : n < bound) :
    (Json.ofNat n).natBelow? bound = some n := by
  rw [Json.natBelow?, Json.nat?_ofNat, Option.filter_some, if_pos (decide_eq_true h)]

/-! ### Where a number ends -/

/-- Whether no number goes on with the text. -/
def EndsNumber (cs : List Char) : Prop :=
  ∀ c, cs.head? = some c → JsonToken.isDigit c = false ∧ c ≠ '.' ∧ c ≠ 'e' ∧ c ≠ 'E'

namespace JsonToken

theorem takeWhile_isDigit {ds cs : List Char} (h : ∀ c ∈ ds, isDigit c = true)
    (hcs : EndsNumber cs) : (ds ++ cs).takeWhile isDigit = ds := by
  rw [List.takeWhile_append_of_pos h]
  cases cs with
  | nil => simp
  | cons c cs => rw [List.takeWhile_cons_of_neg (by simp [(hcs c rfl).1]), List.append_nil]

theorem fractionLength?_of_ends {cs : List Char} (h : EndsNumber cs) :
    fractionLength? cs = some 0 := by
  unfold fractionLength?
  split
  · next cs => exact absurd rfl (h '.' rfl).2.1
  · rfl

theorem exponentLength?_of_ends {cs : List Char} (h : EndsNumber cs) :
    exponentLength? cs = some 0 := by
  unfold exponentLength?
  split
  · rfl
  · next c cs => rw [if_neg (not_or.2 ⟨(h c rfl).2.2.1, (h c rfl).2.2.2⟩)]

/-- The number ends with its last digit. -/
theorem numberLength?_toString (n : Nat) {cs : List Char} (h : EndsNumber cs) :
    numberLength? ((toString n).toList ++ cs) = some (toString n).toList.length := by
  have hdigits : ∀ c ∈ (toString n).toList, isDigit c = true := fun c hc =>
    isDigitIn_of_isDigit (isDigit_of_mem_toString hc)
  have hhead : ((toString n).toList ++ cs).head? = (toString n).toList.head? :=
    List.head?_append_of_ne_nil _ (toString_ne_nil n)
  have hsign : ((toString n).toList ++ cs).head? ≠ some '-' := fun hsign =>
    absurd (isDigit_of_mem_toString (List.mem_of_head? (hhead ▸ hsign))) (by decide)
  have hwhole : wholeLength? ((toString n).toList ++ cs) = some (toString n).toList.length := by
    unfold wholeLength?
    rw [hhead, toList_toString]
    by_cases hn : n = 0
    · rw [hn, Nat.toDigits_zero]
      rfl
    · rw [if_neg (head_digits_ne_zero hn), ← toList_toString, digitsLength?,
        takeWhile_isDigit hdigits h]
      exact if_neg fun hnil => toString_ne_nil n (List.length_eq_zero_iff.1 hnil)
  unfold numberLength?
  simp only [if_neg hsign, List.drop_zero, hwhole, Nat.zero_add, List.drop_left, Option.bind_eq_bind,
    Option.bind_some, fractionLength?_of_ends h, Nat.add_zero, exponentLength?_of_ends h]
  rfl

end JsonToken

/-! ### The range of numbers -/

theorem nearestDouble_le (n : Nat) : nearestDouble n ≤ n + Nat.pow 2 (n.log2 + 1 - 53) := by
  unfold nearestDouble
  generalize Nat.pow 2 (n.log2 + 1 - 53) = unit
  have hq : n / unit * unit ≤ n := Nat.div_mul_le_self n unit
  dsimp only
  split
  · rw [Nat.add_mul, Nat.one_mul]
    exact Nat.add_le_add_right hq unit
  · exact Nat.le_trans hq (Nat.le_add_right ..)

theorem nearestDouble_lt {n : Nat} (h : n < UInt64.size) : nearestDouble n < doubleBound := by
  have hlog : n.log2 < 64 := by
    rcases Nat.eq_zero_or_pos n with rfl | hpos
    · decide
    · exact (Nat.log2_lt (Nat.ne_of_gt hpos)).2 h
  have hunit : Nat.pow 2 (n.log2 + 1 - 53) ≤ Nat.pow 2 11 :=
    Nat.pow_le_pow_right (by decide) (by omega)
  have hbound : UInt64.size + Nat.pow 2 11 ≤ doubleBound := by decide +kernel
  calc nearestDouble n ≤ n + Nat.pow 2 (n.log2 + 1 - 53) := nearestDouble_le n
    _ < UInt64.size + Nat.pow 2 11 := Nat.add_lt_add_of_lt_of_le h hunit
    _ ≤ doubleBound := hbound

namespace Json

/-- All digits of a number of 64 bits count. -/
theorem Magnitude.append_of_lt (m : Nat) {ds : List Nat}
    (h : ds.foldl (fun n d => n * 10 + d) m < UInt64.size) :
    Magnitude.append m ds = (ds.foldl (fun n d => n * 10 + d) m, ds.length) := by
  induction ds generalizing m with
  | nil => rfl
  | cons d ds ih =>
    have hle (ds : List Nat) (m : Nat) : m ≤ ds.foldl (fun n d => n * 10 + d) m := by
      induction ds generalizing m with
      | nil => exact Nat.le_refl m
      | cons d ds ih => exact Nat.le_trans (by omega) (ih (m * 10 + d))
    have hlt : m * 10 + d < UInt64.size := Nat.lt_of_le_of_lt (hle ds _) h
    rw [Magnitude.append, if_pos hlt, ih _ h]
    rfl

theorem magnitude_toString {n : Nat} (h : n < UInt64.size) :
    Magnitude.ofSpelling (toString n) = ⟨n, 0⟩ := by
  have hdigits : ∀ c ∈ (toString n).toList, c.isDigit = true := fun _ => isDigit_of_mem_toString
  have hsign : (toString n).toList.head? ≠ some '-' := fun h =>
    absurd (hdigits _ (List.mem_of_head? h)) (by decide)
  have hwhole : Magnitude.digits (toString n).toList = digitsOf n := by
    rw [Magnitude.digits, leadingDigits_of_isDigit hdigits, toList_toString]
    rfl
  have hlength : (digitsOf n).length = (toString n).toList.length := by
    rw [digitsOf, List.length_map, toList_toString]
  have hscale : Magnitude.scale (toString n).toList = 0 := by
    have hdrop : (toString n).toList.dropWhile (fun c => c != 'e' && c != 'E') = [] := by
      refine List.dropWhile_eq_nil_iff.2 fun c hc => ?_
      obtain ⟨-, hhigh⟩ := toNat_of_isDigit (hdigits c hc)
      have hne (d : Char) (hd : 57 < d.toNat) : (c != d) = true :=
        bne_iff_ne.2 fun heq => absurd (heq ▸ hhigh) (Nat.not_le.2 hd)
      rw [hne 'e' (by decide), hne 'E' (by decide)]
      rfl
    unfold Magnitude.scale
    rw [hdrop]
    rfl
  have happend : Magnitude.append 0 (digitsOf n) = (n, (digitsOf n).length) := by
    have hfold : (digitsOf n).foldl (fun n d => n * 10 + d) 0 = n := ofDigitValues_digitsOf n
    rw [Magnitude.append_of_lt 0 (by rw [hfold]; exact h), hfold]
  unfold Magnitude.ofSpelling
  simp only [if_neg hsign, hwhole, hlength, List.drop_length, hscale, happend]
  simp [Magnitude.append]

theorem numberFits_toString {n : Nat} (h : n < UInt64.size) : numberFits (toString n) = true := by
  have hone : nearestDouble (Nat.pow 10 0) = 1 := nearestDouble_of_lt (by decide)
  rw [numberFits, magnitude_toString h, Magnitude.fits]
  simp only [Int.toNat_zero, hone, Nat.mul_one, decide_eq_true (nearestDouble_lt h)]
  simp

end Json

end Idl
