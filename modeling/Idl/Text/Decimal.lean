/-
Idl/Text/Decimal.lean

Double-precision numbers, as far as numbers in decimal notation are rounded to them.

A decimal number rounds to a finite double-precision number exactly if its magnitude is below
half way from the largest of them to the next power of two.  The comparison is exact, and its
cost is bounded by the digits that are written, whatever the exponent says.
-/
import Idl.Text.Digits

namespace Idl

/-- The least number that is too large for a double-precision one, up to rounding. -/
def doubleBound : Nat := Nat.pow 2 1024 - Nat.pow 2 970

/-- Whether `mantissa · 10 ^ exponent` lies below the bound of double-precision numbers. -/
def belowDoubleBound (mantissa : List Char) (exponent : Int) : Bool :=
  let digits := mantissa.dropWhile (· == '0')
  let magnitude := digits.length + exponent
  if digits.isEmpty || magnitude < 309 then true
  else if 309 < magnitude then false
  else
    let n := ofDigitValues 10 (leadingDigits 10 digits.length digits)
    if 0 ≤ exponent then n * Nat.pow 10 exponent.toNat < doubleBound
    else n < doubleBound * Nat.pow 10 (-exponent).toNat

/-- The double-precision number that is nearest to `n`, whatever their range: it has 53 binary
digits, and of two that are equally near the last digit is even. -/
def nearestDouble (n : Nat) : Nat :=
  let unit := Nat.pow 2 (n.log2 + 1 - 53)
  let q := n / unit
  let r := n % unit
  if unit < 2 * r ∨ (2 * r = unit ∧ q % 2 = 1) then (q + 1) * unit else q * unit

/-- A number of at most 53 binary digits is one itself. -/
theorem nearestDouble_of_lt {n : Nat} (h : n.log2 < 53) : nearestDouble n = n := by
  have e : n.log2 + 1 - 53 = 0 := by omega
  simp [nearestDouble, e, Nat.mod_one]

end Idl
