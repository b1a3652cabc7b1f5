/-
Idl/Json/Number.lean

The size of a number that JSON spells.

A number is read as a significand of at most 64 bits, made of the first digits, times a power of
ten.  Both are rounded to double precision, and their product has to lie in its range.  Near the
end of the range this decides otherwise than the number that is spelled: digits that do not fit
into the significand do not count, and what is rounded twice may be rounded up to it.
-/
import Idl.Json
import Idl.Text.Decimal

namespace Idl

namespace Json

/-- A number without its sign: `significand · 10 ^ exponent`. -/
structure Magnitude where
  significand : Nat
  exponent : Int
  deriving DecidableEq, Repr

namespace Magnitude

/-- Appends digits to a significand up to the first that would take it beyond 64 bits, and
counts the digits that it takes. -/
def append (significand : Nat) : List Nat → Nat × Nat
  | [] => (significand, 0)
  | d :: ds =>
    if significand * 10 + d < UInt64.size then
      let (n, count) := append (significand * 10 + d) ds
      (n, count + 1)
    else (significand, 0)

/-- The values of the decimal digits at the head of a text. -/
def digits (cs : List Char) : List Nat := leadingDigits 10 cs.length cs

/-- The exponent that a text holds, 0 if it holds none. -/
def scale (cs : List Char) : Int :=
  let behind := (cs.dropWhile fun c => c != 'e' && c != 'E').drop 1
  let size : Int := ofDigitValues 10 (digits (behind.dropWhile fun c => c == '+' || c == '-'))
  if behind.head? = some '-' then -size else size

/-- Reads the spelling of a number.  Digits of the whole part that do not count still scale the
others; in the fraction those that count are divided by a power of ten. -/
def ofSpelling (spelling : String) : Magnitude :=
  let cs := spelling.toList
  let cs := if cs.head? = some '-' then cs.tail else cs
  let whole := digits cs
  let behind := cs.drop whole.length
  let fraction := if behind.head? = some '.' then digits behind.tail else []
  let (n, wholeCount) := append 0 whole
  let (n, fractionCount) := append n fraction
  ⟨n, whole.length - wholeCount - fractionCount + scale cs⟩

/-- Whether a magnitude lies in the range of double-precision numbers. -/
def fits (m : Magnitude) : Bool :=
  m.significand == 0 || m.exponent < 0 ||
    (m.exponent ≤ 308 &&
      nearestDouble m.significand * nearestDouble (Nat.pow 10 m.exponent.toNat) < doubleBound)

end Magnitude

/-- Whether a number lies in the range of double-precision numbers. -/
def numberFits (spelling : String) : Bool := (Magnitude.ofSpelling spelling).fits

end Json

end Idl
