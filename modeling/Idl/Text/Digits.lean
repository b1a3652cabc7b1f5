/-
Idl/Text/Digits.lean

Digits and the numbers they write, in the radices 8, 10 and 16.

`natOfDigits?` reads a whole text as a number, `intLiteral?` the text of an integer literal,
whose first characters choose the radix, and `hexPadded` writes a number with a fixed count of
hexadecimal digits.
-/

namespace Idl

/-! ### Reading -/

/-- The value of a digit in `radix`, which is at most 16. -/
def digitValue (radix : Nat) (c : Char) : Option Nat :=
  let v :=
    if '0' ≤ c && c ≤ '9' then c.toNat - '0'.toNat
    else if 'a' ≤ c && c ≤ 'f' then c.toNat - 'a'.toNat + 10
    else if 'A' ≤ c && c ≤ 'F' then c.toNat - 'A'.toNat + 10
    else radix
  if v < radix then some v else none

/-- A digit in `radix`. -/
def isDigitIn (radix : Nat) (c : Char) : Bool := (digitValue radix c).isSome

/-- The number that a list of digit values writes, most significant first. -/
def ofDigitValues (radix : Nat) (ds : List Nat) : Nat :=
  ds.foldl (fun n d => n * radix + d) 0

/-- The values of the digits at the head of a text, at most `count` of them. -/
def leadingDigits (radix : Nat) : Nat → List Char → List Nat
  | 0, _ => []
  | _ + 1, [] => []
  | count + 1, c :: cs =>
    match digitValue radix c with
    | some d => d :: leadingDigits radix count cs
    | none => []

/-- Reads a text of one or more digits, which a plus sign may precede. -/
def natOfDigits? (radix : Nat) (cs : List Char) : Option Nat :=
  let digits := if cs.head? = some '+' then cs.tail else cs
  if digits.isEmpty then none else (digits.mapM (digitValue radix)).map (ofDigitValues radix)

/-- The number that an integer literal writes: hexadecimal after `0x` or `0X`, octal after
another leading zero, decimal otherwise. -/
def intLiteralNat? : List Char → Option Nat
  | '0' :: 'x' :: cs => natOfDigits? 16 cs
  | '0' :: 'X' :: cs => natOfDigits? 16 cs
  | '0' :: c :: cs => natOfDigits? 8 (c :: cs)
  | cs => natOfDigits? 10 cs

/-- The value of an integer literal, where it fits into 64 bits. -/
def intLiteral? (text : String) : Option UInt64 :=
  (intLiteralNat? text.toList).bind fun n =>
    if n < UInt64.size then some (UInt64.ofNat n) else none

/-! ### Writing -/

/-- The lower-case hexadecimal digits of `n`, without leading zeros. -/
def hexDigits (n : Nat) : List Char := Nat.toDigits 16 n

/-- The last `count` hexadecimal digits of `n`, in lower case. -/
def hexPadded : Nat → Nat → List Char
  | 0, _ => []
  | count + 1, n => hexPadded count (n / 16) ++ [Nat.digitChar (n % 16)]

@[simp] theorem length_hexPadded (count n : Nat) : (hexPadded count n).length = count := by
  induction count generalizing n with
  | zero => rfl
  | succ k ih => simp [hexPadded, ih]

end Idl
