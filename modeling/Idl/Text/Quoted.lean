/-
Idl/Text/Quoted.lean

Quoted text: character and string literals, and what they stand for.

A literal is written between double quotes, single quotes or back quotes.  Between back quotes
everything stands for itself, save that carriage returns are dropped.  Between the other two,
escapes stand for characters or for single bytes, and the bytes of all pieces together have to
form a text.

Escapes are read twice, by two readers that share nothing but the digits.  `Escape.read` is the
one that the reader of tokens uses: it goes as far into an escape as it can and says what is
wrong with it.  `Piece.read?` is the one of `unquote?`: it takes the next piece off a body, and
gives up where there is none.  `quote` writes a text as a literal between double quotes.
-/
import Idl.Text.Blank
import Idl.Text.Digits

namespace Idl

/-! ### Escapes -/

/-- The quote of a literal in which everything stands for itself. -/
def backQuote : Char := Char.ofNat 0x60

/-- What a character or an escape between quotes stands for. -/
inductive Piece where
  | char (c : Char)
  | byte (b : UInt8)
  deriving DecidableEq, Repr

/-- The bytes that a piece adds to the text. -/
def Piece.bytes : Piece → List UInt8
  | .char c => String.utf8EncodeChar c
  | .byte b => [b]

/-- What can be wrong with an escape. -/
inductive EscapeFault where
  /-- The text ends at the backslash. -/
  | unfinished
  /-- No escape is named `name`, or one of its digits is missing. -/
  | unknown (name : Char)
  /-- The number of the escape is out of range, or half of a surrogate pair. -/
  | invalidCodePoint
  deriving DecidableEq, Repr

/-- An escape, without its backslash. -/
structure Escape where
  /-- How many characters it takes. -/
  width : Nat
  /-- What it stands for. -/
  outcome : Except EscapeFault Piece

/-- The characters that have an escape of one letter. -/
def shortEscape? : Char → Option Char
  | 'a' => some (Char.ofNat 0x07)
  | 'b' => some (Char.ofNat 0x08)
  | 'f' => some (Char.ofNat 0x0c)
  | 'n' => some '\n'
  | 'r' => some '\r'
  | 't' => some '\t'
  | 'v' => some (Char.ofNat 0x0b)
  | '\\' => some '\\'
  | _ => none

/-- The byte with the number `n`. -/
def bytePiece? (n : Nat) : Option Piece :=
  if n < 256 then some (.byte (UInt8.ofNat n)) else none

/-- The character with the number `n`. -/
def charPiece? (n : Nat) : Option Piece :=
  if n.isValidChar then some (.char (Char.ofNat n)) else none

/-- An escape of `count` digits in `radix`, which stand after `lead` characters. -/
def Escape.numeric (name : Char) (lead radix count : Nat) (piece? : Nat → Option Piece)
    (cs : List Char) : Escape :=
  let digits := leadingDigits radix count (cs.drop lead)
  { width := lead + digits.length
    outcome :=
      if digits.length < count then .error (.unknown name)
      else match piece? (ofDigitValues radix digits) with
        | some p => .ok p
        | none => .error .invalidCodePoint }

/-- Reads the escape at the head of the text after a backslash, between two `quote`s.  A
character that names no escape is not part of it. -/
def Escape.read (quote : Char) : List Char → Escape
  | [] => ⟨0, .error .unfinished⟩
  | c :: cs =>
    match shortEscape? c with
    | some d => ⟨1, .ok (.char d)⟩
    | none =>
      if c = quote then ⟨1, .ok (.char c)⟩
      else if isDigitIn 8 c then numeric c 0 8 3 bytePiece? (c :: cs)
      else if c = 'x' then numeric c 1 16 2 bytePiece? (c :: cs)
      else if c = 'u' then numeric c 1 16 4 charPiece? (c :: cs)
      else if c = 'U' then numeric c 1 16 8 charPiece? (c :: cs)
      else ⟨0, .error (.unknown c)⟩

/-! ### From a literal to its text -/

/-- What one letter behind a backslash stands for between two `quote`s. -/
def letterEscape? (quote : Char) : Char → Option Char
  | 'a' => some (Char.ofNat 0x07)
  | 'b' => some (Char.ofNat 0x08)
  | 'f' => some (Char.ofNat 0x0c)
  | 'n' => some '\n'
  | 'r' => some '\r'
  | 't' => some '\t'
  | 'v' => some (Char.ofNat 0x0b)
  | '\\' => some '\\'
  | c => if (c = '\'' ∨ c = '"') ∧ c = quote then some c else none

/-- Takes exactly `width` digits in `radix` off the front of a text: the number that they write,
and what follows them. -/
def takeDigits? (width radix : Nat) (cs : List Char) : Option (Nat × List Char) :=
  if (cs.take width).length = width ∧ (cs.take width).all (isDigitIn radix) then
    some (ofDigitValues radix ((cs.take width).filterMap (digitValue radix)), cs.drop width)
  else none

/-- What the digits of an escape stand for, with what follows them. -/
def Piece.numeric? (piece? : Nat → Option Piece) (width radix : Nat) (cs : List Char) :
    Option (Piece × List Char) :=
  (takeDigits? width radix cs).bind fun (n, rest) => (piece? n).map fun p => (p, rest)

/-- Takes an escape, without its backslash, off a text between two `quote`s. -/
def Piece.escape? (quote : Char) : List Char → Option (Piece × List Char)
  | [] => none
  | c :: cs =>
    match letterEscape? quote c with
    | some d => some (.char d, cs)
    | none =>
      if c = 'x' then numeric? bytePiece? 2 16 cs
      else if c = 'u' ∨ c = 'U' then numeric? charPiece? (if c = 'u' then 4 else 8) 16 cs
      else if '0' ≤ c ∧ c ≤ '7' then numeric? bytePiece? 3 8 (c :: cs)
      else none

/-- Takes the first character or escape off a text between two `quote`s. -/
def Piece.read? (quote : Char) : List Char → Option (Piece × List Char)
  | [] => none
  | c :: cs =>
    if c = quote ∨ c = '\n' then none
    else if c = '\\' then escape? quote cs
    else some (.char c, cs)

/-- The digits of an escape are dropped. -/
theorem Piece.numeric?_rest {piece? : Nat → Option Piece} {width radix : Nat} {cs rest : List Char}
    {p : Piece} (h : numeric? piece? width radix cs = some (p, rest)) : rest = cs.drop width := by
  obtain ⟨⟨n, ds⟩, htake, hpiece⟩ := Option.bind_eq_some_iff.1 h
  obtain ⟨q, -, hq⟩ := Option.map_eq_some_iff.1 hpiece
  unfold takeDigits? at htake
  split at htake
  · rw [← (Prod.mk.inj hq).2, (Prod.mk.inj (Option.some.inj htake)).2]
  · cases htake

theorem Piece.escape?_length {quote : Char} {cs rest : List Char} {p : Piece}
    (h : escape? quote cs = some (p, rest)) : rest.length ≤ cs.length := by
  unfold escape? at h
  split at h
  · cases h
  · next c cs =>
    have hle (width : Nat) : (cs.drop width).length ≤ (c :: cs).length := by
      rw [List.length_drop, List.length_cons]
      omega
    split at h
    · rw [← (Prod.mk.inj (Option.some.inj h)).2]
      exact hle 0
    split at h
    · rw [numeric?_rest h]
      exact hle 2
    split at h
    · rw [numeric?_rest h]
      exact hle _
    split at h
    · rw [numeric?_rest h]
      exact hle 2
    · cases h

/-- A piece takes a character at least. -/
theorem Piece.read?_length {quote : Char} {cs rest : List Char} {p : Piece}
    (h : read? quote cs = some (p, rest)) : rest.length < cs.length := by
  unfold read? at h
  split at h
  · cases h
  split at h
  · cases h
  split at h
  · exact Nat.lt_succ_of_le (escape?_length h)
  · rw [← (Prod.mk.inj (Option.some.inj h)).2]
    exact Nat.lt_succ_self _

/-- The pieces that stand between two `quote`s. -/
def pieces? (quote : Char) (cs : List Char) : Option (List Piece) :=
  if cs.isEmpty then some []
  else
    match _h : Piece.read? quote cs with
    | some (p, rest) => (pieces? quote rest).map (p :: ·)
    | none => none
termination_by cs.length
decreasing_by exact Piece.read?_length ‹_›

/-- The text whose UTF-8 form is `bytes`. -/
def ofUtf8? (bytes : List UInt8) : Option String := String.fromUTF8? bytes.toByteArray

/-- The text between two `quote`s that the given characters stand for. -/
def unquoteBody? (quote : Char) (body : List Char) : Option String :=
  if quote = backQuote then
    if body.contains backQuote then none else some (String.ofList (body.filter (· ≠ '\r')))
  else
    (pieces? quote body).bind fun ps =>
      if quote = '\'' ∧ ps.length ≠ 1 then none else ofUtf8? (ps.flatMap Piece.bytes)

/-- The text that a quoted literal stands for; `none` if it is not well formed. -/
def unquote? (raw : String) : Option String :=
  match raw.toList with
  | [] => none
  | q :: cs =>
    if (q = '"' ∨ q = '\'' ∨ q = backQuote) ∧ cs.getLast? = some q then
      unquoteBody? q cs.dropLast
    else none

/-! ### From a text to a literal -/

/-- `c` as it is written between double quotes. -/
def quotedChar (c : Char) : List Char :=
  if c = '"' then ['\\', '"']
  else if c = '\\' then ['\\', '\\']
  else if c = Char.ofNat 0x07 then ['\\', 'a']
  else if c = Char.ofNat 0x08 then ['\\', 'b']
  else if c = Char.ofNat 0x0c then ['\\', 'f']
  else if c = '\n' then ['\\', 'n']
  else if c = '\r' then ['\\', 'r']
  else if c = '\t' then ['\\', 't']
  else if c = Char.ofNat 0x0b then ['\\', 'v']
  else if isControl c then
    if c.toNat < 0x80 then '\\' :: 'x' :: hexPadded 2 c.toNat
    else '\\' :: 'u' :: hexPadded 4 c.toNat
  else [c]

/-- A text as a literal between double quotes. -/
def quote (text : String) : String :=
  String.ofList ('"' :: text.toList.flatMap quotedChar ++ ['"'])

end Idl
