/-
Idl/Toml/Scan.lean

Reading what a TOML document consists of below the level of values: blanks and comments, keys,
strings, and the spellings of numbers and dates.

A step reads something off the head of a text and leaves the rest, or refuses the text.  What
comes next always shows in the next characters, so no step is ever taken back.
-/
import Idl.Text.Decimal
import Idl.Toml

namespace Idl

/-- A step of reading: what it reads, and the text that is left. -/
abbrev TomlStep := StateT (List Char) Option

namespace TomlStep

/-! ### Single characters -/

/-- The next character. -/
def peek : TomlStep (Option Char) := fun cs => some (cs.head?, cs)

/-- Takes the character `c`. -/
def take (c : Char) : TomlStep Unit
  | [] => none
  | d :: cs => if d = c then some ((), cs) else none

/-- Takes a character of a class, if one comes next, and tells whether it did. -/
def takeOne (p : Char → Bool) : TomlStep Bool
  | [] => some (false, [])
  | d :: cs => if p d then some (true, cs) else some (false, d :: cs)

/-- Takes the character `c`, if it comes next, and tells whether it did. -/
def takeIf (c : Char) : TomlStep Bool := takeOne (· == c)

/-- Takes all characters up to the first one that is not of the class. -/
def span (p : Char → Bool) : TomlStep (List Char) := fun cs =>
  some (cs.takeWhile p, cs.dropWhile p)

/-- Repeats a step, from `acc` on, as long as it tells to go on, and at most once more than
`bound` has members. -/
def iterateWithin {α : Type} (step : α → TomlStep (α × Bool)) (bound : List Char) (acc : α)
    (cs : List Char) : Option (α × List Char) :=
  match step acc cs with
  | none => none
  | some ((acc, false), rest) => some (acc, rest)
  | some ((acc, true), rest) =>
    match bound with
    | [] => none
    | _ :: bound => iterateWithin step bound acc rest

/-- Repeats a step, from `acc` on, as long as it tells to go on.  It has to take something each
time, so that the text bounds how often it can go on. -/
def iterate {α : Type} (step : α → TomlStep (α × Bool)) (acc : α) : TomlStep α := fun cs =>
  iterateWithin step cs acc cs

/-! ### Blanks, line breaks and comments -/

/-- The characters that may stand anywhere between the parts of a line. -/
def isBlank (c : Char) : Bool := c == ' ' || c == '\t'

/-- The characters that a comment or string may hold: all but control characters, of which the
tab alone is allowed. -/
def isPlain (c : Char) : Bool := c == '\t' || (0x20 ≤ c.toNat && c.toNat != 0x7f)

/-- The length of the line break at the head of a text, 0 if there is none. -/
def breakLength : List Char → Nat
  | '\n' :: _ => 1
  | '\r' :: '\n' :: _ => 2
  | _ => 0

/-- Passes over blanks. -/
def blanks : TomlStep Unit := do let _ ← span isBlank

/-- Takes a line break. -/
def lineBreak : TomlStep Unit := fun cs =>
  let n := breakLength cs
  if n = 0 then none else some ((), cs.drop n)

/-- Passes over a comment, if there is one. -/
def comment : TomlStep Unit := do
  if ← takeIf '#' then
    let _ ← span isPlain

/-- Takes the end of a line, with the comment that may precede it. -/
def endOfLine : TomlStep Unit := do
  blanks
  comment
  if (← peek).isSome then lineBreak

/-- Passes over blanks, line breaks and comments. -/
def space : TomlStep Unit :=
  iterate (fun _ => do
    blanks
    let c ← peek
    if c = some '#' ∨ c = some '\n' ∨ c = some '\r' then
      comment
      lineBreak
      return ((), true)
    else
      return ((), false)) ()

/-! ### Strings -/

/-- The kinds of string. -/
structure Quoting where
  /-- The quote.  Escapes are known between double quotes only. -/
  quote : Char
  /-- Whether the string stands between three quotes on each side and may hold line breaks. -/
  multiline : Bool

/-- The character that `count` hexadecimal digits at the head of a text write. -/
def hexChar? (count : Nat) (cs : List Char) : Option Char :=
  let digits := leadingDigits 16 count cs
  let n := ofDigitValues 16 digits
  if digits.length = count ∧ n.isValidChar then some (Char.ofNat n) else none

/-- The escape at the head of a text behind a backslash: the character that it stands for, and
how many characters it takes. -/
def escape? : List Char → Option (Char × Nat)
  | 'b' :: _ => some (Char.ofNat 0x08, 1)
  | 't' :: _ => some ('\t', 1)
  | 'n' :: _ => some ('\n', 1)
  | 'f' :: _ => some (Char.ofNat 0x0c, 1)
  | 'r' :: _ => some ('\r', 1)
  | '"' :: _ => some ('"', 1)
  | '\\' :: _ => some ('\\', 1)
  | 'u' :: cs => (hexChar? 4 cs).map (·, 5)
  | 'U' :: cs => (hexChar? 8 cs).map (·, 9)
  | _ => none

/-- The length of the blanks and line breaks at the head of a text. -/
def gapLength : List Char → Nat
  | [] => 0
  | c :: cs =>
    if isBlank c || breakLength (c :: cs) != 0 then gapLength cs + 1 else 0

/-- The length of what a backslash hides at the end of a line: the line break and all blanks and
line breaks around it.  It is 0 if more stands on the line. -/
def hiddenLength (cs : List Char) : Nat :=
  if breakLength (cs.dropWhile isBlank) = 0 then 0 else gapLength cs

/-- Reads a string behind its opening quotes, and leaves the text behind the closing ones.  Up
to two quotes in a row belong to a string between three quotes, also at its end. -/
def stringRest? (q : Quoting) : List Char → Option (List Char × List Char)
  | [] => none
  | c :: cs =>
    if c = q.quote then
      let more := (cs.takeWhile (· = q.quote)).length
      if !q.multiline then some ([], cs)
      else if more < 2 then (stringRest? q cs).map fun (s, rest) => (c :: s, rest)
      else if more < 5 then some (List.replicate (more - 2) c, cs.drop more)
      else none
    else if c = '\\' && q.quote = '"' then
      if q.multiline && hiddenLength cs != 0 then stringRest? q (cs.drop (hiddenLength cs))
      else
        match escape? cs with
        | none => none
        | some (d, n) => (stringRest? q (cs.drop n)).map fun (s, rest) => (d :: s, rest)
    else if q.multiline && breakLength (c :: cs) != 0 then
      (stringRest? q (cs.drop (breakLength (c :: cs) - 1))).map fun (s, rest) => ('\n' :: s, rest)
    else if isPlain c then (stringRest? q cs).map fun (s, rest) => (c :: s, rest)
    else none
termination_by cs => cs.length
decreasing_by all_goals simp; try omega

/-- Takes a string behind its opening quotes. -/
def stringRest (q : Quoting) : TomlStep String := fun cs =>
  (stringRest? q cs).map fun (s, rest) => (String.ofList s, rest)

/-- Takes a string on one line. -/
def lineString (quote : Char) : TomlStep String := do
  take quote
  stringRest ⟨quote, false⟩

/-- Takes a string.  A line break directly behind three opening quotes is not part of it. -/
def string (quote : Char) : TomlStep String := fun cs =>
  if [quote, quote, quote].isPrefixOf cs then
    let body := cs.drop 3
    stringRest ⟨quote, true⟩ (body.drop (breakLength body))
  else lineString quote cs

/-! ### Keys -/

/-- The characters of a key without quotes. -/
def isBareKey (c : Char) : Bool := c.isAlphanum || c == '_' || c == '-'

/-- Takes a key without dots. -/
def simpleKey : TomlStep String := do
  match ← peek with
  | some '"' => lineString '"'
  | some '\'' => lineString '\''
  | _ =>
    let cs ← span isBareKey
    if cs.isEmpty then failure else return String.ofList cs

/-- The parts that a key may have, and the levels at which values may nest. -/
def levelBound : Nat := 79

/-- Takes a key, which may be dotted. -/
def key : TomlStep TomlKey := do
  blanks
  let first ← simpleKey
  let k ← iterate (fun (k : TomlKey) => do
    blanks
    if ← takeIf '.' then
      blanks
      return (⟨k.name :: k.parents, ← simpleKey⟩, true)
    else
      return (k, false)) ⟨[], first⟩
  if k.parents.length < levelBound then
    return { k with parents := k.parents.reverse }
  else
    failure

/-! ### Numbers -/

/-- Digits, of which underscores may separate any two. -/
def isDigitRun (radix : Nat) : List Char → Bool
  | [] => false
  | [c] => isDigitIn radix c
  | c :: '_' :: cs => isDigitIn radix c && isDigitRun radix cs
  | c :: cs => isDigitIn radix c && isDigitRun radix cs

/-- The number that a run of digits writes. -/
def runValue (radix : Nat) (cs : List Char) : Nat :=
  let digits := cs.filter (· ≠ '_')
  ofDigitValues radix (leadingDigits radix digits.length digits)

/-- A text without the sign that it may start with. -/
def unsigned : List Char → List Char
  | '+' :: cs => cs
  | '-' :: cs => cs
  | cs => cs

/-- A whole number in decimal digits, without a sign: it starts with a zero only if it is one. -/
def isWhole (cs : List Char) : Bool := isDigitRun 10 cs && (cs.head? != some '0' || cs.length == 1)

/-- The least natural number that is no signed 64-bit integer. -/
def integerBound : Nat := UInt64.size / 2

/-- The spelling of a signed 64-bit integer. -/
def isInteger : List Char → Bool
  | '0' :: 'x' :: cs => isDigitRun 16 cs && runValue 16 cs < integerBound
  | '0' :: 'o' :: cs => isDigitRun 8 cs && runValue 8 cs < integerBound
  | '0' :: 'b' :: cs => isDigitRun 2 cs && runValue 2 cs < integerBound
  | cs =>
    let bound := if cs.head? = some '-' then integerBound + 1 else integerBound
    isWhole (unsigned cs) && runValue 10 (unsigned cs) < bound

/-- An exponent with its letter, or none. -/
def isExponent : List Char → Bool
  | [] => true
  | c :: cs => (c == 'e' || c == 'E') && isDigitRun 10 (unsigned cs)

/-- The value of an exponent. -/
def exponentValue (cs : List Char) : Int :=
  let n : Int := runValue 10 (unsigned (cs.drop 1))
  if (cs.drop 1).head? = some '-' then -n else n

/-- The spelling of a floating-point number.  A positive one has to be in range. -/
def isFloat (cs : List Char) : Bool :=
  let body := unsigned cs
  let whole := body.takeWhile fun c => isDigitIn 10 c || c == '_'
  let behind := body.drop whole.length
  let fraction :=
    if behind.head? = some '.' then
      (behind.drop 1).takeWhile fun c => isDigitIn 10 c || c == '_'
    else []
  let exponent := if behind.head? = some '.' then behind.drop (1 + fraction.length) else behind
  let digits := (whole ++ fraction).filter (· ≠ '_')
  let places := (fraction.filter (· ≠ '_')).length
  body == "inf".toList || body == "nan".toList ||
    (isWhole whole && !behind.isEmpty && (behind.head? != some '.' || isDigitRun 10 fraction) &&
      isExponent exponent &&
      (cs.head? == some '-' || belowDoubleBound digits (exponentValue exponent - places)))

/-! ### Dates and times -/

/-- Takes a number of exactly `count` digits, between two bounds. -/
def digits (count least most : Nat) : TomlStep Nat := fun cs =>
  let ds := leadingDigits 10 count cs
  let n := ofDigitValues 10 ds
  if ds.length = count ∧ least ≤ n ∧ n ≤ most then some (n, cs.drop count) else none

/-- The number of days of a month. -/
def daysOfMonth (year month : Nat) : Nat :=
  if month = 2 then
    if year % 4 = 0 ∧ (year % 100 ≠ 0 ∨ year % 400 = 0) then 29 else 28
  else if month = 4 ∨ month = 6 ∨ month = 9 ∨ month = 11 then 30
  else 31

/-- Takes a date. -/
def date : TomlStep Unit := do
  let year ← digits 4 0 9999
  take '-'
  let month ← digits 2 1 12
  take '-'
  let _ ← digits 2 1 (daysOfMonth year month)

/-- Takes a time of day. -/
def time : TomlStep Unit := do
  let _ ← digits 2 0 23
  take ':'
  let _ ← digits 2 0 59
  take ':'
  let _ ← digits 2 0 60
  if ← takeIf '.' then
    if (← span (isDigitIn 10)).isEmpty then failure

/-- Takes the offset of a time of day from universal time, if there is one. -/
def offset : TomlStep Unit := do
  if ← takeOne fun c => c == 'Z' || c == 'z' then return
  if ← takeOne fun c => c == '+' || c == '-' then
    let _ ← digits 2 0 23
    take ':'
    let _ ← digits 2 0 59

/-- Takes a date and the time of day behind it. -/
def dateTime : TomlStep Unit := do
  date
  if ← takeOne fun c => c == 'T' || c == 't' || c == ' ' then
    time
    offset
  else
    failure

/-- Whether a step takes a text as a whole. -/
def takesAll (step : TomlStep Unit) (cs : List Char) : Bool :=
  match step cs with
  | some ((), []) => true
  | _ => false

/-- The spelling of a date, a time of day or both. -/
def isMoment (cs : List Char) : Bool := takesAll date cs || takesAll time cs || takesAll dateTime cs

/-! ### Values that are single words -/

/-- The characters of words that are values. -/
def isWordChar (c : Char) : Bool := isBareKey c || c == '+' || c == '.' || c == ':'

/-- Takes a word.  One blank may stand between a date and a time of day. -/
def word : TomlStep (List Char) := fun cs =>
  let first := cs.takeWhile isWordChar
  let rest := cs.drop first.length
  match rest with
  | ' ' :: c :: behind =>
    if takesAll date first && isDigitIn 10 c then
      let second := (c :: behind).takeWhile isWordChar
      some (first ++ ' ' :: second, (c :: behind).drop second.length)
    else some (first, rest)
  | _ => some (first, rest)

/-- The value that is spelled as a word. -/
def ofWord? (cs : List Char) : Option TomlValue :=
  if cs = "true".toList then some (.flag true)
  else if cs = "false".toList then some (.flag false)
  else if isInteger cs || isFloat cs then some (.number (String.ofList cs))
  else if isMoment cs then some (.moment (String.ofList cs))
  else none

end TomlStep

end Idl
