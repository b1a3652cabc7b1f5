/-
Idl/Json/Read.lean

Reading JSON.

The text is cut into tokens, and the tokens steer a machine that keeps the arrays and objects it
is inside of on a stack.  Every token is looked at once, however deep values nest.  The grammar
is that of the standard, without additions: no comments, no trailing commas, no leading zeros.
-/
import Idl.Json

namespace Idl

/-! ### Tokens -/

/-- The tokens of JSON. -/
inductive JsonToken where
  | openArray | closeArray | openObject | closeObject | comma | colon
  | null
  | bool (b : Bool)
  | number (spelling : String)
  | text (t : JsonText)
  deriving DecidableEq, Repr

namespace JsonToken

/-- The characters between tokens. -/
def isBlank (c : Char) : Bool := c == ' ' || c == '\n' || c == '\t' || c == '\r'

/-- An escape without its backslash: how many characters it takes, and the character that it
stands for, unless it names half of a surrogate pair. -/
structure Escape where
  width : Nat
  char : Option Char

/-- The number that four hexadecimal digits at the head of a text write. -/
def fourHexDigits? (cs : List Char) : Option Nat :=
  let digits := leadingDigits 16 4 cs
  if digits.length = 4 then some (ofDigitValues 16 digits) else none

/-- The second half of a surrogate pair, written as an escape at the head of a text. -/
def lowSurrogate? : List Char → Option Nat
  | '\\' :: 'u' :: cs => (fourHexDigits? cs).filter fun n => 0xdc00 ≤ n && n < 0xe000
  | _ => none

/-- Reads an escape by number, given the text behind its `u`. -/
def Escape.readNumber? (cs : List Char) : Option Escape :=
  (fourHexDigits? cs).map fun n =>
    if 0xd800 ≤ n && n < 0xdc00 then
      match lowSurrogate? (cs.drop 4) with
      | some low => ⟨11, some (Char.ofNat (0x10000 + (n - 0xd800) * 0x400 + (low - 0xdc00)))⟩
      | none => ⟨5, none⟩
    else if 0xdc00 ≤ n && n < 0xe000 then ⟨5, none⟩
    else ⟨5, some (Char.ofNat n)⟩

/-- Reads the escape at the head of the text behind a backslash. -/
def Escape.read? : List Char → Option Escape
  | '"' :: _ => some ⟨1, some '"'⟩
  | '\\' :: _ => some ⟨1, some '\\'⟩
  | '/' :: _ => some ⟨1, some '/'⟩
  | 'b' :: _ => some ⟨1, some (Char.ofNat 0x08)⟩
  | 'f' :: _ => some ⟨1, some (Char.ofNat 0x0c)⟩
  | 'n' :: _ => some ⟨1, some '\n'⟩
  | 'r' :: _ => some ⟨1, some '\r'⟩
  | 't' :: _ => some ⟨1, some '\t'⟩
  | 'u' :: cs => readNumber? cs
  | _ => none

/-- The rest of a string: its characters, unless they form no text, and how many characters it
takes with its closing quote. -/
structure StringRest where
  chars : Option (List Char)
  width : Nat

/-- A string rest behind further characters. -/
def StringRest.prepend (s : StringRest) (c : Option Char) (width : Nat) : StringRest :=
  ⟨c.bind fun c => s.chars.map (c :: ·), width + s.width⟩

/-- Reads a string behind its opening quote. -/
def stringRest? : List Char → Option StringRest
  | [] => none
  | c :: cs =>
    if c = '"' then some ⟨some [], 1⟩
    else if c.toNat < 0x20 then none
    else if c = '\\' then
      match Escape.read? cs with
      | none => none
      | some e => (stringRest? (cs.drop e.width)).map (·.prepend e.char (1 + e.width))
    else (stringRest? cs).map (·.prepend (some c) 1)
termination_by cs => cs.length
decreasing_by all_goals simp; try omega

/-- An ASCII digit. -/
def isDigit (c : Char) : Bool := isDigitIn 10 c

/-- The length of the digits at the head of a text, of which there have to be some. -/
def digitsLength? (cs : List Char) : Option Nat :=
  let n := (cs.takeWhile isDigit).length
  if n = 0 then none else some n

/-- The length of the whole part of a number: a zero, or digits that do not start with one. -/
def wholeLength? (cs : List Char) : Option Nat :=
  if cs.head? = some '0' then some 1 else digitsLength? cs

/-- The length of the fraction at the head of a text, 0 if there is none. -/
def fractionLength? : List Char → Option Nat
  | '.' :: cs => (digitsLength? cs).map (· + 1)
  | _ => some 0

/-- The length of the exponent at the head of a text, 0 if there is none. -/
def exponentLength? : List Char → Option Nat
  | [] => some 0
  | e :: cs =>
    if e = 'e' ∨ e = 'E' then
      match cs with
      | '+' :: ds => (digitsLength? ds).map (· + 2)
      | '-' :: ds => (digitsLength? ds).map (· + 2)
      | ds => (digitsLength? ds).map (· + 1)
    else some 0

/-- The length of the number at the head of a text. -/
def numberLength? (cs : List Char) : Option Nat := do
  let sign := if cs.head? = some '-' then 1 else 0
  let whole ← wholeLength? (cs.drop sign)
  let fraction ← fractionLength? (cs.drop (sign + whole))
  let exponent ← exponentLength? (cs.drop (sign + whole + fraction))
  return sign + whole + fraction + exponent

/-- A word, if it is at the head of a text. -/
def word? (word : String) (t : JsonToken) (cs : List Char) : Option (JsonToken × Nat) :=
  if word.toList.isPrefixOf cs then some (t, word.length) else none

/-- The token that starts with `c`, and how many characters of `cs` belong to it. -/
def scan? (c : Char) (cs : List Char) : Option (JsonToken × Nat) :=
  if c = '[' then some (.openArray, 0)
  else if c = ']' then some (.closeArray, 0)
  else if c = Char.ofNat 0x7b then some (.openObject, 0)
  else if c = Char.ofNat 0x7d then some (.closeObject, 0)
  else if c = ',' then some (.comma, 0)
  else if c = ':' then some (.colon, 0)
  else if c = '"' then
    (stringRest? cs).map fun s => (.text (s.chars.map String.ofList), s.width)
  else if c = 'n' then word? "ull" .null cs
  else if c = 't' then word? "rue" (.bool true) cs
  else if c = 'f' then word? "alse" (.bool false) cs
  else (numberLength? (c :: cs)).map fun n =>
    (.number (String.ofList ((c :: cs).take n)), n - 1)

/-- Cuts a text into tokens. -/
def ofChars? : List Char → Option (List JsonToken)
  | [] => some []
  | c :: cs =>
    if isBlank c then ofChars? cs
    else
      match scan? c cs with
      | none => none
      | some (t, n) => (ofChars? (cs.drop n)).map (t :: ·)
termination_by cs => cs.length
decreasing_by all_goals simp; try omega

end JsonToken

/-! ### The machine -/

/-- An array or object that is not complete, with its last item or member first. -/
inductive JsonFrame where
  | array (items : List Json)
  | object (members : List (JsonText × Json))
  /-- An object whose next member has the given key. -/
  | member (members : List (JsonText × Json)) (key : JsonText)

/-- What may come next. -/
inductive JsonExpects where
  | value | itemOrClose | keyOrClose | key | colon | commaOrClose

/-- The state of the machine: the frames from the innermost outwards, or the complete value. -/
inductive JsonReader where
  | reading (frames : List JsonFrame) (expects : JsonExpects)
  | finished (j : Json)

namespace JsonReader

/-- Puts a complete value into the innermost frame. -/
def put (j : Json) : List JsonFrame → Option JsonReader
  | [] => some (.finished j)
  | .array items :: fs => some (.reading (.array (j :: items) :: fs) .commaOrClose)
  | .member ms key :: fs => some (.reading (.object ((key, j) :: ms) :: fs) .commaOrClose)
  | .object _ :: _ => none

/-- A token where a value is expected. -/
def startValue (fs : List JsonFrame) : JsonToken → Option JsonReader
  | .openArray => some (.reading (.array [] :: fs) .itemOrClose)
  | .openObject => some (.reading (.object [] :: fs) .keyOrClose)
  | .null => put .null fs
  | .bool b => put (.bool b) fs
  | .number spelling => put (.number spelling) fs
  | .text t => put (.text t) fs
  | _ => none

/-- Completes the innermost frame. -/
def close : JsonToken → List JsonFrame → Option JsonReader
  | .closeArray, .array items :: fs => put (.array items.reverse) fs
  | .closeObject, .object ms :: fs => put (.object ms.reverse) fs
  | _, _ => none

/-- A token where a key is expected. -/
def startMember : JsonToken → List JsonFrame → Option JsonReader
  | .text key, .object ms :: fs => some (.reading (.member ms key :: fs) .colon)
  | _, _ => none

/-- What the machine does on a token. -/
def step : JsonReader → JsonToken → Option JsonReader
  | .finished _, _ => none
  | .reading fs .value, t => startValue fs t
  | .reading fs .itemOrClose, .closeArray => close .closeArray fs
  | .reading fs .itemOrClose, t => startValue fs t
  | .reading fs .keyOrClose, .closeObject => close .closeObject fs
  | .reading fs .keyOrClose, t => startMember t fs
  | .reading fs .key, t => startMember t fs
  | .reading fs .colon, .colon => some (.reading fs .value)
  | .reading _ .colon, _ => none
  | .reading (.array items :: fs) .commaOrClose, .comma =>
    some (.reading (.array items :: fs) .value)
  | .reading (.object ms :: fs) .commaOrClose, .comma =>
    some (.reading (.object ms :: fs) .key)
  | .reading fs .commaOrClose, t => close t fs

/-- The complete value, once there is one. -/
def result? : JsonReader → Option Json
  | .finished j => some j
  | .reading _ _ => none

end JsonReader

namespace Json

/-- Reads a value from its tokens. -/
def ofTokens? (ts : List JsonToken) : Option Json :=
  (ts.foldlM JsonReader.step (.reading [] .value)).bind JsonReader.result?

/-- Reads a value. -/
def parse? (text : String) : Option Json := (JsonToken.ofChars? text.toList).bind ofTokens?

end Json

end Idl
