/-
Idl/Json.lean

JSON values and how they are written.

Numbers are kept as they are spelled, and the members of an object in their order, with
repetitions.  A string need not be a text, since its escapes can name half of a surrogate pair;
such a string has the value `none`.  `Json.pretty` writes a value over several lines, two
blanks a level, with the empty array and the empty object on one line.
-/
import Idl.Text.Digits

namespace Idl

/-- The value of a JSON string: a text, or `none` if its escapes form none. -/
abbrev JsonText := Option String

/-- A JSON value. -/
inductive Json where
  | null
  | bool (b : Bool)
  | number (spelling : String)
  | text (t : JsonText)
  | array (items : List Json)
  | object (members : List (JsonText × Json))
  deriving Inhabited

namespace Json

/-- A string. -/
def ofString (s : String) : Json := .text (some s)

/-- A natural number. -/
def ofNat (n : Nat) : Json := .number (toString n)

/-- An array of strings. -/
def ofStrings (ss : List String) : Json := .array (ss.map ofString)

/-- An object. -/
def ofFields (fields : List (String × Json)) : Json :=
  .object (fields.map fun f => (some f.1, f.2))

/-! ### Strings -/

/-- `c` as it stands in a JSON string. -/
def escapedChar (c : Char) : List Char :=
  if c = '"' then ['\\', '"']
  else if c = '\\' then ['\\', '\\']
  else if c = Char.ofNat 0x08 then ['\\', 'b']
  else if c = Char.ofNat 0x0c then ['\\', 'f']
  else if c = '\n' then ['\\', 'n']
  else if c = '\r' then ['\\', 'r']
  else if c = '\t' then ['\\', 't']
  else if c.toNat < 0x20 then '\\' :: 'u' :: hexPadded 4 c.toNat
  else [c]

/-- A string between its quotes.  One that is no text is written as half of a surrogate pair. -/
def textChars : JsonText → List Char
  | some s => '"' :: s.toList.flatMap escapedChar ++ ['"']
  | none => "\"\\ud800\"".toList

/-! ### Layout -/

/-- A line break, and the blanks at the start of a line `depth` levels deep. -/
def lineBreak (depth : Nat) : List Char := '\n' :: List.replicate (2 * depth) ' '

mutual

/-- A value whose first line starts `depth` levels deep. -/
def prettyChars (depth : Nat) : Json → List Char
  | .null => "null".toList
  | .bool true => "true".toList
  | .bool false => "false".toList
  | .number spelling => spelling.toList
  | .text t => textChars t
  | .array [] => ['[', ']']
  | .array (x :: xs) =>
    '[' :: lineBreak (depth + 1) ++ prettyChars (depth + 1) x ++ prettyItems (depth + 1) xs ++
      lineBreak depth ++ [']']
  | .object [] => [Char.ofNat 0x7b, Char.ofNat 0x7d]
  | .object ((k, v) :: ms) =>
    Char.ofNat 0x7b :: lineBreak (depth + 1) ++ textChars k ++ [':', ' '] ++
      prettyChars (depth + 1) v ++ prettyMembers (depth + 1) ms ++ lineBreak depth ++
      [Char.ofNat 0x7d]

/-- The items of an array behind the first. -/
def prettyItems (depth : Nat) : List Json → List Char
  | [] => []
  | x :: xs => ',' :: lineBreak depth ++ prettyChars depth x ++ prettyItems depth xs

/-- The members of an object behind the first. -/
def prettyMembers (depth : Nat) : List (JsonText × Json) → List Char
  | [] => []
  | (k, v) :: ms =>
    ',' :: lineBreak depth ++ textChars k ++ [':', ' '] ++ prettyChars depth v ++
      prettyMembers depth ms

end

/-- A value over several lines. -/
def pretty (j : Json) : String := String.ofList (j.prettyChars 0)

/-! ### Nesting -/

mutual

/-- How deep arrays and objects nest in a value. -/
def depth : Json → Nat
  | .array xs => depthItems xs + 1
  | .object ms => depthMembers ms + 1
  | _ => 0

/-- How deep arrays and objects nest in the items of an array. -/
def depthItems : List Json → Nat
  | [] => 0
  | x :: xs => max x.depth (depthItems xs)

/-- How deep arrays and objects nest in the members of an object. -/
def depthMembers : List (JsonText × Json) → Nat
  | [] => 0
  | (_, v) :: ms => max v.depth (depthMembers ms)

end

end Json

end Idl
