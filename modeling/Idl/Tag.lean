/-
Idl/Tag.lean

Tags: text on fields and beans that carries named values.

By convention a tag is a list of pairs `key:"value"` with blanks between them.  `Tag.pairs` reads
them and stops where the text no longer follows the convention; a value that is no well-formed
literal is passed over.  Changing a tag writes all pairs anew.
-/
import Idl.Text.Quoted

namespace Idl

/-- The text of a tag. -/
structure Tag where
  text : String := ""
  deriving DecidableEq, Repr, Inhabited

/-! ### Reading pairs -/

/-- The blanks that may stand around keys and colons. -/
def isTagBlank (c : Char) : Bool := c == ' ' || c == '\t'

/-- The characters of keys. -/
def isTagKeyChar (c : Char) : Bool :=
  decide (0x20 < c.toNat) && c != ':' && c != '"' && c.toNat != 0x7f

/-- The number of characters up to the quote that closes a value, the quote included. -/
def closingQuote? : List Char → Option Nat
  | [] => none
  | '"' :: _ => some 1
  | '\\' :: [] => none
  | '\\' :: _ :: cs => (closingQuote? cs).map (· + 2)
  | _ :: cs => (closingQuote? cs).map (· + 1)

/-- A key and a quoted value at the head of a text, and what follows them. -/
structure RawPair where
  key : List Char
  value : List Char
  rest : List Char

/-- Reads a key, a colon and a quoted value. -/
def RawPair.read? (cs : List Char) : Option RawPair :=
  let cs := cs.dropWhile isTagBlank
  let key := cs.takeWhile isTagKeyChar
  let behind := cs.dropWhile isTagKeyChar
  if key.isEmpty || behind.length ≤ 1 then none
  else
    match behind.dropWhile isTagBlank with
    | ':' :: cs =>
      match cs.dropWhile isTagBlank with
      | '"' :: cs => (closingQuote? cs).map fun n => ⟨key, '"' :: cs.take n, cs.drop n⟩
      | _ => none
    | _ => none

theorem length_dropWhile_le (p : Char → Bool) (cs : List Char) :
    (cs.dropWhile p).length ≤ cs.length := by
  induction cs with
  | nil => simp
  | cons c cs ih => simp only [List.dropWhile_cons]; split <;> simp; omega

/-- A pair takes text away. -/
theorem RawPair.length_rest_lt {cs : List Char} {p : RawPair} (h : read? cs = some p) :
    p.rest.length < cs.length := by
  have h1 := length_dropWhile_le isTagBlank cs
  simp only [read?] at h
  have h2 := length_dropWhile_le isTagKeyChar (cs.dropWhile isTagBlank)
  have h3 := length_dropWhile_le isTagBlank
    ((cs.dropWhile isTagBlank).dropWhile isTagKeyChar)
  split at h
  · simp at h
  · split at h
    · rename_i ds hd
      have h4 := length_dropWhile_le isTagBlank ds
      rw [hd] at h3
      split at h
      · rename_i es he
        rw [he] at h4
        obtain ⟨n, -, rfl⟩ := Option.map_eq_some_iff.1 h
        simp only [List.length_cons, List.length_drop] at h3 h4 ⊢
        omega
      · simp at h
    · simp at h

/-- The pairs in a text, as far as it follows the convention. -/
def tagPairs (cs : List Char) : List (String × String) :=
  match h : RawPair.read? cs with
  | none => []
  | some p =>
    have := RawPair.length_rest_lt h
    match unquote? (String.ofList p.value) with
    | some value => (String.ofList p.key, value) :: tagPairs p.rest
    | none => tagPairs p.rest
termination_by cs.length

/-! ### Writing pairs -/

/-- The text of one pair. -/
def tagPairText (p : String × String) : String := p.1 ++ ":" ++ quote p.2

/-- A tag that holds the given pairs. -/
def Tag.ofPairs (ps : List (String × String)) : Tag := ⟨" ".intercalate (ps.map tagPairText)⟩

namespace Tag

/-! ### Looking up and changing -/

/-- The pairs of a tag. -/
def pairs (t : Tag) : List (String × String) := tagPairs t.text.toList

/-- Whether the tag has no text. -/
def isEmpty (t : Tag) : Bool := t.text.isEmpty

/-- The value of the first pair with a key. -/
def lookup? (t : Tag) (key : String) : Option String :=
  if key.isEmpty then none else (t.pairs.find? (·.1 = key)).map (·.2)

/-- The value of the first pair with a key, and the empty text if there is none. -/
def get (t : Tag) (key : String) : String := (t.lookup? key).getD ""

/-- Whether there is a pair with a key. -/
def hasKey (t : Tag) (key : String) : Bool := (t.lookup? key).isSome

/-- Replaces the value of the first pair with a key, or adds a pair at the end. -/
def setPair (key value : String) : List (String × String) → List (String × String)
  | [] => [(key, value)]
  | p :: ps => if p.1 = key then (key, value) :: ps else p :: setPair key value ps

/-- Gives a key a value. -/
def set (t : Tag) (key value : String) : Tag := ofPairs (setPair key value t.pairs)

/-- Removes the first pair with a key. -/
def delete (t : Tag) (key : String) : Tag := ofPairs (t.pairs.eraseP (·.1 = key))

end Tag

end Idl
