/-
Idl/Toml/Read.lean

Reading a TOML document as the table that it describes.

Values may nest only so deep, and the reader of a value is given the levels that are left.  The
lines of a document are read in order: a key adds to the table whose header came last.
-/
import Idl.Toml.Scan

namespace Idl

namespace TomlStep

/-! ### Values -/

/-- Takes the items of an array behind its opening bracket, the last of them first. -/
def items (item : TomlStep TomlValue) : TomlStep (List TomlValue) :=
  iterate (fun vs => do
    space
    if (← peek) = some ']' then
      return (vs, false)
    let v ← item
    space
    return (v :: vs, ← takeIf ',')) []

/-- Takes an array. -/
def array (item : TomlStep TomlValue) : TomlStep TomlValue := do
  take '['
  let vs ← items item
  space
  take ']'
  return .array vs.reverse

/-- Takes a key and its value, and adds them to a table. -/
def entry (v : TomlStep TomlValue) (t : TomlTable) (add : TomlKey → TomlValue → TomlTable →
    Option TomlTable) : TomlStep TomlTable := do
  let k ← key
  take '='
  blanks
  let v ← v
  blanks
  add k v t

/-- Takes a table in braces, all on one line. -/
def braces (v : TomlStep TomlValue) : TomlStep TomlValue := do
  take (Char.ofNat 0x7b)
  blanks
  if ← takeIf (Char.ofNat 0x7d) then
    return .table .braces []
  let t ← iterate (fun t => do
    let t ← entry v t TomlTable.defineAt?
    return (t, ← takeIf ',')) []
  take (Char.ofNat 0x7d)
  return .table .braces t

/-- Takes a value that holds no others. -/
def simpleValue : TomlStep TomlValue := do
  match ← peek with
  | some '"' => return .text (← string '"')
  | some '\'' => return .text (← string '\'')
  | _ =>
    let cs ← word
    ofWord? cs

/-- Takes a value that nests at most `levels` deep. -/
def value : (levels : Nat) → TomlStep TomlValue
  | 0 => simpleValue
  | levels + 1 => do
    let c ← peek
    if c = some '[' then array (value levels)
    else if c = some (Char.ofNat 0x7b) then braces (value levels)
    else simpleValue

end TomlStep

/-! ### Documents -/

/-- A part of a document: the table that it describes so far, and the header that came last. -/
structure TomlDocument where
  root : TomlTable := []
  header : List String := []

namespace TomlDocument

open TomlStep

/-- Adds an entry to the table whose header came last. -/
def define? (d : TomlDocument) (k : TomlKey) (v : TomlValue) : Option TomlDocument :=
  (TomlTable.alongHeader? (TomlTable.defineAt? k v) d.header d.root).map fun t =>
    { d with root := t }

/-- Opens a table, or one more of the tables that share a header. -/
def openHeader? (d : TomlDocument) (k : TomlKey) (shared : Bool) : Option TomlDocument :=
  let opened := if shared then TomlTable.openItem? k d.root else TomlTable.openTable? k d.root
  opened.map fun t => ⟨t, k.parents ++ [k.name]⟩

/-- Takes a header. -/
def takeHeader (d : TomlDocument) : TomlStep TomlDocument := do
  take '['
  let shared ← takeIf '['
  let k ← key
  take ']'
  if shared then take ']'
  openHeader? d k shared

/-- Takes one line of a document, which may span several if its value does. -/
def takeLine (d : TomlDocument) : TomlStep (TomlDocument × Bool) := do
  blanks
  match ← peek with
  | none => return (d, false)
  | some '#' =>
    endOfLine
    return (d, true)
  | some '\n' =>
    lineBreak
    return (d, true)
  | some '\r' =>
    lineBreak
    return (d, true)
  | some '[' =>
    let d ← takeHeader d
    endOfLine
    return (d, true)
  | some _ =>
    let k ← key
    take '='
    blanks
    let v ← value levelBound
    endOfLine
    return (← d.define? k v, true)

/-- The table that a document describes.  A mark of the byte order may precede it. -/
def parse? (text : String) : Option TomlTable :=
  let cs := text.toList
  let cs := if cs.head? = some (Char.ofNat 0xfeff) then cs.tail else cs
  (iterate takeLine {} cs).map fun (d, _) => d.root

end TomlDocument

end Idl
