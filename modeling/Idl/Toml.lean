/-
Idl/Toml.lean

The values of TOML, and the rules by which keys and headers build up a table.

A table may be spread over a document, but what has once been completed stays as it is: a key
has one value, a header opens a table once, and dotted keys add only to tables that dotted keys
made.  Each table remembers how it came about, and that decides what may still be added to it.
-/

namespace Idl

/-- How a table came about. -/
inductive TomlOrigin where
  /-- It is written in braces. -/
  | braces
  /-- A header opened it. -/
  | header
  /-- A dotted key leads through it. -/
  | dottedKey
  /-- The header of a table below it leads through it. -/
  | implied
  deriving DecidableEq, Repr

/-- A value.  Numbers and dates are kept as they are spelled. -/
inductive TomlValue where
  | text (s : String)
  | flag (b : Bool)
  | number (spelling : String)
  | moment (spelling : String)
  | array (items : List TomlValue)
  | table (origin : TomlOrigin) (entries : List (String × TomlValue))
  /-- The tables that headers in double brackets opened, the last of them first. -/
  | tables (entries : List (List (String × TomlValue)))

/-- A key, which may be dotted: the keys of the tables that it leads through, and its own. -/
structure TomlKey where
  parents : List String
  name : String

/-- The entries of a table. -/
abbrev TomlTable := List (String × TomlValue)

namespace TomlTable

/-- Puts a value at a key, in place of the one that may be there. -/
def set (key : String) (v : TomlValue) : TomlTable → TomlTable
  | [] => [(key, v)]
  | (k, w) :: t => if k = key then (k, v) :: t else (k, w) :: set key v t

/-- Gives a key its value, which it may not have yet. -/
def define? (key : String) (v : TomlValue) (t : TomlTable) : Option TomlTable :=
  match t.lookup key with
  | none => some (t.set key v)
  | some _ => none

/-! ### Through tables -/

/-- Changes the table that the header path `path` leads to.  Tables that are not there are
implied, and of the tables that share a header the last one is meant. -/
def alongHeader? (change : TomlTable → Option TomlTable) :
    List String → TomlTable → Option TomlTable
  | [], t => change t
  | k :: ks, t =>
    match t.lookup k with
    | none => (alongHeader? change ks []).map fun u => t.set k (.table .implied u)
    | some (.table .braces _) => none
    | some (.table origin u) =>
      (alongHeader? change ks u).map fun u => t.set k (.table origin u)
    | some (.tables (u :: us)) =>
      (alongHeader? change ks u).map fun u => t.set k (.tables (u :: us))
    | some _ => none

/-- Changes the table that the first parts of a dotted key lead to. -/
def alongKey? (change : TomlTable → Option TomlTable) :
    List String → TomlTable → Option TomlTable
  | [], t => change t
  | k :: ks, t =>
    match t.lookup k with
    | none => (alongKey? change ks []).map fun u => t.set k (.table .dottedKey u)
    | some (.table .dottedKey u) =>
      (alongKey? change ks u).map fun u => t.set k (.table .dottedKey u)
    | some _ => none

/-! ### What a document adds -/

/-- Gives a dotted key its value. -/
def defineAt? (k : TomlKey) (v : TomlValue) : TomlTable → Option TomlTable :=
  alongKey? (define? k.name v) k.parents

/-- Opens a table by its header. -/
def openTable? (k : TomlKey) : TomlTable → Option TomlTable :=
  alongHeader? (fun t =>
    match t.lookup k.name with
    | none => some (t.set k.name (.table .header []))
    | some (.table .implied u) => some (t.set k.name (.table .header u))
    | some _ => none) k.parents

/-- Opens one more of the tables that share a header. -/
def openItem? (k : TomlKey) : TomlTable → Option TomlTable :=
  alongHeader? (fun t =>
    match t.lookup k.name with
    | none => some (t.set k.name (.tables [[]]))
    | some (.tables us) => some (t.set k.name (.tables ([] :: us)))
    | some _ => none) k.parents

end TomlTable

end Idl
