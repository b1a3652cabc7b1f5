/-
Idl/Json/Record.lean

Reading records and other typed values out of JSON.

A record is written as an object; members that the record does not know are passed over, and a
known one may not be repeated.  It may also be written as an array of its fields in order, of
which the last ones may be missing.  Arrays and objects spend levels of nesting, of which a
reader has only so many.
-/
import Idl.Json.Number

namespace Idl

namespace Json

/-! ### Numbers -/

/-- The natural number that a number is, if it is spelled with digits alone. -/
def nat? : Json → Option Nat
  | .number spelling =>
    if spelling.toList.all (isDigitIn 10) then natOfDigits? 10 spelling.toList else none
  | _ => none

/-- A natural number below `bound`. -/
def natBelow? (bound : Nat) (j : Json) : Option Nat := j.nat?.filter (· < bound)

/-! ### Values that are read as a whole -/

mutual

/-- Whether a value nests at most `levels` deep and holds neither strings that are no text nor
numbers out of range. -/
def fits (levels : Nat) : Json → Bool
  | .null => true
  | .bool _ => true
  | .number spelling => numberFits spelling
  | .text t => t.isSome
  | .array xs => levels != 0 && fitsItems (levels - 1) xs
  | .object ms => levels != 0 && fitsMembers (levels - 1) ms

/-- The same, for all items of an array. -/
def fitsItems (levels : Nat) : List Json → Bool
  | [] => true
  | x :: xs => x.fits levels && fitsItems levels xs

/-- The same, for all members of an object. -/
def fitsMembers (levels : Nat) : List (JsonText × Json) → Bool
  | [] => true
  | (k, v) :: ms => k.isSome && v.fits levels && fitsMembers levels ms

end

/-! ### Simple values -/

/-- A text. -/
def string? : Json → Option String
  | .text t => t
  | _ => none

/-- The items of an array, and the levels that are left inside it. -/
def items? : Nat → Json → Option (Nat × List Json)
  | levels + 1, .array xs => some (levels, xs)
  | _, _ => none

/-- An array of texts. -/
def strings? (levels : Nat) (j : Json) : Option (List String) :=
  (j.items? levels).bind fun (_, xs) => xs.mapM string?

/-- An array of values that `read` reads with the levels that are left. -/
def list? {α : Type} (read : Nat → Json → Option α) (levels : Nat) (j : Json) :
    Option (List α) :=
  (j.items? levels).bind fun (levels, xs) => xs.mapM (read levels)

/-- The members of an object, whose keys have to be texts, and the levels left inside it. -/
def members? : Nat → Json → Option (Nat × List (String × Json))
  | levels + 1, .object ms =>
    (ms.mapM fun ((k, v) : JsonText × Json) => k.map (·, v)).map (levels, ·)
  | _, _ => none

end Json

/-! ### Records -/

/-- The fields of a record that are there. -/
structure JsonRecord where
  /-- Whether the record is written as an array. -/
  positional : Bool
  fields : List (String × Json)

namespace JsonRecord

/-- Reads a record with the given fields. -/
def read? (names : List String) (levels : Nat) (j : Json) : Option (Nat × JsonRecord) :=
  match j.items? levels with
  | some (levels, xs) =>
    if xs.length ≤ names.length then some (levels, ⟨true, names.zip xs⟩) else none
  | none =>
    (j.members? levels).bind fun (levels, ms) =>
      let known := ms.filter fun m => names.contains m.1
      if (known.map (·.1)).Nodup then some (levels, ⟨false, known⟩) else none

/-- The value of a field. -/
def find? (r : JsonRecord) (name : String) : Option Json := r.fields.lookup name

/-- A field that has to be there. -/
def required {α : Type} (r : JsonRecord) (name : String) (read : Json → Option α) : Option α :=
  (r.find? name).bind read

/-- A field that is `default` if it is not there. -/
def withDefault {α : Type} (r : JsonRecord) (name : String) (default : α)
    (read : Json → Option α) : Option α :=
  match r.find? name with
  | none => some default
  | some j => read j

/-- A field that may be missing or null. -/
def optional {α : Type} (r : JsonRecord) (name : String) (read : Json → Option α) :
    Option (Option α) :=
  match r.find? name with
  | none => some none
  | some .null => some none
  | some j => (read j).map some

/-- A text that is empty if it is not there. -/
def textOrEmpty (r : JsonRecord) (name : String) : Option String :=
  r.withDefault name "" Json.string?

end JsonRecord

end Idl
