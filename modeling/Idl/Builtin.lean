/-
Idl/Builtin.lean

The types that every schema knows by name.

They are no keywords: a builtin name may name a field or a method, and only where a type is
expected does it mean the type.
-/

namespace Idl

/-- The builtin types. -/
inductive Builtin where
  | any | bool | byte | bytes | string
  | int | int8 | int16 | int32 | int64
  | uint | uint8 | uint16 | uint32 | uint64
  | float32 | float64
  | map | vector | array
  deriving DecidableEq, Repr

namespace Builtin

/-- All builtin types. -/
def all : List Builtin :=
  [.any, .bool, .byte, .bytes, .string, .int, .int8, .int16, .int32, .int64,
   .uint, .uint8, .uint16, .uint32, .uint64, .float32, .float64, .map, .vector, .array]

/-- The name of the type. -/
def name : Builtin → String
  | .any => "any"
  | .bool => "bool"
  | .byte => "byte"
  | .bytes => "bytes"
  | .string => "string"
  | .int => "int"
  | .int8 => "int8"
  | .int16 => "int16"
  | .int32 => "int32"
  | .int64 => "int64"
  | .uint => "uint"
  | .uint8 => "uint8"
  | .uint16 => "uint16"
  | .uint32 => "uint32"
  | .uint64 => "uint64"
  | .float32 => "float32"
  | .float64 => "float64"
  | .map => "map"
  | .vector => "vector"
  | .array => "array"

/-- The type with the given name. -/
def ofName? (n : String) : Option Builtin := all.find? (·.name = n)

/-- Whole numbers; a byte is one. -/
def isInt : Builtin → Bool
  | .byte | .int | .int8 | .int16 | .int32 | .int64
  | .uint | .uint8 | .uint16 | .uint32 | .uint64 => true
  | _ => false

/-- Floating-point numbers. -/
def isFloat : Builtin → Bool
  | .float32 | .float64 => true
  | _ => false

/-- Numbers of either sort. -/
def isNumber (b : Builtin) : Bool := b.isInt || b.isFloat

/-- Types built from other types. -/
def isContainer : Builtin → Bool
  | .map | .vector | .array => true
  | _ => false

theorem ofName?_name (b : Builtin) : ofName? b.name = some b := by cases b <;> rfl

theorem name_of_ofName? {n : String} {b : Builtin} (h : ofName? n = some b) : b.name = n := by
  simpa using List.find?_some h

end Builtin

end Idl
