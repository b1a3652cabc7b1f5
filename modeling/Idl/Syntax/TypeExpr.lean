/-
Idl/Syntax/TypeExpr.lean

The grammar of types and of method signatures.

    TypeName  = Ident "." Ident
              | "map" "<" TypeName "," TypeName ">"
              | "array" "<" TypeName "," ( INT | Ident ) ">"
              | "vector" "<" TypeName ">"
              | Ident
    Signature = "(" { TypeName [ Ident ] [ "," ] } ")" [ TypeName ]

Containers nest up to a fixed depth, which is also what the recursion is on: each container
spends one of the levels that are left.
-/
import Idl.Syntax.State

namespace Idl

/-- How deep containers may nest. -/
def maxTypeNesting : Nat := 64

namespace Parse

/-- Takes the size of an array: a number or the name of a constant. -/
def arraySize : Parse Value := do
  match ← kind with
  | .int => return .lit (← lit .int)
  | .ident => return .ident (← ident)
  | _ =>
    let p ← pos
    reportExpected "array size"
    return .bad p

/-- Takes a type that nests at most `levels` deep. -/
def typeNested : Nat → Parse TypeExpr
  | 0 => do
    let t := (← current).token
    if t.kind = .ident then
      report (.error "type nesting too deep" t.span)
    else
      reportExpected "type"
    return .bad t.pos
  | levels + 1 => do
    if !(← check .ident) then
      let p ← pos
      reportExpected "type"
      return .bad p
    let name ← ident
    if ← check (.punct .period) then
      let _ ← advance
      return .named (some name) (← ident)
    match Builtin.ofName? name.name with
    | none => return .named none name
    | some .map =>
      let _ ← expect (.punct .less)
      let key ← typeNested levels
      let _ ← expect (.punct .comma)
      let value ← typeNested levels
      let closing ← expect (.punct .greater)
      return .map name.pos key value closing
    | some .array =>
      let _ ← expect (.punct .less)
      let elem ← typeNested levels
      let _ ← expect (.punct .comma)
      let size ← arraySize
      let closing ← expect (.punct .greater)
      return .array name.pos elem size closing
    | some .vector =>
      let _ ← expect (.punct .less)
      let elem ← typeNested levels
      let closing ← expect (.punct .greater)
      return .vector name.pos elem closing
    | some builtin => return .basic name builtin

/-- Takes a type. -/
def typeExpr : Parse TypeExpr := typeNested maxTypeNesting

/-! ### Signatures -/

/-- The parameters so far, and the end of the list if that is not at a parenthesis. -/
structure ParamsSoFar where
  params : Array Param := #[]
  broken : Option Pos := none

/-- Takes one parameter; a token that can follow none breaks the list off. -/
def param (sofar : ParamsSoFar) : Parse (Option ParamsSoFar) := do
  if sofar.broken.isSome || (← check (.punct .rparen)) || (← atEnd) then
    return none
  let type ← typeExpr
  match ← kind with
  | .ident =>
    let name ← ident
    if ← check (.punct .comma) then
      let _ ← advance
    return some { params := sofar.params.push ⟨type, some name⟩ }
  | .punct .comma =>
    let _ ← advance
    return some { params := sofar.params.push ⟨type, none⟩ }
  | .punct .rparen => return some { params := sofar.params.push ⟨type, none⟩ }
  | _ =>
    let t := (← current).token
    report (.error ("unexpected token " ++ t.display ++ " after type") t.span)
    return some { params := sofar.params.push ⟨type, none⟩, broken := some t.pos }

/-- The parameters of a method and the positions of their parentheses. -/
structure ParamList where
  opening : Pos
  params : List Param
  closing : Pos

/-- Takes the parameters of a method, from parenthesis to parenthesis. -/
def paramList : Parse ParamList := do
  let opening ← expect (.punct .lparen)
  let sofar ← iterate param {}
  match sofar.broken with
  | some p => return ⟨opening, sofar.params.toList, p⟩
  | none => return ⟨opening, sofar.params.toList, ← expect (.punct .rparen)⟩

/-- Takes the result of a method, if there is one.  It stands on the line of the opening
parenthesis and does not start the next method. -/
def methodResult (openLine : Nat) : Parse (Option TypeExpr) := do
  if (← check .ident) && (← line) == openLine && (← nextKind) != .punct .lparen then
    return some (← typeExpr)
  else
    return none

/-- Takes the parameters of a method and its result. -/
def signature : Parse Signature := do
  let openLine ← line
  let list ← paramList
  let result ← methodResult openLine
  return ⟨list.opening, list.params, list.closing, result⟩

end Parse

end Idl
