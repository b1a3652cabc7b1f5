/-
Idl/Syntax/Binding.lean

Declaring names and referring to them while a file is parsed.

Every declared name gets an object, also a blank one, but only the first object of a name enters
the scope; a second one is reported.  A name that is used before it is declared waits among the
pending ones, and a qualified name waits for the other packages.
-/
import Idl.Syntax.State

namespace Idl

/-- The message for a name that is declared a second time. -/
def redeclaredMessage (name : String) (previous : Option Position) : String :=
  name ++ " redeclared in this block" ++
    match previous with
    | some p => "\n\tprevious declaration at " ++ p.text
    | none => ""

namespace Parse

/-- Records what an identifier stands for. -/
def bind (i : Ident) (object : ObjectId) : Parse Unit := fun s =>
  ((), { s with resolutions := s.resolutions.set i.id object })

/-- Declares a name in a scope. -/
def declare (i : Ident) (kind : ObjectKind) (origin : Origin) (data : Option Int)
    (scope : ScopeId) : Parse Unit := do
  let (object, symbols) :=
    (← get).symbols.newObject ⟨kind, i.name, origin, i.pos, data⟩
  modify fun s => { s with symbols := symbols }
  bind i object
  if i.isBlank then
    return ()
  let (existing, symbols) := symbols.insert scope object
  modify fun s => { s with symbols := symbols }
  match existing with
  | none => return ()
  | some existing =>
    let file := (← get).file
    let previous := symbols.posOf existing
    let place := if previous.isValid then some (file.position previous) else none
    report (.error (redeclaredMessage i.name place) i.span)

/-- Resolves a name in the scope of the file, or lets it wait. -/
def resolveIdent (i : Ident) : Parse Unit := do
  if i.isBlank then
    return ()
  let s ← get
  match s.symbols.resolve? s.fileScope i.name with
  | some object => bind i object
  | none => set { s with pending := s.pending.push i }

/-- Resolves the names in a type. -/
def resolveTypeExpr : TypeExpr → Parse Unit
  | .bad _ => return ()
  | .basic _ _ => return ()
  | .named none name => resolveIdent name
  | .named (some qualifier) name =>
    modify fun s => { s with qualified := s.qualified.push ⟨qualifier, name⟩ }
  | .array _ elem size _ => do
    resolveTypeExpr elem
    match size with
    | .ident i => resolveIdent i
    | _ => return ()
  | .vector _ elem _ => resolveTypeExpr elem
  | .map _ key value _ => do
    resolveTypeExpr key
    resolveTypeExpr value

/-- Resolves the names in the type of a member. -/
def resolveMemberType : MemberType → Parse Unit
  | .plain t => resolveTypeExpr t
  | .func sig => do
    sig.params.forM fun p => resolveTypeExpr p.type
    match sig.result with
    | some t => resolveTypeExpr t
    | none => return ()

end Parse

end Idl
