/-
Idl/Syntax/Member.lean

The grammar of what stands between the braces of a bean.

    Field      = { "required" | "optional" } ( "extends" TypeName | TypeName IdentList )
                 [ STRING ] [ ";" ]
    Method     = Ident Signature [ ";" ] | TypeName [ ";" ]
    Enumerator = Ident "=" ( INT | Ident ) [ "," ]

The names of a member are declared in the scope of its bean, and the names in its type are
resolved once the member is complete.
-/
import Idl.Syntax.Binding
import Idl.Syntax.TypeExpr

namespace Idl

namespace Parse

/-- Where the member at an index of the current declaration is declared. -/
def memberOrigin (index : Nat) : Parse Origin := fun s =>
  (.field s.fileId s.declIndex index, s)

/-- Takes a word before a field that says whether it is required. -/
def moreOptions (options : Array Ident) : Parse (Option (Array Ident)) := do
  match ← kind with
  | .keyword .required | .keyword .optional =>
    let t ← advance
    return some (options.push (← newIdent t.text t.pos))
  | _ => return none

/-- Takes the words before a field that say whether it is required. -/
def fieldOptions : Parse (List Ident) := do
  let options ← iterate moreOptions #[]
  return options.toList

/-- Takes the type of a field and its names, of which a bean to extend has none. -/
def typeAndNames : Parse (TypeExpr × List Ident) := do
  if ← check (.keyword .ext) then
    let _ ← advance
    return (← typeExpr, [])
  else
    let type ← typeExpr
    return (type, ← identList)

/-- Takes a field of a struct or protocol, or the name of a bean to extend. -/
def field (scope : ScopeId) (index : Nat) : Parse Member := do
  let doc ← takeLead
  let options ← fieldOptions
  let (type, names) ← typeAndNames
  let tag ← string?
  endOfItem
  let comment ← trailing
  let origin ← memberOrigin index
  names.forM fun name => declare name .var origin none scope
  resolveTypeExpr type
  return { doc, options, type := some (.plain type), names, tag, comment }

/-- The name of a method, if a type can be read as one. -/
def methodName? : TypeExpr → Option Ident
  | .named none name => some name
  | .basic name _ => some name
  | _ => none

/-- Takes the name of a method and its signature, or a type that is to be extended. -/
def nameAndType : Parse (Option Ident × MemberType) := do
  let first ← typeExpr
  let opens ← check (.punct .lparen)
  match if opens then methodName? first else none with
  | some name => return (some name, .func (← signature))
  | none => return (none, .plain first)

/-- Takes a method of a service, or the name of a service to extend. -/
def method (scope : ScopeId) (index : Nat) : Parse Member := do
  let doc ← takeLead
  let (name?, type) ← nameAndType
  endOfItem
  let comment ← trailing
  let origin ← memberOrigin index
  name?.toList.forM fun name => declare name .func origin none scope
  resolveMemberType type
  return { doc, type := some type, names := name?.toList, comment }

/-- Takes the value of a member of an enumeration. -/
def enumValue : Parse Value := do
  match ← kind with
  | .int => return .lit (← lit .int)
  | .ident => return .ident (← ident)
  | _ =>
    let p ← pos
    reportExpected "enum value"
    return .bad p

/-- Takes the comma behind a member of an enumeration, which the last one need not have. -/
def endOfEnumerator : Parse Unit := do
  if !(← check (.punct .rbrace)) then
    let _ ← expect (.punct .comma)

/-- Takes a member of an enumeration. -/
def enumerator (scope : ScopeId) (index : Nat) : Parse Member := do
  let doc ← takeLead
  let name ← ident
  let _ ← expect (.punct .assign)
  let value ← enumValue
  endOfEnumerator
  let comment ← trailing
  declare name .const (← memberOrigin index) (some index) scope
  return { doc, names := [name], value := some value, comment }

/-- Takes the member at an index of a bean; `none` where no member starts. -/
def member? (kind : BeanKind) (scope : ScopeId) (index : Nat) : Parse (Option Member) := do
  match kind, (← current).token.kind with
  | .service, .ident => some <$> method scope index
  | .enum, .ident => some <$> enumerator scope index
  | .struct, .ident | .struct, .keyword .ext | .struct, .keyword .required
  | .struct, .keyword .optional | .protocol, .ident | .protocol, .keyword .ext
  | .protocol, .keyword .required | .protocol, .keyword .optional =>
    some <$> field scope index
  | _, _ => return none

/-- Takes a further member of a bean. -/
def moreMembers (kind : BeanKind) (scope : ScopeId) (members : Array Member) :
    Parse (Option (Array Member)) := do
  return (← member? kind scope members.size).map members.push

/-- Takes a bean from its keyword on. -/
def bean (kind : BeanKind) : Parse Bean := do
  let doc ← takeLead
  let start := (← advance).pos
  let name ← ident
  let tag ← string?
  let s ← get
  let fileScope := s.fileScope
  let (scope, symbols) := s.symbols.newScope (some fileScope)
  set { s with symbols := symbols }
  let opening ← expect (.punct .lbrace)
  let members ← iterate (moreMembers kind scope) #[]
  let closing ← expect (.punct .rbrace)
  let s ← get
  declare name .bean (.decl s.fileId s.declIndex) none fileScope
  return { kind, pos := start, doc, name, tag, body := ⟨opening, members.toList, closing⟩ }

end Parse

end Idl
