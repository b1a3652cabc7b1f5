/-
Idl/Syntax/Decl.lean

The grammar of declarations.

    ImportDecl = "import" ( ImportSpec | "(" { ImportSpec } ")" )
    ImportSpec = [ "." | Ident ] STRING [ ";" ]
    ConstDecl  = "const" ( ConstSpec | "(" { ConstSpec } ")" )
    ConstSpec  = Ident [ "=" ( INT | FLOAT | STRING | Ident ) ] [ ";" ]
    BeanDecl   = ( "struct" | "protocol" | "service" | "enum" ) Ident [ STRING ]
                 "{" { Member } "}"

What starts no declaration is reported once and skipped up to a keyword that does.
-/
import Idl.Syntax.Member
import Idl.Text.Quoted

namespace Idl

/-! ### Import paths -/

/-- The characters that no import path contains, whatever else is printable. -/
def excludedFromImportPath : List Char :=
  "!\"#$%&'()*,:;<=>?[\\]^\x7b|\x7d\x60".toList ++ [Char.ofNat 0xfffd]

/-- The characters of import paths: visible ones of ASCII, and beyond it all but white space and
control characters, with some exceptions. -/
def isImportPathChar (c : Char) : Bool :=
  (if c.toNat < 0x80 then decide (0x20 < c.toNat) && decide (c.toNat < 0x7f)
   else !isWhiteSpace c && !isControl c) && !excludedFromImportPath.contains c

/-- Whether a literal spells an import path. -/
def isImportPath (raw : String) : Bool :=
  match unquote? raw with
  | none => false
  | some path => !path.isEmpty && path.toList.all isImportPathChar

namespace Parse

/-! ### Groups of specifications -/

/-- Takes a further specification of a group, and at least one token. -/
def moreSpecs {α β : Type} (spec : Option CommentGroup → Nat → β → Parse (α × β))
    (sofar : Array α × β) : Parse (Option (Array α × β)) := do
  if (← check (.punct .rparen)) || (← atEnd) then
    return none
  let left := (← get).left.length
  let doc ← takeLead
  let (s, state) ← spec doc sofar.1.size sofar.2
  if (← get).left.length = left then
    let _ ← advance
  return some (sofar.1.push s, state)

/-- Takes the specifications behind a keyword, one or, between parentheses, any number; `spec`
takes the one at an index, given the comments above it and what the ones before it left. -/
def specGroup {α β : Type} (spec : Option CommentGroup → Nat → β → Parse (α × β)) (start : β) :
    Parse (SpecGroup α) := do
  let doc ← takeLead
  let p := (← advance).pos
  if ← check (.punct .lparen) then
    let lparen := (← advance).pos
    let (specs, _) ← iterate (moreSpecs spec) (#[], start)
    let rparen ← expect (.punct .rparen)
    return ⟨doc, p, some (lparen, rparen), specs.toList⟩
  else
    let (s, _) ← spec none 0 start
    return ⟨doc, p, none, [s]⟩

/-! ### Imports -/

/-- Takes the name under which a package is imported. -/
def importName : Parse (Option Ident) := do
  match ← kind with
  | .punct .period =>
    let t ← advance
    return some (← newIdent t.text t.pos)
  | .ident => return some (← ident)
  | _ => return none

/-- Takes the path of an import. -/
def importPath : Parse Lit := do
  let t := (← current).token
  if t.kind = .string then
    let path ← lit .string
    if !isImportPath path.text then
      report (.error ("invalid import path: " ++ path.text) t.span)
    return path
  else
    let p ← expect .string
    return ⟨p, .string, ""⟩

/-- Takes an import. -/
def importSpec (doc : Option CommentGroup) (_index : Nat) (_ : Unit) :
    Parse (ImportSpec × Unit) := do
  let localName ← importName
  let path ← importPath
  endOfItem
  let comment ← trailing
  return ({ doc, localName, path, comment }, ())

/-! ### Constants -/

/-- Takes the value of a constant. -/
def constValue : Parse Value := do
  match ← kind with
  | .int => return .lit (← lit .int)
  | .float => return .lit (← lit .float)
  | .string => return .lit (← lit .string)
  | .ident =>
    let i ← ident
    resolveIdent i
    return .ident i
  | _ =>
    let p ← pos
    reportExpected "constant value"
    return .bad p

/-- Takes the value that a constant has of its own, if it has one. -/
def ownValue : Parse (Option Value) := do
  if ← check (.punct .assign) then
    let _ ← advance
    return some (← constValue)
  else
    return none

/-- Reports a constant that has no value, if it is the first one of its group. -/
def requireValue (name : Ident) (index : Nat) (own : Option Value) : Parse Unit := do
  if own.isNone && index == 0 then
    report (.error "missing constant value" name.span)

/-- Takes a constant.  Without a value it has that of the constant before it in its group, which
the first one has not. -/
def constSpec (doc : Option CommentGroup) (index : Nat) (previous : Option Value) :
    Parse (ConstSpec × Option Value) := do
  let name ← ident
  let own ← ownValue
  endOfItem
  let comment ← trailing
  requireValue name index own
  let value := own <|> previous
  let s ← get
  declare name .const (.spec s.fileId s.declIndex index) (some index) s.fileScope
  return ({ doc, name, value, comment }, value)

/-! ### Declarations -/

/-- How often skipping may stop at one place before it is forced past it. -/
def maxSyncStops : Nat := 10

/-- Whether a keyword starts a declaration that may follow the imports. -/
def startsDecl : TokenKind → Bool
  | .keyword .const | .keyword .protocol | .keyword .struct | .keyword .service
  | .keyword .enum => true
  | _ => false

/-- Skips one token towards the next declaration; `none` where skipping stops. -/
def skipStep (_ : Unit) : Parse (Option Unit) := do
  let s ← get
  let t := s.current.token
  if s.left.isEmpty then
    return none
  if startsDecl t.kind && t.pos == s.syncPos && s.syncStops < maxSyncStops then
    set { s with syncStops := s.syncStops + 1 }
    return none
  if startsDecl t.kind && s.syncPos < t.pos then
    set { s with syncPos := t.pos, syncStops := 0 }
    return none
  let _ ← advance
  return some ()

/-- Skips to the next keyword that starts a declaration, or to the end of the file. -/
def skipToDecl : Parse Unit := iterate skipStep ()

/-- Takes a declaration that may follow the imports. -/
def decl : Parse Decl := do
  match ← kind with
  | .keyword .const => return .consts (← specGroup constSpec none)
  | .keyword .struct => return .bean (← bean .struct)
  | .keyword .protocol => return .bean (← bean .protocol)
  | .keyword .service => return .bean (← bean .service)
  | .keyword .enum => return .bean (← bean .enum)
  | _ =>
    let start ← pos
    reportExpected "declaration"
    skipToDecl
    return .bad ⟨start, ← pos⟩

end Parse

end Idl
