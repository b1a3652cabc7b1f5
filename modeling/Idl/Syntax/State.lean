/-
Idl/Syntax/State.lean

The state in which a file is parsed, and the steps from which the grammar is built.

The state holds the significant tokens that are left; the first of them is the current one, and
when none is left the end of the file is.  Steps only ever take tokens from the front, so the
number of tokens left measures progress, and `iterate` may repeat any step that takes one.  A
step that does not find what it expects reports that and takes nothing.
-/
import Idl.Diagnostic
import Idl.Syntax

namespace Idl

/-- The state of parsing a file. -/
structure ParseState where
  file : SourceFile
  fileId : FileId
  /-- The significant tokens from the current one on, without the end of the file. -/
  left : List SignificantToken
  eof : SignificantToken
  /-- The comments that lead the current token, until they are taken. -/
  lead : Option CommentGroup
  symbols : SymbolTable
  /-- The scope of the constants and beans of the file. -/
  fileScope : ScopeId
  /-- The index of the declaration that is being parsed. -/
  declIndex : Nat := 0
  /-- The number of identifiers so far. -/
  nextIdent : IdentId := 0
  resolutions : Resolutions := {}
  /-- The names that nothing in the file has declared yet. -/
  pending : Array Ident := #[]
  qualified : Array QualifiedRef := #[]
  diagnostics : Array Diagnostic := #[]
  /-- Where skipping to a declaration stopped last, and how often it has stopped there since. -/
  syncPos : Pos := 0
  syncStops : Nat := 0

/-- A step of parsing. -/
abbrev Parse := StateM ParseState

/-- The current token, with its comments. -/
def ParseState.current (s : ParseState) : SignificantToken := s.left.headD s.eof

namespace Parse

/-! ### The current token -/

/-- The current token, with its comments. -/
def current : Parse SignificantToken := fun s => (s.current, s)

/-- The kind of the current token. -/
def kind : Parse TokenKind := fun s => (s.current.token.kind, s)

/-- The position of the current token. -/
def pos : Parse Pos := fun s => (s.current.token.pos, s)

/-- The line of the current token. -/
def line : Parse Nat := fun s => (s.file.lineOf s.current.token.pos, s)

/-- The kind of the token after the current one. -/
def nextKind : Parse TokenKind := fun s => ((s.left.tail.headD s.eof).token.kind, s)

/-- Whether all tokens are taken. -/
def atEnd : Parse Bool := fun s => (s.left.isEmpty, s)

/-- Whether the current token is of the given kind. -/
def check (k : TokenKind) : Parse Bool := fun s => (s.current.token.kind == k, s)

/-- Takes the current token. -/
def advance : Parse Token := fun s =>
  match s.left with
  | [] => (s.eof.token, s)
  | t :: rest => (t.token, { s with left := rest, lead := (rest.headD s.eof).lead })

/-- Takes the comments that lead the current token. -/
def takeLead : Parse (Option CommentGroup) := fun s => (s.lead, { s with lead := none })

/-- The comments that trail the token taken last. -/
def trailing : Parse (Option CommentGroup) := fun s => (s.current.trailing, s)

/-! ### Reports -/

/-- Reports a diagnostic. -/
def report (d : Diagnostic) : Parse Unit := fun s =>
  ((), { s with diagnostics := s.diagnostics.push d })

/-- Reports that something else than the current token was expected. -/
def reportExpected (what : String) : Parse Unit := do
  let t := (← current).token
  report (.error ("expected " ++ what ++ ", found " ++ t.foundName) t.span)

/-! ### Taking what is expected -/

/-- Takes the current token if it is of the given kind, and reports it otherwise.  Answers with
its position. -/
def expect (k : TokenKind) : Parse Pos := do
  let p ← pos
  if ← check k then
    let _ ← advance
  else
    reportExpected k.expectedName
  return p

/-- Takes an optional semicolon.  A comma in its place is reported and taken. -/
def endOfItem : Parse Unit := do
  match ← kind with
  | .punct .comma =>
    reportExpected (TokenKind.punct .semicolon).name
    let _ ← advance
  | .punct .semicolon =>
    let _ ← advance
  | _ => return ()

/-- Numbers an identifier. -/
def newIdent (name : String) (p : Pos) : Parse Ident := fun s =>
  (⟨s.nextIdent, name, p⟩, { s with nextIdent := s.nextIdent + 1 })

/-- Takes an identifier.  Where there is none, this is reported, and the blank name stands in
for it. -/
def ident : Parse Ident := do
  let t := (← current).token
  if t.kind = .ident then
    let _ ← advance
    newIdent t.text t.pos
  else
    let _ ← expect .ident
    newIdent "_" t.pos

/-- Takes the current token as a literal of the given kind. -/
def lit (k : LitKind) : Parse Lit := do
  let t ← advance
  return ⟨t.pos, k, t.text⟩

/-- Takes a string literal, if there is one. -/
def string? : Parse (Option Lit) := do
  if ← check .string then
    return some (← lit .string)
  else
    return none

/-! ### Repetition -/

/-- Repeats a step, from `acc` on, until it answers `none` or takes no token. -/
def iterate {α : Type} (step : α → Parse (Option α)) (acc : α) (s : ParseState) :
    α × ParseState :=
  match step acc s with
  | (none, t) => (acc, t)
  | (some acc', t) => if t.left.length < s.left.length then iterate step acc' t else (acc', t)
termination_by s.left.length

/-- Takes a further name, after a comma. -/
def moreIdents (names : Array Ident) : Parse (Option (Array Ident)) := do
  if ← check (.punct .comma) then
    let _ ← advance
    return some (names.push (← ident))
  else
    return none

/-- Takes a name, and further names after commas. -/
def identList : Parse (List Ident) := do
  let first ← ident
  let names ← iterate moreIdents #[first]
  return names.toList

end Parse

end Idl
