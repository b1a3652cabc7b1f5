/-
Idl/Syntax/File.lean

From the text of a file to its syntax tree.

    File = "package" Ident [ ";" ] { ImportDecl } { ConstDecl | BeanDecl }

`parseFile` registers the file, reads its tokens and lines, and parses it.  It always answers
with a tree; only a file for which there are no positions left is refused.
-/
import Idl.Syntax.Decl
import Idl.Token.Scan

namespace Idl

/-! ### Tokens of a registered file -/

/-- Reads the tokens of a registered file, whose lines become known. -/
def SourceFile.scan (f : SourceFile) (source : String) : Scanned × SourceFile :=
  let scanned := scanSource f.base source
  (scanned, scanned.lineStarts.foldl SourceFile.addLine f)

/-! ### The grammar of a file -/

namespace Parse

/-- Takes a further declaration if `more` says so, and numbers it. -/
def moreDecls (more : Parse Bool) (one : Parse Decl) (decls : Array Decl) :
    Parse (Option (Array Decl)) := do
  if ← more then
    modify fun s => { s with declIndex := decls.size }
    return some (decls.push (← one))
  else
    return none

/-- Takes declarations as long as `more` says. -/
def declsWhile (more : Parse Bool) (one : Parse Decl) (decls : Array Decl) :
    Parse (Array Decl) := iterate (moreDecls more one) decls

/-- Gives the pending names another look, now that the whole file is known.  Answers with those
that the file does not declare. -/
def settlePending : Parse (List Ident) := fun s =>
  let found (i : Ident) := s.symbols.lookup? s.fileScope i.name
  let settle (r : Resolutions) (i : Ident) := ((found i).map (r.set i.id)).getD r
  let pending := s.pending.toList
  (pending.filter (found · |>.isNone), { s with resolutions := pending.foldl settle s.resolutions })

/-- Takes the name of the package, which may not be the blank one. -/
def packageName : Parse Ident := do
  let first := (← current).token
  let name ← ident
  if first.kind = .ident && first.text = "_" then
    report (.error "invalid package name _" name.span)
  return name

/-- Takes a whole file, whose comments are `comments`. -/
def file (comments : List CommentGroup) : Parse File := do
  let doc ← takeLead
  let packagePos ← expect (.keyword .pkg)
  let name ← packageName
  endOfItem
  let decls ← declsWhile (check (.keyword .imp))
    (Decl.imports <$> specGroup importSpec ()) #[]
  let decls ← declsWhile (not <$> atEnd) decl decls
  let unresolved ← settlePending
  let s ← get
  return {
    id := s.fileId
    filename := s.file.name
    doc, packagePos, name
    decls := decls.toList
    scope := s.fileScope
    unresolved
    qualified := s.qualified.toList
    comments
    resolutions := s.resolutions }

end Parse

/-! ### Parsing -/

/-- The state in which a file is parsed from its first token on. -/
def ParseState.start (file : SourceFile) (id : FileId) (symbols : SymbolTable)
    (tokens : List SignificantToken) : ParseState :=
  let (fileScope, symbols) := symbols.newScope none
  let eof : SignificantToken :=
    tokens.getLastD ⟨⟨.eof, "", .ofPos (file.base + file.size)⟩, none, none, []⟩
  { file, fileId := id, left := tokens.dropLast, eof
    lead := (tokens.dropLast.headD eof).lead, symbols, fileScope }

/-- What comes of parsing a file. -/
structure ParseResult where
  file : File
  /-- What is wrong with its tokens, and then what is wrong with its syntax. -/
  diagnostics : List Diagnostic
  files : FileSet
  symbols : SymbolTable

/-- Registers a file and parses it. -/
def parseFile (files : FileSet) (symbols : SymbolTable) (name source : String) :
    Except FileSetError ParseResult := do
  let (id, files) ← files.addFile name none source.utf8ByteSize
  let some registered := files.files[id]? | .error .overflow
  let (scanned, f) := registered.scan source
  let files := files.modifyFile id fun _ => f
  let tokens := significant f.lineOf scanned.allTokens
  let (parsed, state) :=
    Parse.file (tokens.flatMap (·.groups)) (ParseState.start f id symbols tokens)
  return {
    file := parsed
    diagnostics := scanned.errors.map (·.toDiagnostic) ++ state.diagnostics.toList
    files
    symbols := state.symbols }

end Idl
