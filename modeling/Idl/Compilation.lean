/-
Idl/Compilation.lean

The whole way from sources to the intermediate representation.

Nothing stops a compilation: every stage reports what is wrong and goes on, and the result holds
all reports, sorted by place, beside whatever could be made of the sources.
-/
import Idl.Ir.Lower
import Idl.Package.Link
import Idl.Syntax.File

namespace Idl

/-- The text of a file under its name. -/
structure Source where
  name : String
  text : String
  deriving DecidableEq, Repr

/-- The result of a compilation. -/
structure Compilation where
  files : FileSet
  symbols : SymbolTable
  packages : NameMap Package
  ir : Ir
  diagnostics : List Diagnostic
  unresolved : List UnresolvedIdent

/-! ### Parsing many files -/

/-- Files parsed one after the other. -/
structure ParsedSources where
  files : FileSet := {}
  symbols : SymbolTable := {}
  parsed : List File := []
  diagnostics : List Diagnostic := []

/-- Parses one more file; one that cannot be registered is reported and left out. -/
def ParsedSources.add (p : ParsedSources) (s : Source) : ParsedSources :=
  match parseFile p.files p.symbols s.name s.text with
  | .ok r =>
    { files := r.files
      symbols := r.symbols
      parsed := p.parsed ++ [r.file]
      diagnostics := p.diagnostics ++ r.diagnostics }
  | .error e =>
    { p with diagnostics := p.diagnostics ++ [.error (s.name ++ ": " ++ e.message) ⟨0, 0⟩] }

/-- Parses files in the order in which they are given. -/
def parseSources (sources : List Source) : ParsedSources := sources.foldl .add {}

/-! ### Compiling -/

/-- Compiles sources. -/
def compile (sources : List Source) : Compilation :=
  let p := parseSources sources
  let linked := link p.parsed p.symbols p.files
  { files := p.files
    symbols := linked.symbols
    packages := linked.packages
    ir := .ofPackages linked.packages linked.symbols
    diagnostics := sortDiagnostics p.files (p.diagnostics ++ linked.diagnostics ++
      loweringWarnings linked.packages linked.symbols)
    unresolved := linked.unresolved }

/-- An unresolved name as an error. -/
def UnresolvedIdent.error (u : UnresolvedIdent) : Diagnostic :=
  .error ("undefined: " ++ u.name) (.ofWidth u.pos u.name.utf8ByteSize)

namespace Compilation

/-- Whether an error was reported. -/
def hasErrors (c : Compilation) : Bool := c.diagnostics.any (·.isError)

/-- The unresolved names as errors, which a strict compilation reports. -/
def unresolvedErrors (c : Compilation) : List Diagnostic := c.unresolved.map (·.error)

/-- All reports, sorted by place; unresolved names are among them if the compilation is strict. -/
def allDiagnostics (c : Compilation) (strict : Bool) : List Diagnostic :=
  if strict then sortDiagnostics c.files (c.diagnostics ++ c.unresolvedErrors) else c.diagnostics

end Compilation

end Idl
