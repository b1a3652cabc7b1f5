/-
Idl/Syntax.lean

Syntax trees of schema files.

A file belongs to a package and holds declarations: imports, constants and beans.  A bean is a
named group of members: the fields of a struct or protocol, the methods of a service, or the
members of an enumeration.  Every node knows its position, and what could not be parsed leaves a
`bad` node behind.  Identifiers are numbered in each file, and `File.resolutions` says what they
stand for.
-/
import Idl.Builtin
import Idl.Comment
import Idl.Scope

namespace Idl

/-! ### Identifiers, literals and values -/

/-- An occurrence of a name. -/
structure Ident where
  id : IdentId
  name : String
  pos : Pos
  deriving DecidableEq, Repr

namespace Ident

/-- The span of the name. -/
def span (i : Ident) : Span := .ofWidth i.pos i.name.utf8ByteSize

/-- Whether this is the name that declares nothing. -/
def isBlank (i : Ident) : Bool := i.name = "_"

end Ident

/-- The kinds of literal. -/
inductive LitKind where
  | int | float | char | string
  deriving DecidableEq, Repr

/-- The kind in words. -/
def LitKind.text : LitKind → String
  | .int => "int"
  | .float => "float"
  | .char => "char"
  | .string => "string"

/-- A literal as it is spelled. -/
structure Lit where
  pos : Pos
  kind : LitKind
  text : String
  deriving DecidableEq, Repr

/-- The span of the spelling. -/
def Lit.span (l : Lit) : Span := .ofWidth l.pos l.text.utf8ByteSize

/-- The value of a constant, of a member of an enumeration, or the size of an array. -/
inductive Value where
  | bad (pos : Pos)
  | ident (i : Ident)
  | lit (l : Lit)
  deriving DecidableEq, Repr

/-- Where the value starts. -/
def Value.begin : Value → Pos
  | .bad pos => pos
  | .ident i => i.pos
  | .lit l => l.pos

/-! ### Types -/

/-- A type as it is written. -/
inductive TypeExpr where
  | bad (pos : Pos)
  | basic (name : Ident) (builtin : Builtin)
  | array (pos : Pos) (elem : TypeExpr) (size : Value) (closing : Pos)
  | vector (pos : Pos) (elem : TypeExpr) (closing : Pos)
  | map (pos : Pos) (key value : TypeExpr) (closing : Pos)
  /-- A bean of this package, or of the one that `qualifier` names. -/
  | named (qualifier : Option Ident) (name : Ident)
  deriving DecidableEq, Repr

/-- Where the type starts. -/
def TypeExpr.begin : TypeExpr → Pos
  | .bad pos => pos
  | .basic name _ => name.pos
  | .array pos .. => pos
  | .vector pos .. => pos
  | .map pos .. => pos
  | .named qualifier name => (qualifier.getD name).pos

/-- A parameter of a method. -/
structure Param where
  type : TypeExpr
  name : Option Ident
  deriving DecidableEq, Repr

/-- Parameters and result of a method. -/
structure Signature where
  opening : Pos
  params : List Param
  closing : Pos
  result : Option TypeExpr
  deriving DecidableEq, Repr

/-- What the type of a member can be. -/
inductive MemberType where
  | plain (t : TypeExpr)
  | func (s : Signature)
  deriving DecidableEq, Repr

/-- Where the type starts. -/
def MemberType.begin : MemberType → Pos
  | .plain t => t.begin
  | .func s => s.opening

/-! ### Beans -/

/-- A member of a bean.  A member without names extends the bean by another type. -/
structure Member where
  doc : Option CommentGroup := none
  options : List Ident := []
  type : Option MemberType := none
  names : List Ident := []
  value : Option Value := none
  tag : Option Lit := none
  comment : Option CommentGroup := none
  deriving DecidableEq, Repr

/-- Where the member starts. -/
def Member.begin (m : Member) : Pos :=
  match m.options, m.type, m.names with
  | option :: _, _, _ => option.pos
  | [], some t, _ => t.begin
  | [], none, name :: _ => name.pos
  | [], none, [] => 0

/-- The kinds of bean. -/
inductive BeanKind where
  | struct | protocol | service | enum
  deriving DecidableEq, Repr

namespace BeanKind

/-- All kinds. -/
def all : List BeanKind := [.struct, .protocol, .service, .enum]

/-- The kind in words. -/
def text : BeanKind → String
  | .struct => "struct"
  | .protocol => "protocol"
  | .service => "service"
  | .enum => "enum"

end BeanKind

/-- The members of a bean between their braces. -/
structure MemberList where
  opening : Pos
  members : List Member
  closing : Pos
  deriving DecidableEq, Repr

/-- The number of fields; a member without names counts as one. -/
def MemberList.fieldCount (ms : MemberList) : Nat :=
  ms.members.foldr (fun m n => max 1 m.names.length + n) 0

/-- A bean. -/
structure Bean where
  kind : BeanKind
  pos : Pos
  doc : Option CommentGroup
  name : Ident
  tag : Option Lit
  body : MemberList
  deriving DecidableEq, Repr

/-- The types of the members without names. -/
def Bean.extended (b : Bean) : List MemberType :=
  (b.body.members.filter (·.names.isEmpty)).filterMap (·.type)

/-! ### Declarations -/

/-- An import of a package. -/
structure ImportSpec where
  doc : Option CommentGroup
  localName : Option Ident
  path : Lit
  comment : Option CommentGroup
  deriving DecidableEq, Repr

/-- Where the import starts. -/
def ImportSpec.begin (s : ImportSpec) : Pos := (s.localName.map (·.pos)).getD s.path.pos

/-- A constant.  Without a value of its own it has that of the constant before it. -/
structure ConstSpec where
  doc : Option CommentGroup
  name : Ident
  value : Option Value
  comment : Option CommentGroup
  deriving DecidableEq, Repr

/-- Where the constant starts. -/
def ConstSpec.begin (s : ConstSpec) : Pos := s.name.pos

/-- What follows one keyword: a single specification, or several between parentheses. -/
structure SpecGroup (α : Type) where
  doc : Option CommentGroup
  pos : Pos
  /-- The positions of the parentheses. -/
  parens : Option (Pos × Pos)
  specs : List α
  deriving DecidableEq, Repr

/-- A declaration. -/
inductive Decl where
  | bad (span : Span)
  | imports (g : SpecGroup ImportSpec)
  | consts (g : SpecGroup ConstSpec)
  | bean (b : Bean)
  deriving DecidableEq, Repr

namespace Decl

/-- Where the declaration starts. -/
def begin : Decl → Pos
  | .bad span => span.start
  | .imports g => g.pos
  | .consts g => g.pos
  | .bean b => b.pos

/-- The imports it declares. -/
def importSpecs : Decl → List ImportSpec
  | .imports g => g.specs
  | _ => []

end Decl

/-! ### Files and packages -/

/-- A type of another package, as its two names. -/
structure QualifiedRef where
  qualifier : Ident
  name : Ident
  deriving DecidableEq, Repr

/-- A parsed file. -/
structure File where
  id : FileId
  filename : String
  doc : Option CommentGroup
  packagePos : Pos
  /-- The name of the package. -/
  name : Ident
  decls : List Decl
  /-- The scope of the declared constants and beans. -/
  scope : ScopeId
  /-- The unqualified names that stand for nothing known yet. -/
  unresolved : List Ident
  /-- The qualified names, which only a look at other packages resolves. -/
  qualified : List QualifiedRef
  /-- All comments of the file. -/
  comments : List CommentGroup
  resolutions : Resolutions
  deriving DecidableEq, Repr

/-- The imports of a file, in order. -/
def File.imports (f : File) : List ImportSpec := f.decls.flatMap Decl.importSpecs

end Idl
