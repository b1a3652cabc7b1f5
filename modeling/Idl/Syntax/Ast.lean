/-
Idl/Syntax/Ast.lean

Syntax trees as wide as they can be, and walks over them.

The parser builds what the grammar allows: a parameter is a type that may have a name, a group holds
imports only or constants only, and a value is never a type.  Those who look at syntax do not rely on
that.  In the trees here whatever is listed between braces or parentheses is a field with all its parts,
a type may be a method signature anywhere, and a value may be a type; the trees of the parser are among
them (`File.ast`).

Whoever looks at a node may want to see all of it, and may decide by that whether to look below.  So
an `AstNode` is a piece of syntax that has a node of its own, whole, and `AstNode.walk` visits it and
what is below it, in pre-order.
-/
import Idl.Syntax.Tree

namespace Idl

/-! ### Trees -/

namespace Ast

mutual

/-- A value: of a constant, of a member of an enumeration, or the size of an array. -/
inductive Expr where
  | bad (span : Span)
  | ident (i : Ident)
  | lit (l : Lit)
  | type (t : TypeExpr)

/-- A type. -/
inductive TypeExpr where
  | bad (span : Span)
  | basic (name : Ident) (builtin : Builtin)
  | array (pos : Pos) (elem : TypeExpr) (size : Expr) (closing : Pos)
  | vector (pos : Pos) (elem : TypeExpr) (closing : Pos)
  | map (pos : Pos) (key value : TypeExpr) (closing : Pos)
  /-- A bean of this package, or of the one that `qualifier` names. -/
  | named (qualifier : Option Ident) (name : Ident)
  /-- The parameters and the result of a method. -/
  | func (params : FieldList) (result : Option TypeExpr)

/-- A member of a bean or a parameter of a method. -/
structure Field where
  doc : Option CommentGroup
  options : List Ident
  type : Option TypeExpr
  names : List Ident
  value : Option Expr
  tag : Option Lit
  comment : Option CommentGroup

/-- Fields between braces or parentheses. -/
structure FieldList where
  opening : Pos
  list : List Field
  closing : Pos

end

/-- A constant. -/
structure ConstSpec where
  doc : Option CommentGroup
  name : Ident
  value : Option Expr
  comment : Option CommentGroup

/-- What can follow the keyword of a group. -/
inductive Spec where
  | imports (s : ImportSpec)
  | const (s : ConstSpec)

/-- The keywords of groups. -/
inductive GenKind where
  | imports | const
  deriving DecidableEq, Repr

/-- A keyword and what follows it, single or between parentheses; the positions of parentheses that
are not there are 0. -/
structure GenDecl where
  doc : Option CommentGroup
  pos : Pos
  keyword : GenKind
  opening : Pos
  specs : List Spec
  closing : Pos

/-- A bean. -/
structure BeanDecl where
  kind : BeanKind
  pos : Pos
  doc : Option CommentGroup
  name : Ident
  tag : Option Lit
  fields : FieldList

/-- A declaration. -/
inductive Decl where
  | bad (span : Span)
  | gen (g : GenDecl)
  | bean (b : BeanDecl)

/-- A file. -/
structure File where
  id : FileId
  filename : String
  doc : Option CommentGroup
  packagePos : Pos
  name : Ident
  decls : List Decl
  scope : ScopeId
  /-- Copies of the imports. -/
  imports : List ImportSpec
  unresolved : List Ident
  comments : List CommentGroup
  resolutions : Resolutions

/-- A package. -/
structure Package where
  name : String
  scope : ScopeId
  imports : NameMap ObjectId
  files : NameMap File

/-! ### Where nodes start -/

/-- Where a type starts. -/
def TypeExpr.begin : TypeExpr → Pos
  | .bad span => span.start
  | .basic name _ => name.pos
  | .array pos .. => pos
  | .vector pos .. => pos
  | .map pos .. => pos
  | .named qualifier name => (qualifier.getD name).pos
  | .func params _ => params.opening

/-- Where a value starts. -/
def Expr.begin : Expr → Pos
  | .bad span => span.start
  | .ident i => i.pos
  | .lit l => l.pos
  | .type t => t.begin

/-- Where a field starts. -/
def Field.begin (f : Field) : Pos :=
  match f.options, f.type, f.names with
  | option :: _, _, _ => option.pos
  | [], some t, _ => t.begin
  | [], none, name :: _ => name.pos
  | [], none, [] => 0

/-- Where a package starts. -/
def Package.begin (p : Package) : Pos := (p.files.values.head?.map (·.packagePos)).getD 0

end Ast

/-! ### The trees of the parser -/

/-- The value as one of any tree. -/
def Value.ast : Value → Ast.Expr
  | .bad pos => .bad (.ofPos pos)
  | .ident i => .ident i
  | .lit l => .lit l

/-- The type as one of any tree. -/
def TypeExpr.ast : TypeExpr → Ast.TypeExpr
  | .bad pos => .bad (.ofPos pos)
  | .basic name builtin => .basic name builtin
  | .array pos elem size closing => .array pos elem.ast size.ast closing
  | .vector pos elem closing => .vector pos elem.ast closing
  | .map pos key value closing => .map pos key.ast value.ast closing
  | .named qualifier name => .named qualifier name

/-- The parameter as a field. -/
def Param.ast (p : Param) : Ast.Field where
  doc := none
  options := []
  type := some p.type.ast
  names := p.name.toList
  value := none
  tag := none
  comment := none

/-- The type of a member as a type of any tree. -/
def MemberType.ast : MemberType → Ast.TypeExpr
  | .plain t => t.ast
  | .func s => .func ⟨s.opening, s.params.map Param.ast, s.closing⟩ (s.result.map TypeExpr.ast)

/-- The member as a field. -/
def Member.ast (m : Member) : Ast.Field where
  doc := m.doc
  options := m.options
  type := m.type.map MemberType.ast
  names := m.names
  value := m.value.map Value.ast
  tag := m.tag
  comment := m.comment

/-- The members of a bean as fields. -/
def MemberList.ast (ms : MemberList) : Ast.FieldList :=
  ⟨ms.opening, ms.members.map Member.ast, ms.closing⟩

/-- The constant as one of any tree. -/
def ConstSpec.ast (s : ConstSpec) : Ast.ConstSpec :=
  ⟨s.doc, s.name, s.value.map Value.ast, s.comment⟩

/-- The group as one that could hold anything. -/
def SpecGroup.ast {α : Type} (keyword : Ast.GenKind) (spec : α → Ast.Spec) (g : SpecGroup α) :
    Ast.GenDecl where
  doc := g.doc
  pos := g.pos
  keyword := keyword
  opening := (g.parens.map (·.1)).getD 0
  specs := g.specs.map spec
  closing := (g.parens.map (·.2)).getD 0

/-- The declaration as one of any tree. -/
def Decl.ast : Decl → Ast.Decl
  | .bad span => .bad span
  | .imports g => .gen (g.ast .imports .imports)
  | .consts g => .gen (g.ast .const fun s => .const s.ast)
  | .bean b => .bean ⟨b.kind, b.pos, b.doc, b.name, b.tag, b.body.ast⟩

/-- The file as one of any tree. -/
def File.ast (f : File) : Ast.File where
  id := f.id
  filename := f.filename
  doc := f.doc
  packagePos := f.packagePos
  name := f.name
  decls := f.decls.map Decl.ast
  scope := f.scope
  imports := f.imports
  unresolved := f.unresolved
  comments := f.comments
  resolutions := f.resolutions

/-- The package as one of any tree. -/
def Package.ast (p : Package) : Ast.Package := ⟨p.name, p.scope, p.imports, p.files.map File.ast⟩

/-! ### Nodes -/

/-- A node with everything that is below it. -/
inductive AstNode where
  | package (p : Ast.Package)
  | file (f : Ast.File)
  | decl (d : Ast.Decl)
  | spec (s : Ast.Spec)
  | fieldList (fs : Ast.FieldList)
  | field (f : Ast.Field)
  | type (t : Ast.TypeExpr)
  | expr (e : Ast.Expr)
  | ident (i : Ident)
  | lit (l : Lit)
  | comments (g : CommentGroup)
  | comment (c : Comment)

namespace AstNode

/-- The node of a comment group, if there is one. -/
def ofComments (g : Option CommentGroup) : List AstNode := (g.map comments).toList

/-- The nodes directly below a node, in order. -/
def children : AstNode → List AstNode
  | .package p => p.files.values.map file
  | .file f => ofComments f.doc ++ [.ident f.name] ++ f.decls.map decl
  | .decl (.bad _) => []
  | .decl (.gen g) => ofComments g.doc ++ g.specs.map spec
  | .decl (.bean b) =>
    ofComments b.doc ++ [.ident b.name] ++ (b.tag.map lit).toList ++ [.fieldList b.fields]
  | .spec (.imports s) =>
    ofComments s.doc ++ (s.localName.map ident).toList ++ [.lit s.path] ++ ofComments s.comment
  | .spec (.const s) =>
    ofComments s.doc ++ [.ident s.name] ++ (s.value.map expr).toList ++ ofComments s.comment
  | .fieldList fs => fs.list.map field
  | .field f =>
    ofComments f.doc ++ f.options.map ident ++ (f.type.map type).toList ++ f.names.map ident ++
      (f.value.map expr).toList ++ (f.tag.map lit).toList ++ ofComments f.comment
  | .type (.bad _) => []
  | .type (.basic name _) => [.ident name]
  | .type (.array _ elem size _) => [.type elem, .expr size]
  | .type (.vector _ elem _) => [.type elem]
  | .type (.map _ key value _) => [.type key, .type value]
  | .type (.named qualifier name) => (qualifier.map ident).toList ++ [.ident name]
  | .type (.func params result) => .fieldList params :: (result.map type).toList
  | .expr (.bad _) => []
  | .expr (.ident i) => [.ident i]
  | .expr (.lit l) => [.lit l]
  | .expr (.type t) => [.type t]
  | .ident _ | .lit _ | .comments _ | .comment _ => []

/-- What a walk tells of a node. -/
def label : AstNode → Node
  | .package p => .inner .package p.begin
  | .file f => .inner .file f.packagePos
  | .decl (.bad span) => .bad .decl span
  | .decl (.gen g) => .inner .genDecl g.pos
  | .decl (.bean b) => .inner .beanDecl b.pos
  | .spec (.imports s) => .inner .importSpec s.begin
  | .spec (.const s) => .inner .constSpec s.name.pos
  | .fieldList fs => .inner .fieldList fs.opening
  | .field f => .inner .field f.begin
  | .type (.bad span) => .bad .type span
  | .type t@(.basic ..) => .inner .basicType t.begin
  | .type t@(.array ..) => .inner .arrayType t.begin
  | .type t@(.vector ..) => .inner .vectorType t.begin
  | .type t@(.map ..) => .inner .mapType t.begin
  | .type t@(.named ..) => .inner .structType t.begin
  | .type t@(.func ..) => .inner .funcType t.begin
  | .expr (.bad span) => .bad .expr span
  | .expr e => .inner .expr e.begin
  | .ident i => .ident i
  | .lit l => .lit l
  | .comments g => .comments g
  | .comment c => .comment c

/-- Whether walks never go below the node. -/
def isTerminal (n : AstNode) : Bool := n.label.isTerminal

/-! ### Walks over nodes -/

/-- Pieces in a list have nodes that are no larger than the list. -/
theorem sizeOf_le_list {α : Type} [SizeOf α] {node : α → AstNode}
    (hnode : ∀ a, sizeOf (node a) = 1 + sizeOf a) {xs : List α} {c : AstNode}
    (h : c ∈ xs.map node) : sizeOf c ≤ sizeOf xs := by
  obtain ⟨a, ha, rfl⟩ := List.mem_map.1 h
  have hlt := List.sizeOf_lt_of_mem ha
  have hsize := hnode a
  omega

/-- A piece that may be there has a node that is no larger than it. -/
theorem sizeOf_le_option {α : Type} [SizeOf α] {node : α → AstNode}
    (hnode : ∀ a, sizeOf (node a) = 1 + sizeOf a) {x : Option α} {c : AstNode}
    (h : c ∈ (x.map node).toList) : sizeOf c ≤ sizeOf x := by
  cases x with
  | none => cases h
  | some a =>
    obtain rfl := List.mem_singleton.1 h
    exact Nat.le_of_eq (hnode a)

/-- The values of a map are no larger than its entries. -/
theorem sizeOf_values_le {α : Type} [SizeOf α] (es : List (String × α)) :
    sizeOf (es.map (·.2)) ≤ sizeOf es := by
  induction es with
  | nil => exact Nat.le_refl _
  | cons e es ih =>
    cases e
    simp only [List.map_cons, List.cons.sizeOf_spec, Prod.mk.sizeOf_spec]
    omega

/-- Children are smaller. -/
theorem sizeOf_lt {n c : AstNode} (h : c ∈ n.children) : sizeOf c < sizeOf n := by
  have hgroup {g : Option CommentGroup} (h : c ∈ ofComments g) : sizeOf c ≤ sizeOf g :=
    sizeOf_le_option (fun _ => rfl) h
  have hidents {is : List Ident} (h : c ∈ is.map ident) : sizeOf c ≤ sizeOf is :=
    sizeOf_le_list (fun _ => rfl) h
  have hident {i : Option Ident} (h : c ∈ (i.map ident).toList) : sizeOf c ≤ sizeOf i :=
    sizeOf_le_option (fun _ => rfl) h
  have hlit {l : Option Lit} (h : c ∈ (l.map lit).toList) : sizeOf c ≤ sizeOf l :=
    sizeOf_le_option (fun _ => rfl) h
  have htype {t : Option Ast.TypeExpr} (h : c ∈ (t.map type).toList) : sizeOf c ≤ sizeOf t :=
    sizeOf_le_option (fun _ => rfl) h
  have hexpr {e : Option Ast.Expr} (h : c ∈ (e.map expr).toList) : sizeOf c ≤ sizeOf e :=
    sizeOf_le_option (fun _ => rfl) h
  -- each child is a part of its node, and the size of a node is that of its parts together
  cases n with
  | package p =>
    obtain ⟨name, scope, imports, ⟨entries, hentries⟩⟩ := p
    have hfiles : c ∈ (entries.map (·.2)).map file → sizeOf c ≤ sizeOf (entries.map (·.2)) :=
      sizeOf_le_list fun _ => rfl
    have hle := sizeOf_values_le entries
    simp only [children, NameMap.values, package.sizeOf_spec, Ast.Package.mk.sizeOf_spec,
      NameMap.mk.sizeOf_spec] at h ⊢
    grind
  | file f =>
    have hdecls : c ∈ f.decls.map decl → sizeOf c ≤ sizeOf f.decls := sizeOf_le_list fun _ => rfl
    cases f
    grind [children]
  | decl d =>
    cases d with
    | bad span => cases h
    | gen g =>
      have hspecs : c ∈ g.specs.map spec → sizeOf c ≤ sizeOf g.specs := sizeOf_le_list fun _ => rfl
      cases g
      grind [children]
    | bean b =>
      cases b
      grind [children]
  | spec s =>
    cases s with
    | imports s =>
      cases s
      grind [children]
    | const s =>
      cases s
      grind [children]
  | fieldList fs =>
    have hfields : c ∈ fs.list.map field → sizeOf c ≤ sizeOf fs.list := sizeOf_le_list fun _ => rfl
    cases fs
    grind [children]
  | field f =>
    cases f
    grind [children]
  | type t => cases t <;> grind [children]
  | expr e => cases e <;> grind [children]
  | _ => cases h

end AstNode

/-- What happens on a walk over nodes. -/
inductive AstEvent where
  | visit (depth : Nat) (n : AstNode)
  | enter (depth : Nat)
  | leave (depth : Nat)

namespace AstEvent

/-- The event with no more of a node than its label. -/
def labelled : AstEvent → WalkEvent
  | .visit depth n => .visit depth n.label
  | .enter depth => .enter depth
  | .leave depth => .leave depth

/-- The node that is visited. -/
def node? : AstEvent → Option AstNode
  | .visit _ n => some n
  | _ => none

end AstEvent

/-- The events of a walk that starts at `depth` and goes nowhere below the nodes that `skip`
holds of. -/
def AstNode.walk (skip : AstNode → Bool) (depth : Nat) (n : AstNode) : List AstEvent :=
  .visit depth n ::
    if skip n || n.isTerminal then []
    else .enter (depth + 1) ::
      n.children.attach.flatMap (fun c => c.1.walk skip (depth + 1)) ++ [.leave (depth + 1)]
termination_by sizeOf n
decreasing_by exact AstNode.sizeOf_lt c.2

end Idl
