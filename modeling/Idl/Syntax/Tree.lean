/-
Idl/Syntax/Tree.lean

Syntax trees seen as trees of labelled nodes.

Whatever walks over syntax does not care what a node means, only what it is called, where it
starts, and which nodes are below it.  `Tree` keeps just that.  A walk visits nodes in
pre-order; it does not go below terminal nodes, which are identifiers, literals, comments, groups of
comments and bad nodes, nor below those that it is told to skip.
-/
import Idl.Package

namespace Idl

/-! ### Nodes -/

/-- The nodes that have other nodes below them. -/
inductive NodeKind where
  | package | file | genDecl | beanDecl | importSpec | constSpec | fieldList | field
  | basicType | arrayType | vectorType | mapType | structType | funcType | expr
  deriving DecidableEq, Repr

/-- The name of such a node. -/
def NodeKind.name : NodeKind → String
  | .package => "Package"
  | .file => "File"
  | .genDecl => "GenDecl"
  | .beanDecl => "BeanDecl"
  | .importSpec => "ImportSpec"
  | .constSpec => "ConstSpec"
  | .fieldList => "FieldList"
  | .field => "Field"
  | .basicType => "BasicType"
  | .arrayType => "ArrayType"
  | .vectorType => "VectorType"
  | .mapType => "MapType"
  | .structType => "StructType"
  | .funcType => "FuncType"
  | .expr => "Expr"

/-- What a bad node stands in for. -/
inductive BadNode where
  | decl | type | expr
  deriving DecidableEq, Repr

/-- The name of a bad node. -/
def BadNode.name : BadNode → String
  | .decl => "BadDecl"
  | .type => "BadType"
  | .expr => "BadExpr"

/-- A node without what is below it. -/
inductive Node where
  | inner (kind : NodeKind) (begin : Pos)
  | bad (what : BadNode) (span : Span)
  | ident (i : Ident)
  | lit (l : Lit)
  | comments (g : CommentGroup)
  | comment (c : Comment)
  deriving DecidableEq, Repr

namespace Node

/-- The name of the sort of node. -/
def kindName : Node → String
  | .inner k _ => k.name
  | .bad what _ => what.name
  | .ident _ => "Ident"
  | .lit _ => "BasicLit"
  | .comments _ => "CommentGroup"
  | .comment _ => "Comment"

/-- Where the node starts. -/
def begin : Node → Pos
  | .inner _ begin => begin
  | .bad _ span => span.start
  | .ident i => i.pos
  | .lit l => l.pos
  | .comments g => g.begin
  | .comment c => c.slash

/-- Whether the node stands in for something that could not be parsed. -/
def isBad : Node → Bool
  | .bad .. => true
  | _ => false

/-- Whether walks never go below the node. -/
def isTerminal : Node → Bool
  | .inner .. => false
  | _ => true

/-- The text of an identifier or a literal. -/
def spelling? : Node → Option String
  | .ident i => some i.name
  | .lit l => some l.text
  | _ => none

/-- The text of a terminal node. -/
def text? : Node → Option String
  | .comments g => some g.text
  | n => n.spelling?

end Node

/-- A node and the trees below it. -/
inductive Tree where
  | node (label : Node) (children : List Tree)

/-! ### From syntax to trees -/

/-- The tree of a comment group, if there is one. -/
def commentTrees (g : Option CommentGroup) : List Tree :=
  (g.map fun g => .node (.comments g) []).toList

/-- The tree of an identifier. -/
def Ident.tree (i : Ident) : Tree := .node (.ident i) []

/-- The tree of a literal. -/
def Lit.tree (l : Lit) : Tree := .node (.lit l) []

/-- The tree of a value. -/
def Value.tree : Value → Tree
  | .bad pos => .node (.bad .expr (.ofPos pos)) []
  | .ident i => .node (.inner .expr i.pos) [i.tree]
  | .lit l => .node (.inner .expr l.pos) [l.tree]

/-- The tree of a type. -/
def TypeExpr.tree : TypeExpr → Tree
  | .bad pos => .node (.bad .type (.ofPos pos)) []
  | .basic name _ => .node (.inner .basicType name.pos) [name.tree]
  | .array pos elem size _ => .node (.inner .arrayType pos) [elem.tree, size.tree]
  | .vector pos elem _ => .node (.inner .vectorType pos) [elem.tree]
  | .map pos key value _ => .node (.inner .mapType pos) [key.tree, value.tree]
  | .named qualifier name =>
    .node (.inner .structType (qualifier.getD name).pos)
      ((qualifier.map Ident.tree).toList ++ [name.tree])

/-- The tree of a parameter. -/
def Param.tree (p : Param) : Tree :=
  .node (.inner .field p.type.begin) (p.type.tree :: (p.name.map Ident.tree).toList)

/-- The tree of the type of a member. -/
def MemberType.tree : MemberType → Tree
  | .plain t => t.tree
  | .func s =>
    .node (.inner .funcType s.opening)
      (.node (.inner .fieldList s.opening) (s.params.map Param.tree) ::
        (s.result.map TypeExpr.tree).toList)

/-- The tree of a member. -/
def Member.tree (m : Member) : Tree :=
  .node (.inner .field m.begin)
    (commentTrees m.doc ++ m.options.map Ident.tree ++ (m.type.map MemberType.tree).toList ++
      m.names.map Ident.tree ++ (m.value.map Value.tree).toList ++ (m.tag.map Lit.tree).toList ++
      commentTrees m.comment)

/-- The tree of the members of a bean. -/
def MemberList.tree (ms : MemberList) : Tree :=
  .node (.inner .fieldList ms.opening) (ms.members.map Member.tree)

/-- The tree of a bean. -/
def Bean.tree (b : Bean) : Tree :=
  .node (.inner .beanDecl b.pos)
    (commentTrees b.doc ++ [b.name.tree] ++ (b.tag.map Lit.tree).toList ++ [b.body.tree])

/-- The tree of an import. -/
def ImportSpec.tree (s : ImportSpec) : Tree :=
  .node (.inner .importSpec s.begin)
    (commentTrees s.doc ++ (s.localName.map Ident.tree).toList ++ [s.path.tree] ++
      commentTrees s.comment)

/-- The tree of a constant. -/
def ConstSpec.tree (s : ConstSpec) : Tree :=
  .node (.inner .constSpec s.begin)
    (commentTrees s.doc ++ [s.name.tree] ++ (s.value.map Value.tree).toList ++
      commentTrees s.comment)

/-- The tree of a declaration. -/
def Decl.tree : Decl → Tree
  | .bad span => .node (.bad .decl span) []
  | .imports g => .node (.inner .genDecl g.pos) (commentTrees g.doc ++ g.specs.map ImportSpec.tree)
  | .consts g => .node (.inner .genDecl g.pos) (commentTrees g.doc ++ g.specs.map ConstSpec.tree)
  | .bean b => b.tree

/-- The tree of a file. -/
def File.tree (f : File) : Tree :=
  .node (.inner .file f.packagePos) (commentTrees f.doc ++ [f.name.tree] ++ f.decls.map Decl.tree)

/-- The tree of a package. -/
def Package.tree (p : Package) : Tree :=
  .node (.inner .package p.begin) (p.files.values.map File.tree)

/-! ### Walks -/

/-- What happens on a walk. -/
inductive WalkEvent where
  | visit (depth : Nat) (n : Node)
  | enter (depth : Nat)
  | leave (depth : Nat)
  deriving DecidableEq, Repr

namespace Tree

mutual

/-- The events of a walk that starts at `depth` and goes nowhere below the nodes that `skip`
holds of. -/
def walk (skip : Node → Bool) (depth : Nat) : Tree → List WalkEvent
  | .node n children =>
    .visit depth n ::
      if skip n || n.isTerminal then []
      else .enter (depth + 1) :: walkAll skip (depth + 1) children ++ [.leave (depth + 1)]

/-- The events of walks over several trees, one after the other. -/
def walkAll (skip : Node → Bool) (depth : Nat) : List Tree → List WalkEvent
  | [] => []
  | t :: ts => walk skip depth t ++ walkAll skip depth ts

end

/-- The nodes that a walk visits, in order. -/
def visited (skip : Node → Bool) (t : Tree) : List Node :=
  (t.walk skip 0).filterMap fun
    | .visit _ n => some n
    | _ => none

/-- All nodes of a tree, in pre-order. -/
def nodes (t : Tree) : List Node := t.visited fun _ => false

/-- One line of an outline: the node, moved in by its depth. -/
def outlineLine (depth : Nat) (n : Node) : String :=
  String.ofList (List.replicate (2 * depth) ' ') ++ n.kindName ++
    (match n.spelling? with
    | some text => " " ++ text
    | none => "") ++ "\n"

/-- The nodes of a tree, one a line. -/
def outline (t : Tree) : String :=
  String.join ((t.walk (fun _ => false) 0).filterMap fun
    | .visit depth n => some (outlineLine depth n)
    | _ => none)

end Tree

end Idl
