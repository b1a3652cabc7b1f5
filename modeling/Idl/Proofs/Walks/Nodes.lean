/-
Idl/Proofs/Walks/Nodes.lean

Nodes, what is below them, and the trees of labels.

There is nothing below a terminal node (`AstNode.children_of_isTerminal`).  Since trees are finite, a
statement about nodes may be proved from the nodes to their children (`AstNode.induct`).

The trees of labels keep no more of a node than what a walk tells of it.  Every node has one
(`AstNode.tree`), and those that are made of what the parser builds are these (`File.tree_eq`,
`Package.tree_eq`).
-/
import Idl.Syntax.Ast

namespace Idl

namespace AstNode

/-- Nothing is below a terminal node. -/
theorem children_of_isTerminal {n : AstNode} (h : n.isTerminal = true) : n.children = [] := by
  cases n with
  | decl d =>
    cases d with
    | bad span => rfl
    | _ => cases h
  | spec s => cases s <;> cases h
  | type t =>
    cases t with
    | bad span => rfl
    | _ => cases h
  | expr e =>
    cases e with
    | bad span => rfl
    | _ => cases h
  | ident i => rfl
  | lit l => rfl
  | comments g => rfl
  | comment c => rfl
  | _ => cases h

/-! ### From children to nodes -/

/-- What holds of a node as soon as it holds of its children holds of all nodes. -/
@[elab_as_elim]
theorem induct {P : AstNode → Prop} (step : ∀ n, (∀ c ∈ n.children, P c) → P n) (n : AstNode) :
    P n :=
  step n fun c _hc => induct step c
termination_by sizeOf n
decreasing_by exact sizeOf_lt _hc

/-! ### Trees of labels -/

/-- The tree of the labels of a node and of what is below it. -/
def tree (n : AstNode) : Tree := .node n.label (n.children.attach.map fun c => c.1.tree)
termination_by sizeOf n
decreasing_by exact sizeOf_lt c.2

theorem tree_eq (n : AstNode) : n.tree = .node n.label (n.children.map tree) := by
  rw [tree, List.attach_map_val]

@[simp] theorem tree_ident (i : Ident) : (ident i).tree = i.tree := tree_eq _

@[simp] theorem tree_lit (l : Lit) : (lit l).tree = l.tree := tree_eq _

@[simp] theorem tree_ofComments (g : Option CommentGroup) :
    (ofComments g).map tree = commentTrees g := by
  cases g with
  | none => rfl
  | some g => exact congrArg (fun t => [t]) (tree_eq _)

/-- Nodes of one sort have the trees of their pieces. -/
theorem tree_map {α β : Type} (node : β → AstNode) {piece : α → β} {labels : α → Tree}
    (h : ∀ a, (node (piece a)).tree = labels a) (xs : List α) :
    ((xs.map piece).map node).map tree = xs.map labels := by
  rw [List.map_map, List.map_map]
  exact List.map_congr_left fun a _ => h a

theorem tree_option {α β : Type} {node : β → AstNode} {piece : α → β} {labels : α → Tree}
    (h : ∀ a, (node (piece a)).tree = labels a) (x : Option α) :
    (((x.map piece).map node).toList).map tree = (x.map labels).toList := by
  rw [Option.toList_map, Option.toList_map, Option.toList_map]
  exact tree_map _ h x.toList

end AstNode

/-! ### The trees of what the parser builds -/

theorem Value.tree_eq (v : Value) : (AstNode.expr v.ast).tree = v.tree := by
  rw [AstNode.tree_eq]
  cases v with
  | bad pos => rfl
  | ident i => exact congrArg (fun t => Tree.node _ [t]) (AstNode.tree_ident i)
  | lit l => exact congrArg (fun t => Tree.node _ [t]) (AstNode.tree_lit l)

theorem TypeExpr.begin_ast (t : TypeExpr) : t.ast.begin = t.begin := by
  cases t <;> rfl

theorem TypeExpr.tree_eq (t : TypeExpr) : (AstNode.type t.ast).tree = t.tree := by
  induction t with
  | bad pos => exact AstNode.tree_eq _
  | basic name builtin =>
    rw [AstNode.tree_eq]
    exact congrArg (fun t => Tree.node _ [t]) (AstNode.tree_ident name)
  | array pos elem size closing ih =>
    rw [AstNode.tree_eq]
    show Tree.node _ [(AstNode.type elem.ast).tree, (AstNode.expr size.ast).tree] = _
    rw [ih, size.tree_eq]
    rfl
  | vector pos elem closing ih =>
    rw [AstNode.tree_eq]
    exact congrArg (fun t => Tree.node _ [t]) ih
  | map pos key value closing ihk ihv =>
    rw [AstNode.tree_eq]
    show Tree.node _ [(AstNode.type key.ast).tree, (AstNode.type value.ast).tree] = _
    rw [ihk, ihv]
    rfl
  | named qualifier name =>
    rw [AstNode.tree_eq]
    cases qualifier <;> simp [ast, AstNode.children, AstNode.label, Ast.TypeExpr.begin, tree]

theorem Param.tree_eq (p : Param) : (AstNode.field p.ast).tree = p.tree := by
  rw [AstNode.tree_eq]
  show Tree.node (.inner .field p.type.ast.begin) (List.map AstNode.tree _) = _
  rw [p.type.begin_ast]
  cases hname : p.name <;>
    simp [AstNode.children, AstNode.ofComments, ast, tree, hname, p.type.tree_eq]

theorem MemberType.tree_eq (t : MemberType) : (AstNode.type t.ast).tree = t.tree := by
  cases t with
  | plain t => exact t.tree_eq
  | func s =>
    have hparams : (AstNode.fieldList ⟨s.opening, s.params.map Param.ast, s.closing⟩).tree =
        .node (.inner .fieldList s.opening) (s.params.map Param.tree) := by
      rw [AstNode.tree_eq]
      exact congrArg (Tree.node _) (AstNode.tree_map _ Param.tree_eq s.params)
    have hresult := AstNode.tree_option TypeExpr.tree_eq s.result
    rw [AstNode.tree_eq]
    show Tree.node _ ((AstNode.fieldList _).tree :: List.map AstNode.tree _) = _
    rw [hparams, hresult]
    rfl

theorem MemberType.begin_ast (t : MemberType) : t.ast.begin = t.begin := by
  cases t with
  | plain t => exact t.begin_ast
  | func s => rfl

theorem Member.begin_ast (m : Member) : m.ast.begin = m.begin := by
  obtain ⟨doc, options, type, names, value, tag, comment⟩ := m
  cases options with
  | cons option options => rfl
  | nil =>
    cases type with
    | some t => exact t.begin_ast
    | none => cases names <;> rfl

theorem Member.tree_eq (m : Member) : (AstNode.field m.ast).tree = m.tree := by
  have htype := AstNode.tree_option MemberType.tree_eq m.type
  have hvalue := AstNode.tree_option Value.tree_eq m.value
  rw [AstNode.tree_eq]
  show Tree.node (.inner .field m.ast.begin) (List.map AstNode.tree _) = _
  rw [m.begin_ast]
  simp only [AstNode.children, ast, List.map_append, AstNode.tree_ofComments, htype, hvalue]
  simp [tree, Function.comp_def, Option.toList_map]

theorem MemberList.tree_eq (ms : MemberList) : (AstNode.fieldList ms.ast).tree = ms.tree := by
  rw [AstNode.tree_eq]
  exact congrArg (Tree.node _) (AstNode.tree_map _ Member.tree_eq ms.members)

theorem ImportSpec.tree_eq (s : ImportSpec) : (AstNode.spec (.imports s)).tree = s.tree := by
  rw [AstNode.tree_eq]
  simp [AstNode.children, AstNode.label, tree, Function.comp_def, Option.toList_map]

theorem ConstSpec.tree_eq (s : ConstSpec) : (AstNode.spec (.const s.ast)).tree = s.tree := by
  have hvalue := AstNode.tree_option Value.tree_eq s.value
  rw [AstNode.tree_eq]
  simp only [AstNode.children, ast, List.map_append, AstNode.tree_ofComments, hvalue]
  simp [AstNode.label, tree, begin]

theorem Decl.tree_eq (d : Decl) : (AstNode.decl d.ast).tree = d.tree := by
  rw [AstNode.tree_eq]
  cases d with
  | bad span => rfl
  | imports g =>
    have hspecs := AstNode.tree_map AstNode.spec ImportSpec.tree_eq g.specs
    simp only [AstNode.children, ast, SpecGroup.ast, List.map_append, AstNode.tree_ofComments,
      hspecs]
    rfl
  | consts g =>
    have hspecs := AstNode.tree_map AstNode.spec ConstSpec.tree_eq g.specs
    simp only [AstNode.children, ast, SpecGroup.ast, List.map_append, AstNode.tree_ofComments,
      hspecs]
    rfl
  | bean b =>
    simp only [AstNode.children, ast, List.map_append, AstNode.tree_ofComments, List.map_cons,
      List.map_nil, b.body.tree_eq, AstNode.tree_ident]
    simp [AstNode.label, tree, Bean.tree, Function.comp_def, Option.toList_map]

/-- A file has the tree of its syntax. -/
theorem File.tree_eq (f : File) : (AstNode.file f.ast).tree = f.tree := by
  have hdecls := AstNode.tree_map AstNode.decl Decl.tree_eq f.decls
  rw [AstNode.tree_eq]
  simp only [AstNode.children, ast, List.map_append, AstNode.tree_ofComments, hdecls]
  simp [AstNode.label, tree]

/-- A package has the tree of its files. -/
theorem Package.tree_eq (p : Package) : (AstNode.package p.ast).tree = p.tree := by
  have hvalues : p.ast.files.values = p.files.values.map File.ast := by
    simp [ast, NameMap.map, NameMap.values, Function.comp_def]
  have hbegin : p.ast.begin = p.begin := by
    rw [Ast.Package.begin, hvalues, List.head?_map, Option.map_map]
    rfl
  rw [AstNode.tree_eq]
  show Tree.node (.inner .package p.ast.begin) ((p.ast.files.values.map _).map _) = _
  rw [hbegin, hvalues, AstNode.tree_map _ File.tree_eq]
  rfl

end Idl
