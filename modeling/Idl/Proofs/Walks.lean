/-
Idl/Proofs/Walks.lean

Walks see everything, and each thing once.

What a file holds is listed field by field (`Ast.File.held`): its identifiers, its literals, its comment
groups, and the bad nodes that stand in for what could not be parsed.  None of them has anything below
it, and everything else in a tree is there because of them.  The terminal nodes that a walk visits are
those, in the same order (`AstNode.leaves_eq`); a child that is forgotten on the way down, or visited
twice, would break the equation.

Main result: which nodes a walk visits, how its events are nested, and what it sees of a file
(`walk_exact`).
-/
import Idl.Proofs.Walks.Places
import Mathlib.Data.List.Basic

namespace Idl

/-! ### What syntax holds -/

namespace Ast

/-- What comment groups hold. -/
def heldComments (g : Option CommentGroup) : List AstNode := g.toList.map .comments

mutual

/-- What a value holds. -/
def Expr.held : Expr → List AstNode
  | .bad span => [.expr (.bad span)]
  | .ident i => [.ident i]
  | .lit l => [.lit l]
  | .type t => t.held

/-- What a type holds. -/
def TypeExpr.held : TypeExpr → List AstNode
  | .bad span => [.type (.bad span)]
  | .basic name _ => [.ident name]
  | .array _ elem size _ => elem.held ++ size.held
  | .vector _ elem _ => elem.held
  | .map _ key value _ => key.held ++ value.held
  | .named qualifier name => qualifier.toList.map .ident ++ [.ident name]
  | .func params none => params.held
  | .func params (some result) => params.held ++ result.held

/-- What a field holds. -/
def Field.held : Field → List AstNode
  | ⟨doc, options, type, names, value, tag, comment⟩ =>
    heldComments doc ++ options.map .ident ++ (match type with | some t => t.held | none => []) ++
      names.map .ident ++ (match value with | some v => v.held | none => []) ++
      tag.toList.map .lit ++ heldComments comment

/-- What fields hold. -/
def FieldList.held : FieldList → List AstNode
  | ⟨_, fields, _⟩ => fields.flatMap Field.held

end

/-- What a bean holds. -/
def BeanDecl.held (b : BeanDecl) : List AstNode :=
  heldComments b.doc ++ [.ident b.name] ++ b.tag.toList.map .lit ++ b.fields.held

/-- What an import or a constant holds. -/
def Spec.held : Spec → List AstNode
  | .imports s =>
    heldComments s.doc ++ s.localName.toList.map .ident ++ [.lit s.path] ++ heldComments s.comment
  | .const s =>
    heldComments s.doc ++ [.ident s.name] ++ s.value.toList.flatMap Expr.held ++
      heldComments s.comment

/-- What a declaration holds. -/
def Decl.held : Decl → List AstNode
  | .bad span => [.decl (.bad span)]
  | .gen g => heldComments g.doc ++ g.specs.flatMap Spec.held
  | .bean b => b.held

/-- What the doc, the name and the declarations of a file hold. -/
def File.held (f : File) : List AstNode :=
  heldComments f.doc ++ [.ident f.name] ++ f.decls.flatMap Decl.held

end Ast

/-! ### Terminal nodes -/

namespace AstNode

/-- A walk visits the same nodes at every depth. -/
theorem visits_depth (skip : AstNode → Bool) (n : AstNode) (d d' : Nat) :
    visits (n.walk skip d) = visits (n.walk skip d') := by
  induction n using induct generalizing d d' with
  | step n ih =>
    cases h : (skip n || n.isTerminal) with
    | true => rw [visits_closed skip h, visits_closed skip h]
    | false =>
      rw [visits_open skip h, visits_open skip h]
      exact congrArg (n :: ·) (List.flatMap_congr fun c hc => ih c hc (d + 1) (d' + 1))

/-- The terminal nodes that a walk visits which skips nothing. -/
def leaves (n : AstNode) : List AstNode := (visits (n.walk (fun _ => false) 0)).filter isTerminal

theorem leaves_of_isTerminal {n : AstNode} (h : n.isTerminal = true) : n.leaves = [n] := by
  unfold leaves
  rw [visits_closed _ (by rw [h]; rfl), List.filter_cons_of_pos h, List.filter_nil]

/-- The terminal nodes below an inner node are those below its children. -/
theorem leaves_inner {n : AstNode} (h : n.isTerminal = false) :
    n.leaves = n.children.flatMap leaves := by
  have hbelow : (n.children.flatMap fun c => visits (c.walk (fun _ => false) (0 + 1))) =
      n.children.flatMap fun c => visits (c.walk (fun _ => false) 0) :=
    List.flatMap_congr fun c _ => visits_depth _ c _ _
  unfold leaves
  rw [visits_open _ (by rw [h]; rfl), hbelow,
    List.filter_cons_of_neg (by rw [h]; exact Bool.false_ne_true), List.filter_flatMap]

/-- What a node holds. -/
def held : AstNode → List AstNode
  | .package p => p.files.values.flatMap Ast.File.held
  | .file f => f.held
  | .decl d => d.held
  | .spec s => s.held
  | .fieldList fs => fs.held
  | .field f => f.held
  | .type t => t.held
  | .expr e => e.held
  | n@(.ident _) | n@(.lit _) | n@(.comments _) | n@(.comment _) => [n]

/-- A terminal node holds itself. -/
theorem held_of_isTerminal {n : AstNode} (h : n.isTerminal = true) : n.held = [n] := by
  cases n with
  | decl d =>
    cases d with
    | bad span => rfl
    | _ => cases h
  | spec s => cases s <;> cases h
  | type t =>
    cases t with
    | bad span => exact Ast.TypeExpr.held.eq_def _
    | _ => cases h
  | expr e =>
    cases e with
    | bad span => exact Ast.Expr.held.eq_def _
    | _ => cases h
  | ident i => rfl
  | lit l => rfl
  | comments g => rfl
  | comment c => rfl
  | _ => cases h

@[simp] theorem held_ofComments (g : Option CommentGroup) :
    (ofComments g).flatMap held = Ast.heldComments g := by
  cases g <;> rfl

@[simp] theorem held_idents (is : List Ident) : (is.map ident).flatMap held = is.map ident := by
  rw [List.flatMap_map]
  exact List.flatMap_pure_eq_map ident is

@[simp] theorem held_ident? (i : Option Ident) :
    (i.map ident).toList.flatMap held = i.toList.map ident := by
  cases i <;> rfl

@[simp] theorem held_lit? (l : Option Lit) :
    (l.map lit).toList.flatMap held = l.toList.map lit := by
  cases l <;> rfl

/-- An inner node holds what its children hold. -/
theorem held_inner {n : AstNode} (h : n.isTerminal = false) : n.held = n.children.flatMap held := by
  -- one case for each kind of node, and below it one for each child that may be missing
  cases n with
  | package p =>
    show p.files.values.flatMap Ast.File.held = _
    rw [children, List.flatMap_map]
    rfl
  | file f => simp [held, children, Ast.File.held, List.flatMap_map]
  | decl d =>
    cases d with
    | bad span => cases h
    | gen g => simp [held, children, Ast.Decl.held, List.flatMap_map]
    | bean b => simp [held, children, Ast.Decl.held, Ast.BeanDecl.held]
  | spec s =>
    cases s with
    | imports s => simp [held, children, Ast.Spec.held]
    | const s => cases hvalue : s.value <;> simp [held, children, Ast.Spec.held, hvalue]
  | fieldList fs =>
    obtain ⟨opening, fields, closing⟩ := fs
    show Ast.FieldList.held _ = _
    rw [Ast.FieldList.held, children, List.flatMap_map]
    rfl
  | field f =>
    obtain ⟨doc, options, type, names, value, tag, comment⟩ := f
    show Ast.Field.held _ = _
    rw [Ast.Field.held.eq_def]
    cases type <;> cases value <;> simp [held, children]
  | type t =>
    show Ast.TypeExpr.held t = _
    cases t with
    | bad span => cases h
    | func params result => cases result <;> simp [held, children, Ast.TypeExpr.held]
    | _ => simp [held, children, Ast.TypeExpr.held]
  | expr e =>
    show Ast.Expr.held e = _
    cases e with
    | bad span => cases h
    | _ => simp [held, children, Ast.Expr.held]
  | _ => cases h

/-- The terminal nodes that a walk visits are what its node holds. -/
theorem leaves_eq (n : AstNode) : n.leaves = n.held := by
  induction n using induct with
  | step n ih =>
    cases h : n.isTerminal with
    | true => rw [leaves_of_isTerminal h, held_of_isTerminal h]
    | false =>
      rw [leaves_inner h, held_inner h]
      exact List.flatMap_congr ih

end AstNode

/-- **Walks visit everything, and once.**  Of any node, and with any choice of nodes not to look below:
* the nodes visited are those at the places with nothing skipped above them, in pre-order;
* the events are the one tour over the node, in which entering and leaving enclose the children of
  each visited node that is neither skipped nor terminal, and nothing else;
* the walk ends at the depth at which it starts;
* if nothing is skipped, the identifiers, literals, comment groups and bad nodes that are visited in a
  file are what its doc, name and declarations hold;
* if labels decide, it is the walk over the tree of labels, and the trees of the files and packages that are
  built by the parser and the linker are these. -/
theorem walk_exact (n : AstNode) (skip : AstNode → Bool) (depth : Nat) :
    (∃ places, n.Listed skip places (visits (n.walk skip depth))) ∧
      (∀ es, Tour.Run skip depth ⟨[[n]], none⟩ es ⟨[[]], none⟩ ↔ es = n.walk skip depth) ∧
      depthAfter depth (n.walk skip depth) = depth ∧
      (∀ f : Ast.File, (visits ((AstNode.file f).walk (fun _ => false) depth)).filter
        AstNode.isTerminal = f.held) ∧
      (∀ skipLabel : Node → Bool, (∀ m, skip m = skipLabel m.label) →
        n.tree.walk skipLabel depth = (n.walk skip depth).map AstEvent.labelled) ∧
      (∀ f : File, (AstNode.file f.ast).tree = f.tree) ∧
      ∀ p : Package, (AstNode.package p.ast).tree = p.tree := by
  refine ⟨n.visits_walk_listed skip depth, n.walk_tour skip depth, n.depthAfter_walk skip depth depth,
    fun f => ?_, fun skipLabel h => n.walk_tree skip h depth, File.tree_eq, Package.tree_eq⟩
  rw [AstNode.visits_depth _ _ depth 0]
  exact AstNode.leaves_eq (.file f)

end Idl
