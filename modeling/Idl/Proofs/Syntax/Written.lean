/-
Idl/Proofs/Syntax/Written.lean

What a file writes: its names and literals, in the order of the source.

`File.written` lists the identifiers and literals of a syntax tree as they stand in the source, each
one as an `Occurrence`; a container type leaves no identifier behind, only a position, and stands in
the list with the word that heads it.  A constant without a value of its own has a copy of an earlier
value, which is written nowhere; `File.own` takes such copies out.

Main results: what a file writes is what the nodes of its tree show (`File.shown_tree`), and the
copies show nothing that is not written (`File.mem_shown_own`).
-/
import Idl.Proofs.Nodes
import Mathlib.Data.List.Perm.Basic

namespace Idl

/-! ### Occurrences -/

/-- What something in the source is to the syntax. -/
inductive Role where
  | name
  /-- A word before a field that says whether it is required. -/
  | option
  /-- The period in place of the name of an import. -/
  | dot
  | lit (k : LitKind)
  deriving DecidableEq, Repr

/-- What stands at a place in the source. -/
structure Occurrence where
  role : Role
  text : String
  pos : Pos
  deriving DecidableEq, Repr

/-- The role of a token of the kind, if a tree may show it. -/
def TokenKind.role? : TokenKind → Option Role
  | .ident => some .name
  | .int => some (.lit .int)
  | .float => some (.lit .float)
  | .string => some (.lit .string)
  | .keyword .required | .keyword .optional => some .option
  | .punct .period => some .dot
  | _ => none

/-- The token as an occurrence, if a tree may show it. -/
def Token.occurrence? (t : Token) : Option Occurrence := t.kind.role?.map (⟨·, t.text, t.pos⟩)

/-- An identifier with a role. -/
def Ident.occurrence (role : Role) (i : Ident) : Occurrence := ⟨role, i.name, i.pos⟩

/-- A literal. -/
def Lit.occurrence (l : Lit) : Occurrence := ⟨.lit l.kind, l.text, l.pos⟩

/-! ### What syntax writes -/

/-- What a value writes. -/
def Value.written : Value → List Occurrence
  | .bad _ => []
  | .ident i => [i.occurrence .name]
  | .lit l => [l.occurrence]

/-- What a type writes. -/
def TypeExpr.written : TypeExpr → List Occurrence
  | .bad _ => []
  | .basic name _ => [name.occurrence .name]
  | .array pos elem size _ => ⟨.name, Builtin.array.name, pos⟩ :: (elem.written ++ size.written)
  | .vector pos elem _ => ⟨.name, Builtin.vector.name, pos⟩ :: elem.written
  | .map pos key value _ => ⟨.name, Builtin.map.name, pos⟩ :: (key.written ++ value.written)
  | .named qualifier name => (qualifier.toList ++ [name]).map (Ident.occurrence .name)

/-- What a parameter writes. -/
def Param.written (p : Param) : List Occurrence :=
  p.type.written ++ p.name.toList.map (Ident.occurrence .name)

/-- What parameters and result write. -/
def Signature.written (s : Signature) : List Occurrence :=
  s.params.flatMap Param.written ++ s.result.toList.flatMap TypeExpr.written

/-- What the type and the names of a member write.  The name of a method stands in front of its
parameters, those of fields behind their type. -/
def MemberType.writtenWith (names : List Occurrence) : MemberType → List Occurrence
  | .plain t => t.written ++ names
  | .func s => names ++ s.written

/-- What a member writes. -/
def Member.written (m : Member) : List Occurrence :=
  let names := m.names.map (Ident.occurrence .name)
  m.options.map (Ident.occurrence .option) ++
    (m.type.map (MemberType.writtenWith names)).getD names ++
    m.value.toList.flatMap Value.written ++ m.tag.toList.map Lit.occurrence

/-- What a bean writes. -/
def Bean.written (b : Bean) : List Occurrence :=
  b.name.occurrence .name :: b.tag.toList.map Lit.occurrence ++
    b.body.members.flatMap Member.written

/-- What the name of an import is. -/
def Ident.importRole (i : Ident) : Role := if i.name = "." then .dot else .name

/-- What an import writes. -/
def ImportSpec.written (s : ImportSpec) : List Occurrence :=
  s.localName.toList.map (fun i => i.occurrence i.importRole) ++ [s.path.occurrence]

/-- What a constant writes. -/
def ConstSpec.written (s : ConstSpec) : List Occurrence :=
  s.name.occurrence .name :: s.value.toList.flatMap Value.written

/-- What a declaration writes. -/
def Decl.written : Decl → List Occurrence
  | .bad _ => []
  | .imports g => g.specs.flatMap ImportSpec.written
  | .consts g => g.specs.flatMap ConstSpec.written
  | .bean b => b.written

/-- What a file writes. -/
def File.written (f : File) : List Occurrence :=
  f.name.occurrence .name :: f.decls.flatMap Decl.written

/-! ### Values that are not copied -/

/-- The constants of a group without the values that they have from the one before, where `previous`
is the value that stands before them. -/
def ownSpecs (previous : Option Value) : List ConstSpec → List ConstSpec
  | [] => []
  | s :: ss =>
    { s with value := if s.value = previous then none else s.value } :: ownSpecs s.value ss

/-- The declaration without copies of values. -/
def Decl.own : Decl → Decl
  | .consts g => .consts { g with specs := ownSpecs none g.specs }
  | d => d

/-- The file without copies of values. -/
def File.own (f : File) : File := { f with decls := f.decls.map Decl.own }

/-- The value that a group of constants ends with. -/
def lastValue (previous : Option Value) (ss : List ConstSpec) : Option Value :=
  (ss.getLast?.map (·.value)).getD previous

theorem lastValue_concat (previous : Option Value) (ss : List ConstSpec) (s : ConstSpec) :
    lastValue previous (ss ++ [s]) = s.value := by
  simp [lastValue]

/-- A further constant may have the value that the ones before it end with. -/
theorem ownSpecs_concat (previous : Option Value) (ss : List ConstSpec) (s : ConstSpec) :
    ownSpecs previous (ss ++ [s]) = ownSpecs previous ss ++
      [{ s with value := if s.value = lastValue previous ss then none else s.value }] := by
  induction ss generalizing previous with
  | nil => rfl
  | cons x ss ih =>
    have hlast : lastValue x.value ss = lastValue previous (x :: ss) := by
      unfold lastValue
      cases h : ss.getLast? with
      | none => simp [List.getLast?_eq_none_iff.1 h]
      | some y => simp [List.getLast?_cons, h]
    rw [List.cons_append, ownSpecs, ih, hlast, ownSpecs, List.cons_append]

/-! ### What nodes show -/

/-- The node as an occurrence, if it shows one.  A node does not tell an identifier from what is used
like one, and a container shows the word that heads it. -/
def Node.occurrence? : Node → Option Occurrence
  | .ident i => some (i.occurrence .name)
  | .lit l => some l.occurrence
  | .inner .arrayType p => some ⟨.name, Builtin.array.name, p⟩
  | .inner .vectorType p => some ⟨.name, Builtin.vector.name, p⟩
  | .inner .mapType p => some ⟨.name, Builtin.map.name, p⟩
  | _ => none

/-- What the nodes of a tree show, in pre-order. -/
def Tree.shown (t : Tree) : List Occurrence := t.collect Node.occurrence?

/-- What a node shows of an occurrence. -/
def Occurrence.asNode (o : Occurrence) : Occurrence :=
  match o.role with
  | .lit _ => o
  | _ => { o with role := .name }

@[simp] theorem Ident.asNode_name : Occurrence.asNode ∘ occurrence .name = occurrence .name := rfl

@[simp] theorem Ident.asNode_option :
    Occurrence.asNode ∘ occurrence .option = occurrence .name := rfl

@[simp] theorem Ident.asNode_importRole (i : Ident) :
    (i.occurrence i.importRole).asNode = i.occurrence .name := by
  unfold importRole
  split <;> rfl

@[simp] theorem Lit.asNode_comp : Occurrence.asNode ∘ occurrence = occurrence := rfl

@[simp] theorem Ident.asNode_occurrence (i : Ident) :
    (i.occurrence .name).asNode = i.occurrence .name := rfl

@[simp] theorem Lit.asNode_occurrence (l : Lit) : l.occurrence.asNode = l.occurrence := rfl

namespace Tree

theorem shown_inner (k : NodeKind) (p : Pos) (children : List Tree) :
    (node (.inner k p) children).shown =
      (Node.inner k p).occurrence?.toList ++ children.flatMap shown := collect_node ..

@[simp] theorem shown_bad (what : BadNode) (span : Span) (children : List Tree) :
    (node (.bad what span) children).shown = [] := collect_node ..

@[simp] theorem shown_ident (i : Ident) : i.tree.shown = [i.occurrence .name] := collect_node ..

@[simp] theorem shown_lit (l : Lit) : l.tree.shown = [l.occurrence] := collect_node ..

@[simp] theorem shown_comments (g : Option CommentGroup) : (commentTrees g).flatMap shown = [] := by
  cases g with
  | none => rfl
  | some g => exact (List.append_nil _).trans (collect_node ..)

@[simp] theorem shown_idents (is : List Ident) :
    (is.map Ident.tree).flatMap shown = is.map (Ident.occurrence .name) := by
  rw [List.flatMap_map]
  simp only [shown_ident]
  exact List.flatMap_pure_eq_map _ is

@[simp] theorem shown_lit? (l : Option Lit) :
    (l.map Lit.tree).toList.flatMap shown = l.toList.map Lit.occurrence := by
  cases l <;> simp

end Tree

theorem Value.shown_tree (v : Value) : v.tree.shown = v.written.map Occurrence.asNode := by
  cases v <;> simp [tree, written, Tree.shown_inner, Node.occurrence?]

theorem Value.shown_optional (v : Option Value) : (v.map tree).toList.flatMap Tree.shown =
    (v.toList.flatMap written).map Occurrence.asNode := by
  cases v <;> simp [shown_tree]

theorem TypeExpr.shown_tree (t : TypeExpr) : t.tree.shown = t.written.map Occurrence.asNode := by
  induction t with
  | bad pos => simp [tree, written]
  | basic name b => simp [tree, written, Tree.shown_inner, Node.occurrence?]
  | array pos elem size closing ih =>
    simp [tree, written, Tree.shown_inner, Node.occurrence?, ih, size.shown_tree, Occurrence.asNode]
  | vector pos elem closing ih =>
    simp [tree, written, Tree.shown_inner, Node.occurrence?, ih, Occurrence.asNode]
  | map pos key value closing ihk ihv =>
    simp [tree, written, Tree.shown_inner, Node.occurrence?, ihk, ihv, Occurrence.asNode]
  | named qualifier name =>
    cases qualifier <;> simp [tree, written, Tree.shown_inner, Node.occurrence?]

theorem Param.shown_tree (p : Param) : p.tree.shown = p.written.map Occurrence.asNode := by
  cases hn : p.name <;>
    simp [tree, written, Tree.shown_inner, Node.occurrence?, p.type.shown_tree, hn]

theorem Signature.shown_tree (s : Signature) :
    (MemberType.func s).tree.shown = s.written.map Occurrence.asNode := by
  cases hr : s.result <;>
    simp [MemberType.tree, written, Tree.shown_inner, Node.occurrence?, List.flatMap_map,
      List.map_flatMap, Param.shown_tree, TypeExpr.shown_tree, hr]

/-- In a tree, names stand behind the type, also behind that of a method. -/
theorem MemberType.shown_tree (t : MemberType) (names : List Ident) :
    (t.tree.shown ++ names.map (Ident.occurrence .name)).Perm
      ((t.writtenWith (names.map (Ident.occurrence .name))).map Occurrence.asNode) := by
  cases t with
  | plain t => simp [tree, writtenWith, t.shown_tree]
  | func s => simpa [writtenWith, s.shown_tree] using List.perm_append_comm

theorem Member.shown_tree (m : Member) :
    m.tree.shown.Perm (m.written.map Occurrence.asNode) := by
  have htype : ((m.type.map MemberType.tree).toList.flatMap Tree.shown ++
      m.names.map (Ident.occurrence .name)).Perm
      (((m.type.map (MemberType.writtenWith (m.names.map (Ident.occurrence .name)))).getD
        (m.names.map (Ident.occurrence .name))).map Occurrence.asNode) := by
    cases m.type with
    | none => simp
    | some t => simpa using t.shown_tree m.names
  have hall := ((List.Perm.refl (m.options.map (Ident.occurrence .name))).append htype).append_right
    (m.value.toList.flatMap Value.written |>.map Occurrence.asNode)
  have hall := hall.append_right (m.tag.toList.map Lit.occurrence)
  simpa [tree, written, Tree.shown_inner, Node.occurrence?, Value.shown_optional] using hall

/-- Trees that show what is written, up to order, do so together. -/
theorem perm_flatMap {α : Type} {tree : α → Tree} {written : α → List Occurrence}
    (h : ∀ a, (tree a).shown.Perm ((written a).map Occurrence.asNode)) (xs : List α) :
    (xs.flatMap fun a => (tree a).shown).Perm ((xs.flatMap written).map Occurrence.asNode) := by
  rw [List.map_flatMap]
  exact List.Perm.flatMap_left xs fun a _ => h a

theorem Bean.shown_tree (b : Bean) : b.tree.shown.Perm (b.written.map Occurrence.asNode) := by
  have hmembers := perm_flatMap Member.shown_tree b.body.members
  have hall := (hmembers.append_left (b.tag.toList.map Lit.occurrence)).cons
    (b.name.occurrence .name)
  simpa [tree, written, MemberList.tree, Tree.shown_inner, Node.occurrence?, List.flatMap_map]
    using hall

theorem ImportSpec.shown_tree (s : ImportSpec) :
    s.tree.shown = s.written.map Occurrence.asNode := by
  cases hn : s.localName <;> simp [tree, written, Tree.shown_inner, Node.occurrence?, hn]

theorem ConstSpec.shown_tree (s : ConstSpec) :
    s.tree.shown = s.written.map Occurrence.asNode := by
  simp [tree, written, Tree.shown_inner, Node.occurrence?, Value.shown_optional]

theorem Decl.shown_tree (d : Decl) : d.tree.shown.Perm (d.written.map Occurrence.asNode) := by
  cases d with
  | bad span => simp [tree, written]
  | imports g =>
    simp [tree, written, Tree.shown_inner, Node.occurrence?, List.flatMap_map, List.map_flatMap,
      ImportSpec.shown_tree]
  | consts g =>
    simp [tree, written, Tree.shown_inner, Node.occurrence?, List.flatMap_map, List.map_flatMap,
      ConstSpec.shown_tree]
  | bean b => exact b.shown_tree

/-- The nodes of a tree show what the file writes, and each of it once. -/
theorem File.shown_tree (f : File) : f.tree.shown.Perm (f.written.map Occurrence.asNode) := by
  have hall := (perm_flatMap Decl.shown_tree f.decls).cons (f.name.occurrence .name)
  simpa [tree, written, Tree.shown_inner, Node.occurrence?, List.flatMap_map] using hall

/-! ### What copies show -/

/-- What a constant has from the one before stands there or before that. -/
theorem mem_written_ownSpecs {o : Occurrence} {previous : Option Value} {ss : List ConstSpec}
    (h : o ∈ ss.flatMap ConstSpec.written) :
    o ∈ previous.toList.flatMap Value.written ∨ o ∈ (ownSpecs previous ss).flatMap ConstSpec.written := by
  induction ss generalizing previous with
  | nil => cases h
  | cons s ss ih =>
    -- what the value shows is written by the constant, unless it is the value before
    have hvalue (hv : o ∈ s.value.toList.flatMap Value.written) :
        o ∈ previous.toList.flatMap Value.written ∨
          o ∈ (ownSpecs previous (s :: ss)).flatMap ConstSpec.written := by
      by_cases hp : s.value = previous
      · exact .inl (hp ▸ hv)
      · refine .inr (List.mem_append_left _ ?_)
        rw [if_neg hp]
        exact List.mem_cons_of_mem _ hv
    rw [List.flatMap_cons, List.mem_append] at h
    rcases h with h | h
    · rcases List.mem_cons.1 h with rfl | hv
      · exact .inr List.mem_cons_self
      · exact hvalue hv
    · have hrest : o ∈ s.value.toList.flatMap Value.written ∨
          o ∈ (ownSpecs s.value ss).flatMap ConstSpec.written := ih h
      rcases hrest with hv | hs
      · exact hvalue hv
      · exact .inr (List.mem_append_right _ hs)

theorem written_ownSpecs_subset {previous : Option Value} {ss : List ConstSpec} :
    (ownSpecs previous ss).flatMap ConstSpec.written ⊆ ss.flatMap ConstSpec.written := by
  induction ss generalizing previous with
  | nil => exact List.Subset.refl _
  | cons s ss ih =>
    refine List.append_subset.2 ⟨?_, fun o ho => List.mem_append_right _ (ih ho)⟩
    refine fun o ho => List.mem_append_left _ ?_
    rcases List.mem_cons.1 ho with rfl | ho
    · exact List.mem_cons_self
    · split at ho
      · cases ho
      · exact List.mem_cons_of_mem _ ho

/-- The declaration without copies writes all that the declaration shows. -/
theorem Decl.mem_written_own {d : Decl} {o : Occurrence} : o ∈ d.own.written ↔ o ∈ d.written := by
  cases d with
  | consts g =>
    exact ⟨fun h => written_ownSpecs_subset h, fun h => (mem_written_ownSpecs h).resolve_left nofun⟩
  | _ => exact .rfl

theorem File.mem_written_own {f : File} {o : Occurrence} : o ∈ f.own.written ↔ o ∈ f.written := by
  have hdecls : o ∈ (f.decls.map Decl.own).flatMap Decl.written ↔ o ∈ f.decls.flatMap Decl.written := by
    rw [List.flatMap_map]
    simp only [List.mem_flatMap, Decl.mem_written_own]
  exact List.mem_cons.trans ((or_congr_right hdecls).trans List.mem_cons.symm)

/-- Nothing that is shown is shown by copies only. -/
theorem File.mem_shown_own {f : File} {o : Occurrence} :
    o ∈ f.own.tree.shown ↔ o ∈ f.tree.shown := by
  simp [f.shown_tree.mem_iff, f.own.shown_tree.mem_iff, mem_written_own]

end Idl
