/-
Idl/Proofs/Ir/Placed.lean

Lowering does not see where a file stands.

Lowering reads the names, texts and numbers of a tree, but none of its positions: a placed tree is
lowered like the tree itself (`Bean.lower_placed`), and what there is to say about it is said at the
placed positions (`Bean.warnings_placed`, `File.bads_placed`).  What the names of a file stand for
matters in two ways only, as sizes of arrays and as packages of qualifiers, so two files that agree
on these are lowered alike (`Bean.lower_congr`).
-/
import Idl.Proofs.Ir.Clean

namespace Idl

/-! ### Bad nodes -/

@[simp] theorem flatMap_nothing {α β : Type} (xs : List α) :
    (xs.flatMap fun _ => ([] : List β)) = [] :=
  List.flatMap_eq_nil_iff.2 fun _ _ => rfl

/-- What the node stands in for, and its span, if it is bad. -/
def Node.bad? : Node → Option (BadNode × Span)
  | .bad what span => some (what, span)
  | _ => none

/-- The bad nodes of a tree. -/
def Tree.bads (t : Tree) : List (BadNode × Span) := t.nodes.filterMap Node.bad?

/-- The warning about a bad node. -/
def BadNode.warning (x : BadNode × Span) : Diagnostic :=
  .warning ("malformed " ++ x.1.text ++ " lowered as invalid")
    ⟨x.2.start, max x.2.stop x.2.start⟩

theorem badNodeWarning?_eq (n : Node) : badNodeWarning? n = n.bad?.map BadNode.warning := by
  cases n <;> rfl

namespace Tree

@[simp] theorem bads_inner (k : NodeKind) (p : Pos) (children : List Tree) :
    (node (.inner k p) children).bads = children.flatMap bads := by
  unfold bads nodes
  rw [visited_node, List.filterMap_cons_none (f := Node.bad?) rfl]
  exact List.filterMap_flatMap ..

@[simp] theorem bads_bad (what : BadNode) (span : Span) :
    (node (.bad what span) []).bads = [(what, span)] := by
  unfold bads nodes
  rw [visited_node]
  rfl

@[simp] theorem bads_comments (g : Option CommentGroup) : (commentTrees g).flatMap bads = [] := by
  refine List.flatMap_eq_nil_iff.2 fun t ht => ?_
  obtain ⟨g, -, rfl⟩ := Option.map_eq_some_iff.1 (Option.mem_toList.1 ht)
  unfold bads nodes
  rw [visited_node]
  rfl

end Tree

@[simp] theorem Ident.bads_tree (i : Ident) : i.tree.bads = [] := by
  unfold Ident.tree Tree.bads Tree.nodes
  rw [Tree.visited_node]
  rfl

@[simp] theorem Lit.bads_tree (l : Lit) : l.tree.bads = [] := by
  unfold Lit.tree Tree.bads Tree.nodes
  rw [Tree.visited_node]
  rfl

/-- What there is to say about a file, if its names stand for what they stand for in `names`. -/
def File.remarks (f : File) (env : LowerEnv) (names : File) : List Diagnostic :=
  f.tree.bads.map BadNode.warning ++
    (f.decls.filterMap Decl.bean?).flatMap (Bean.warnings env names)

/-- The warnings about a file are those about its bad nodes and those about its beans. -/
theorem File.warnings_eq (env : LowerEnv) (f : File) : f.warnings env = f.remarks env f := by
  unfold warnings remarks Tree.bads
  rw [List.map_filterMap]
  congr 2
  funext n
  exact badNodeWarning?_eq n

theorem Tree.mem_bads {t : Tree} {x : BadNode × Span} (h : x ∈ t.bads) : .bad x.1 x.2 ∈ t.nodes := by
  obtain ⟨n, hn, hx⟩ := List.mem_filterMap.1 h
  cases n with
  | bad what span =>
    rw [← Option.some.inj hx]
    exact hn
  | _ => cases hx

/-- What is said about a file is said about places of its account. -/
theorem File.remarks_covers (env : LowerEnv) (f names : File) (scope : ScopeId) :
    ∀ d ∈ f.remarks env names, (f.account scope).Covers d.span.start := by
  intro d hd
  rcases List.mem_append.1 hd with hd | hd
  · obtain ⟨x, hx, rfl⟩ := List.mem_map.1 hd
    show (f.account scope).Covers x.2.start
    exact f.covers_bad scope (Tree.mem_bads hx)
  · exact File.beanWarnings_covers env names f scope d hd

/-! ### Placed trees -/

section Placed

variable (ρ : Placement)

/-- A bad node of the placed file. -/
def BadNode.placed (x : BadNode × Span) : BadNode × Span :=
  (x.1, ⟨ρ.pos x.2.start, ρ.pos x.2.stop⟩)

theorem BadNode.warning_placed {x : BadNode × Span} (h : x.2.start ≠ 0) :
    BadNode.warning (BadNode.placed ρ x) = (BadNode.warning x).placed ρ := by
  obtain ⟨what, start, stop⟩ := x
  have hspan : (⟨ρ.pos start, max (ρ.pos stop) (ρ.pos start)⟩ : Span) =
      Span.placed ρ ⟨start, max stop start⟩ := by
    unfold Span.placed Placement.pos
    rw [if_neg h, if_neg h]
    rw [Span.mk.injEq]
    refine ⟨rfl, ?_⟩
    show max (if stop = 0 then 0 else stop + ρ.shift) (start + ρ.shift) = max stop start + ρ.shift
    unfold Pos at *
    split <;> omega
  exact congrArg (Diagnostic.warning _) hspan

theorem Value.bads_placed (v : Value) :
    (v.placed ρ).tree.bads = v.tree.bads.map (BadNode.placed ρ) := by
  cases v <;> simp [Value.placed, Value.tree, BadNode.placed, Span.ofPos]

theorem TypeExpr.bads_placed (t : TypeExpr) :
    (t.placed ρ).tree.bads = t.tree.bads.map (BadNode.placed ρ) := by
  induction t with
  | bad p => simp [placed, tree, BadNode.placed, Span.ofPos]
  | basic name b => simp [placed, tree]
  | array p elem size closing ih => simp [placed, tree, ih, size.bads_placed ρ]
  | vector p elem closing ih => simp [placed, tree, ih]
  | map p key value closing ihk ihv => simp [placed, tree, ihk, ihv]
  | named qualifier name => cases qualifier <;> simp [placed, tree]

theorem Param.bads_placed (p : Param) :
    (p.placed ρ).tree.bads = p.tree.bads.map (BadNode.placed ρ) := by
  obtain ⟨type, name⟩ := p
  cases name <;> simp [placed, tree, type.bads_placed ρ]

theorem MemberType.bads_placed (t : MemberType) :
    (t.placed ρ).tree.bads = t.tree.bads.map (BadNode.placed ρ) := by
  cases t with
  | plain t => exact t.bads_placed ρ
  | func sig =>
    cases h : sig.result <;>
      simp [placed, Signature.placed, tree, h, TypeExpr.bads_placed, Param.bads_placed,
        List.flatMap_map, List.map_flatMap]

theorem Member.bads_placed (m : Member) :
    (m.placed ρ).tree.bads = m.tree.bads.map (BadNode.placed ρ) := by
  obtain ⟨doc, options, type, names, value, tag, comment⟩ := m
  cases type <;> cases value <;> cases tag <;>
    simp [placed, tree, MemberType.bads_placed, Value.bads_placed, List.flatMap_map]

theorem Bean.bads_placed (b : Bean) :
    (b.placed ρ).tree.bads = b.tree.bads.map (BadNode.placed ρ) := by
  obtain ⟨kind, pos, doc, name, tag, body⟩ := b
  cases tag <;>
    simp [placed, tree, MemberList.placed, MemberList.tree, Member.bads_placed,
      List.flatMap_map, List.map_flatMap]

theorem ImportSpec.bads_tree (s : ImportSpec) : s.tree.bads = [] := by
  obtain ⟨doc, localName, path, comment⟩ := s
  cases localName <;> simp [tree]

theorem ConstSpec.bads_placed (s : ConstSpec) :
    (s.placed ρ).tree.bads = s.tree.bads.map (BadNode.placed ρ) := by
  obtain ⟨doc, name, value, comment⟩ := s
  cases value <;> simp [placed, tree, Value.bads_placed]

theorem Decl.bads_placed (d : Decl) :
    (d.placed ρ).tree.bads = d.tree.bads.map (BadNode.placed ρ) := by
  cases d with
  | bad span => simp [placed, tree, BadNode.placed]
  | imports g =>
    simp [placed, tree, SpecGroup.placed, ImportSpec.bads_tree, List.flatMap_map]
  | consts g =>
    simp [placed, tree, SpecGroup.placed, ConstSpec.bads_placed, List.flatMap_map,
      List.map_flatMap]
  | bean b => exact b.bads_placed ρ

/-- The bad nodes of a placed file are the placed ones of the file. -/
theorem File.bads_placed (f : File) :
    (f.placed ρ).tree.bads = f.tree.bads.map (BadNode.placed ρ) := by
  simp [placed, tree, Decl.bads_placed, List.flatMap_map, List.map_flatMap]

/-! ### What does not depend on names -/

@[simp] theorem lowerDoc_placed (g : Option CommentGroup) :
    lowerDoc (g.map (CommentGroup.placed ρ)) = lowerDoc g := by
  cases g <;> simp [lowerDoc]

@[simp] theorem lowerComment_placed (g : Option CommentGroup) :
    lowerComment (g.map (CommentGroup.placed ρ)) = lowerComment g := by
  cases g <;> simp [lowerComment]

@[simp] theorem lowerTag_placed (l : Option Lit) : lowerTag (l.map (Lit.placed ρ)) = lowerTag l := by
  cases l <;> rfl

@[simp] theorem Value.lower_placed (v : Value) : (v.placed ρ).lower = v.lower := by
  cases v <;> rfl

theorem map_name_placed (is : List Ident) :
    (is.map (Ident.placed ρ)).map (·.name) = is.map (·.name) := by
  rw [List.map_map]
  rfl

theorem tagWarnings_placed (l : Option Lit) :
    tagWarnings (l.map (Lit.placed ρ)) = (tagWarnings l).map (Diagnostic.placed ρ) := by
  cases l with
  | none => rfl
  | some l =>
    simp only [tagWarnings, Option.map_some, Lit.placed_text, Lit.placed_span]
    split <;> rfl

theorem ImportSpec.lower_placed (s : ImportSpec) : (s.placed ρ).lower = s.lower := by
  obtain ⟨doc, localName, path, comment⟩ := s
  cases localName <;> simp [placed, lower]

theorem ConstSpec.lower_placed (s : ConstSpec) : (s.placed ρ).lower = s.lower := by
  obtain ⟨doc, name, value, comment⟩ := s
  cases value <;> simp [placed, lower]

theorem Decl.lowerGroup?_placed (d : Decl) : (d.placed ρ).lowerGroup? = d.lowerGroup? := by
  cases d with
  | imports g =>
    simp [placed, lowerGroup?, SpecGroup.placed, Function.comp_def, ImportSpec.lower_placed]
  | consts g =>
    simp [placed, lowerGroup?, SpecGroup.placed, Function.comp_def, ConstSpec.lower_placed]
  | _ => rfl

theorem Decl.bean?_placed (d : Decl) : (d.placed ρ).bean? = d.bean?.map (Bean.placed ρ) := by
  cases d <;> rfl

/-- The beans of a placed file. -/
theorem Decl.filterMap_bean?_placed (ds : List Decl) :
    (ds.map (Decl.placed ρ)).filterMap bean? = (ds.filterMap bean?).map (Bean.placed ρ) := by
  rw [List.filterMap_map, List.map_filterMap]
  exact List.filterMap_congr fun d _ => d.bean?_placed ρ

theorem Decl.mem_filterMap_bean? {ds : List Decl} {b : Bean} :
    b ∈ ds.filterMap Decl.bean? ↔ Decl.bean b ∈ ds := by
  rw [List.mem_filterMap]
  refine ⟨fun ⟨d, hd, hb⟩ => ?_, fun h => ⟨_, h, rfl⟩⟩
  cases d with
  | bean b' => exact Option.some.inj hb ▸ hd
  | _ => cases hb

theorem Bean.isExtension_placed (b : Bean) (m : Member) :
    (b.placed ρ).isExtension (m.placed ρ) = b.isExtension m := by
  unfold isExtension placed Member.placed
  rw [List.isEmpty_map]

/-! ### Types and members -/

variable (env : LowerEnv) (f : File)

theorem lowerSize_placed (v : Value) : lowerSize env f (v.placed ρ) = lowerSize env f v := by
  cases v <;> rfl

theorem sizeWarnings_placed (v : Value) : sizeWarnings env f (v.placed ρ) =
    (sizeWarnings env f v).map (Diagnostic.placed ρ) := by
  have hsize := lowerSize_placed ρ env f v
  cases v with
  | bad p => rfl
  | ident i =>
    simp only [Value.placed] at hsize ⊢
    simp only [sizeWarnings, hsize, Ident.placed_span, Ident.placed_name]
    split <;> rfl
  | lit l =>
    simp only [Value.placed] at hsize ⊢
    simp only [sizeWarnings, hsize, Lit.placed_span, Lit.placed_text]
    split <;> rfl

theorem TypeExpr.lower_placed (t : TypeExpr) : (t.placed ρ).lower env f = t.lower env f := by
  induction t with
  | array p elem size closing ih => simp [placed, lower, ih, lowerSize_placed]
  | vector p elem closing ih => simp [placed, lower, ih]
  | map p key value closing ihk ihv => simp [placed, lower, ihk, ihv]
  | named qualifier name => cases qualifier <;> rfl
  | _ => rfl

theorem TypeExpr.warnings_placed (t : TypeExpr) : (t.placed ρ).warnings env f =
    (t.warnings env f).map (Diagnostic.placed ρ) := by
  induction t with
  | array p elem size closing ih => simp [placed, warnings, ih, sizeWarnings_placed]
  | vector p elem closing ih => exact ih
  | map p key value closing ihk ihv => simp [placed, warnings, ihk, ihv]
  | _ => rfl

theorem MemberType.lower_placed (t : MemberType) : (t.placed ρ).lower env f = t.lower env f := by
  cases t with
  | plain t => exact t.lower_placed ρ env f
  | func sig =>
    have hparam (p : Param) : (p.placed ρ).lower env f = p.lower env f := by
      obtain ⟨type, name⟩ := p
      cases name <;> simp [Param.placed, Param.lower, type.lower_placed ρ env f]
    cases h : sig.result <;>
      simp [placed, Signature.placed, lower, h, hparam, TypeExpr.lower_placed, Function.comp_def]

theorem MemberType.warnings_placed (t : MemberType) : (t.placed ρ).warnings env f =
    (t.warnings env f).map (Diagnostic.placed ρ) := by
  simp only [warnings_eq, types_placed, List.flatMap_map, List.map_flatMap,
    TypeExpr.warnings_placed]

theorem Member.lower_placed (m : Member) : (m.placed ρ).lower env f = m.lower env f := by
  obtain ⟨doc, options, type, names, value, tag, comment⟩ := m
  cases type <;> cases value <;>
    simp [placed, lower, MemberType.lower_placed, Function.comp_def]

/-- A placed bean is lowered like the bean itself. -/
theorem Bean.lower_placed (b : Bean) : (b.placed ρ).lower env f = b.lower env f := by
  have hmembers (p : Bool → Bool) : (b.placed ρ).body.members.filter
      (fun m => p ((b.placed ρ).isExtension m)) =
        (b.body.members.filter fun m => p (b.isExtension m)).map (Member.placed ρ) := by
    show (b.body.members.map (Member.placed ρ)).filter _ = _
    rw [List.filter_map]
    simp only [Function.comp_def, isExtension_placed]
  have hextended := hmembers id
  have hfields := hmembers not
  have htype (m : Member) : ((m.placed ρ).type.map (MemberType.lower env f)) =
      m.type.map (MemberType.lower env f) := by
    show (m.type.map (MemberType.placed ρ)).map _ = _
    rw [Option.map_map]
    congr 1
    funext t
    exact t.lower_placed ρ env f
  simp only [id_eq] at hextended
  simp only [lower, hextended, hfields, List.filterMap_map, List.map_map, Function.comp_def, htype,
    Member.lower_placed]
  simp [placed]

/-- What there is to say about a placed bean. -/
theorem Bean.warnings_placed (b : Bean) : (b.placed ρ).warnings env f =
    (b.warnings env f).map (Diagnostic.placed ρ) := by
  have hmember (m : Member) : (b.placed ρ).memberWarnings env f (m.placed ρ) =
      (b.memberWarnings env f m).map (Diagnostic.placed ρ) := by
    unfold memberWarnings
    rw [isExtension_placed, List.map_append]
    congr 1
    · show ((m.type.map (MemberType.placed ρ)).map _).getD [] = _
      cases m.type with
      | none => rfl
      | some t => exact t.warnings_placed ρ env f
    · split
      · rfl
      · exact tagWarnings_placed ρ m.tag
  simp only [warnings, List.map_append, List.map_flatMap]
  congr 1
  · show (b.body.members.map (Member.placed ρ)).flatMap _ = _
    simp only [List.flatMap_map, hmember]
  · exact tagWarnings_placed ρ b.tag

/-- What there is to say about a placed file. -/
theorem File.remarks_placed (names : File) (h : ∀ d ∈ f.remarks env names, d.span.start ≠ 0) :
    (f.placed ρ).remarks env names = (f.remarks env names).map (Diagnostic.placed ρ) := by
  unfold remarks at h ⊢
  rw [List.map_append, f.bads_placed ρ]
  congr 1
  · rw [List.map_map, List.map_map]
    refine List.map_congr_left fun x hx => BadNode.warning_placed ρ ?_
    exact h _ (List.mem_append_left _ (List.mem_map_of_mem hx))
  · show ((f.decls.map (Decl.placed ρ)).filterMap Decl.bean?).flatMap _ = _
    rw [Decl.filterMap_bean?_placed, List.flatMap_map, List.map_flatMap]
    exact List.flatMap_congr fun b _ => b.warnings_placed ρ env names

end Placed

/-! ### What depends on names -/

section Names

variable (env env' : LowerEnv) (f f' : File)

/-- In two files the names in a type come to the same. -/
structure TypeExpr.Agrees (t : TypeExpr) : Prop where
  size : ∀ v ∈ t.sizes, lowerSize env f v = lowerSize env' f' v
  qualifier : ∀ q ∈ t.qualifiedNames,
    lowerQualifier env f q.qualifier = lowerQualifier env' f' q.qualifier

variable {env env' f f'}

/-- A size that is a name is a reference. -/
theorem TypeExpr.reference_of_size (t : TypeExpr) {i : Ident} (hi : .ident i ∈ t.sizes) :
    i ∈ t.references := by
  induction t with
  | array p elem size closing ih =>
    rcases List.mem_append.1 hi with helem | hsize
    · have hmem := ih helem
      cases size with
      | ident j => exact List.mem_append_left _ hmem
      | _ => exact hmem
    · rw [← List.mem_singleton.1 hsize]
      exact List.mem_append_right _ List.mem_cons_self
  | vector p elem closing ih => exact ih hi
  | map p key value closing ihk ihv => exact List.mem_append.2 ((List.mem_append.1 hi).imp ihk ihv)
  | _ => cases hi

theorem TypeExpr.Agrees.lower {t : TypeExpr} (h : t.Agrees env env' f f') :
    t.lower env f = t.lower env' f' := by
  induction t with
  | array p elem size closing ih =>
    obtain ⟨helem, hsize⟩ := List.forall_mem_append.1 h.size
    exact congrArg₂ Ir.Ty.array (ih ⟨helem, h.qualifier⟩) (hsize size List.mem_cons_self)
  | vector p elem closing ih => exact congrArg Ir.Ty.vector (ih ⟨h.size, h.qualifier⟩)
  | map p key value closing ihk ihv =>
    obtain ⟨hkey, hvalue⟩ := List.forall_mem_append.1 h.size
    obtain ⟨hkey', hvalue'⟩ := List.forall_mem_append.1 h.qualifier
    exact congrArg₂ Ir.Ty.map (ihk ⟨hkey, hkey'⟩) (ihv ⟨hvalue, hvalue'⟩)
  | named qualifier name =>
    cases qualifier with
    | none => rfl
    | some q => exact congrArg (Ir.Ty.struct · name.name) (h.qualifier _ List.mem_cons_self)
  | _ => rfl

theorem TypeExpr.Agrees.warnings {t : TypeExpr} (h : t.Agrees env env' f f') :
    t.warnings env f = t.warnings env' f' := by
  rw [warnings_eq, warnings_eq]
  refine List.flatMap_congr fun v hv => ?_
  unfold sizeWarnings
  rw [h.size v hv]

theorem MemberType.lower_congr {t : MemberType} (h : ∀ u ∈ t.types, u.Agrees env env' f f') :
    t.lower env f = t.lower env' f' := by
  cases t with
  | plain t => exact (h t List.mem_cons_self).lower
  | func sig =>
    obtain ⟨hparams, hresult⟩ := List.forall_mem_append.1 h
    refine congrArg₂ Ir.Ty.func (List.map_congr_left fun p hp => ?_) ?_
    · unfold Param.lower
      rw [(hparams p.type (List.mem_map_of_mem hp)).lower]
    · exact Option.map_congr fun t ht => (hresult t (Option.mem_toList.2 ht)).lower

theorem MemberType.warnings_congr {t : MemberType} (h : ∀ u ∈ t.types, u.Agrees env env' f f') :
    t.warnings env f = t.warnings env' f' := by
  rw [warnings_eq, warnings_eq]
  exact List.flatMap_congr fun u hu => (h u hu).warnings

variable {b : Bean} (h : ∀ t ∈ b.types, t.Agrees env env' f f')
include h

theorem Bean.agrees_type {m : Member} (hm : m ∈ b.body.members) {t : MemberType}
    (ht : m.type = some t) : ∀ u ∈ t.types, u.Agrees env env' f f' := fun u hu =>
  h u (List.mem_flatMap.2 ⟨m, hm, List.mem_flatMap.2 ⟨t, Option.mem_toList.2 ht, hu⟩⟩)

/-- Files that agree on the names in a bean lower it alike. -/
theorem Bean.lower_congr : b.lower env f = b.lower env' f' := by
  have htype {m : Member} (hm : m ∈ b.body.members) :
      m.type.map (MemberType.lower env f) = m.type.map (MemberType.lower env' f') :=
    Option.map_congr fun t ht => MemberType.lower_congr (agrees_type h hm ht)
  have hextended : (b.body.members.filter b.isExtension).filterMap
      (fun m => m.type.map (MemberType.lower env f)) =
        (b.body.members.filter b.isExtension).filterMap
          fun m => m.type.map (MemberType.lower env' f') :=
    List.filterMap_congr fun m hm => htype (List.mem_filter.1 hm).1
  have hfields : (b.body.members.filter fun m => !b.isExtension m).map (Member.lower env f) =
      (b.body.members.filter fun m => !b.isExtension m).map (Member.lower env' f') := by
    refine List.map_congr_left fun m hm => ?_
    unfold Member.lower
    rw [htype (List.mem_filter.1 hm).1]
  unfold lower
  rw [hextended, hfields]

theorem Bean.warnings_congr : b.warnings env f = b.warnings env' f' := by
  have hmember {m : Member} (hm : m ∈ b.body.members) :
      b.memberWarnings env f m = b.memberWarnings env' f' m := by
    have htype : m.type.map (MemberType.warnings env f) =
        m.type.map (MemberType.warnings env' f') :=
      Option.map_congr fun t ht => MemberType.warnings_congr (agrees_type h hm ht)
    unfold memberWarnings
    rw [htype]
  unfold warnings
  rw [List.flatMap_congr fun m hm => hmember hm]

omit h in
/-- There is the same to say about a file, if the names in its beans come to the same. -/
theorem File.remarks_congr {f₀ : File} (h : ∀ b, Decl.bean b ∈ f₀.decls →
    ∀ t ∈ b.types, t.Agrees env env' f f') : f₀.remarks env f = f₀.remarks env' f' := by
  refine congrArg (_ ++ ·) (List.flatMap_congr fun b hb => ?_)
  exact Bean.warnings_congr (h b (Decl.mem_filterMap_bean?.1 hb))

end Names

end Idl
