/-
Idl/Proofs/Identifiers.lean

The identifiers of a file and their numbers.

A file holds identifiers in its tree, and copies of some in the lists of names that linking looks at
again.  Every one of them was numbered while the file was parsed (`File.mem_numbered`), one after the
other, so two with one number are copies of one occurrence (`Source.identifiers_unique`).
-/
import Idl.Proofs.Parsed

namespace Idl

/-! ### Identifiers of trees -/

/-- The identifier that a node is. -/
def Node.ident? : Node → Option Ident
  | .ident i => some i
  | _ => none

/-- The identifiers of a tree, in pre-order. -/
def Tree.idents (t : Tree) : List Ident := t.nodes.filterMap Node.ident?

namespace Tree

theorem idents_node (n : Node) (children : List Tree) :
    (node n children).idents =
      n.ident?.toList ++ if n.isTerminal then [] else children.flatMap idents := by
  unfold idents nodes
  rw [visited_node, Bool.false_or]
  cases hn : n.ident? with
  | none => rw [List.filterMap_cons_none hn]; split <;> simp [List.filterMap_flatMap]
  | some i => rw [List.filterMap_cons_some hn]; split <;> simp [List.filterMap_flatMap]

@[simp] theorem idents_inner (kind : NodeKind) (begin : Pos) (children : List Tree) :
    (node (.inner kind begin) children).idents = children.flatMap idents := idents_node ..

@[simp] theorem idents_bad (what : BadNode) (span : Span) (children : List Tree) :
    (node (.bad what span) children).idents = [] := idents_node ..

@[simp] theorem idents_ident (i : Ident) : i.tree.idents = [i] := idents_node ..

@[simp] theorem idents_lit (l : Lit) : l.tree.idents = [] := idents_node ..

@[simp] theorem idents_comments (g : Option CommentGroup) :
    (commentTrees g).flatMap idents = [] := by
  cases g with
  | none => rfl
  | some g => exact (List.append_nil _).trans (idents_node ..)

@[simp] theorem idents_names (is : List Ident) : (is.map Ident.tree).flatMap idents = is := by
  rw [List.flatMap_map]
  simp

@[simp] theorem idents_tag (l : Option Lit) : (l.map Lit.tree).toList.flatMap idents = [] := by
  cases l <;> simp

end Tree

/-- What an optional part of a tree has of identifiers. -/
theorem flatMap_toList_map {α : Type} (x : Option α) (tree : α → Tree) (f : α → List Ident)
    (h : ∀ a, (tree a).idents = f a) :
    (x.map tree).toList.flatMap Tree.idents = x.toList.flatMap f := by
  cases x <;> simp [h]

/-! ### Identifiers of accounts -/

/-- Whatever an account tells of that got a number. -/
def Account.numbered (a : Account) : List Ident := a.idents ++ a.marks

theorem Account.mem_numbered_append {a b : Account} {i : Ident} :
    i ∈ (a ++ b).numbered ↔ i ∈ a.numbered ∨ i ∈ b.numbered := by
  simp only [numbered, idents_append, marks_append, List.mem_append]
  tauto

theorem Account.mem_numbered_all {α : Type} {f : α → Account} {xs : List α} {i : Ident} :
    i ∈ (all f xs).numbered ↔ ∃ x ∈ xs, i ∈ (f x).numbered := by
  induction xs with
  | nil => simp [numbered]
  | cons x xs ih => rw [all_cons, mem_numbered_append, ih]; simp

/-- The identifiers of a value are those that it took to parse. -/
theorem Value.idents_tree (v : Value) : v.tree.idents = v.account.idents := by
  cases v <;> simp [tree, account]

theorem TypeExpr.idents_tree (t : TypeExpr) : t.tree.idents = t.account.idents := by
  induction t with
  | array p elem size closing ih => simp [tree, account, ih, size.idents_tree]
  | vector p elem closing ih => simp [tree, account, ih]
  | map p key value closing ihk ihv => simp [tree, account, ihk, ihv]
  | named qualifier name => cases qualifier <;> simp [tree, account]
  | _ => simp [tree, account]

theorem Param.idents_tree (p : Param) : p.tree.idents = p.account.idents := by
  cases hn : p.name <;> simp [tree, account, hn, p.type.idents_tree]

theorem MemberType.idents_tree (t : MemberType) : t.tree.idents = t.account.idents := by
  cases t with
  | plain t => exact t.idents_tree
  | func sig =>
    rw [account, Account.idents_append, Account.idents_all, Account.idents_all]
    simp only [tree, Tree.idents_inner, List.flatMap_cons, List.flatMap_map, Param.idents_tree,
      flatMap_toList_map _ _ _ TypeExpr.idents_tree]

theorem Member.idents_tree (m : Member) : m.tree.idents = m.options ++ m.typeIdents ++ m.names ++
    m.value.toList.flatMap fun v => v.account.idents := by
  simp only [tree, Tree.idents_inner, List.flatMap_append, Tree.idents_comments, Tree.idents_names,
    Tree.idents_tag, flatMap_toList_map _ _ _ MemberType.idents_tree,
    flatMap_toList_map _ _ _ Value.idents_tree, List.nil_append, List.append_nil]
  rfl

theorem Member.mem_numbered (kind : BeanKind) {m : Member} {i : Ident} (h : i ∈ m.tree.idents) :
    i ∈ (m.account kind).numbered := by
  rw [idents_tree] at h
  refine List.mem_append.2 ?_
  rw [(m.idents_account kind).mem_iff, Account.idents_all]
  have hmarks (hi : i ∈ m.options) : i ∈ (m.account kind).marks :=
    List.mem_append_left _ (List.mem_append_left _ (List.mem_append_left _ hi))
  simp only [List.mem_append] at h ⊢
  tauto

theorem mem_numbered_members {kind : BeanKind} {scope : ScopeId} {file : FileId} {decl index : Nat}
    {ms : List Member} {m : Member} {i : Ident} (hm : m ∈ ms) (h : i ∈ m.tree.idents) :
    i ∈ (membersAccount kind scope file decl index ms).numbered := by
  induction ms generalizing index with
  | nil => cases hm
  | cons x ms ih =>
    rw [membersAccount, Account.mem_numbered_append, Account.mem_numbered_append]
    rcases List.mem_cons.1 hm with rfl | hm
    · exact .inl (.inl (m.mem_numbered kind h))
    · exact .inr (ih hm)

/-- The identifiers of a constant are told of where they stand, that is with an earlier constant if
the value is inherited. -/
theorem mem_numbered_consts {outer : ScopeId} {file : FileId} {decl index : Nat}
    {previous : Option Value} {first : Option Pos} {ss : List ConstSpec} {s : ConstSpec} {i : Ident}
    (hs : s ∈ ss) (h : i ∈ s.tree.idents) : previous = some (.ident i) ∨
      i ∈ (constsAccount outer file decl index previous first ss).numbered := by
  have hown {previous : Option Value} {index : Nat} {first : Option Pos} {x : ConstSpec}
      (hx : x.value = some (.ident i)) : previous = some (.ident i) ∨
        i ∈ (x.account outer file decl index previous first).numbered := by
    by_cases hp : previous = some (.ident i)
    · exact .inl hp
    · have hvalue : constValueAccount previous (first.getD x.name.pos) x.value =
          (Value.ident i).ownAccount := hx ▸ if_neg hp
      unfold ConstSpec.account
      rw [hvalue, Account.mem_numbered_append, Account.mem_numbered_append]
      exact .inr (.inl (.inr List.mem_cons_self))
  induction ss generalizing index previous first with
  | nil => cases hs
  | cons x ss ih =>
    rw [constsAccount, Account.mem_numbered_append]
    rcases List.mem_cons.1 hs with rfl | hs
    · have h : i = s.name ∨ s.value = some (.ident i) := by
        rcases hv : s.value with - | v
        · simpa [ConstSpec.tree, hv] using h
        · cases v <;> simpa [ConstSpec.tree, hv, Value.idents_tree, Value.account, eq_comm] using h
      rcases h with rfl | h
      · exact .inr (.inl List.mem_cons_self)
      · exact (hown h).imp_right .inl
    · have hlater : x.value = some (.ident i) ∨ i ∈ (constsAccount outer file decl (index + 1)
          x.value (first <|> some x.name.pos) ss).numbered := ih hs
      rcases hlater with h | h
      · exact (hown h).imp_right .inl
      · exact .inr (.inr h)

/-- The identifiers of a declaration are those that it took to parse. -/
theorem Decl.mem_numbered {d : Decl} (outer scope : ScopeId) (file : FileId) (index : Nat)
    {i : Ident} (h : i ∈ d.tree.idents) : i ∈ (d.account outer scope file index).numbered := by
  cases d with
  | bad span => simp [tree] at h
  | imports g =>
    simp only [tree, Tree.idents_inner, List.flatMap_append, Tree.idents_comments, List.nil_append,
      List.flatMap_map, List.mem_flatMap] at h
    obtain ⟨s, hs, h⟩ := h
    refine Account.mem_numbered_all.2 ⟨s, hs, ?_⟩
    have hname : s.localName = some i := by
      cases hn : s.localName with
      | none => simp [ImportSpec.tree, hn] at h
      | some j => simpa [ImportSpec.tree, hn, eq_comm] using h
    unfold ImportSpec.account
    rw [hname, Account.mem_numbered_append]
    refine .inl ?_
    show i ∈ (if i.name = "." then _ else _ : Account).numbered
    split
    · exact List.mem_append_right _ List.mem_cons_self
    · exact List.mem_cons_self
  | consts g =>
    simp only [tree, Tree.idents_inner, List.flatMap_append, Tree.idents_comments, List.nil_append,
      List.flatMap_map, List.mem_flatMap] at h
    obtain ⟨s, hs, h⟩ := h
    exact (mem_numbered_consts hs h).resolve_left (by simp)
  | bean b =>
    simp only [tree, Bean.tree, MemberList.tree, Tree.idents_inner, List.flatMap_append,
      Tree.idents_comments, Tree.idents_tag, List.flatMap_singleton, Tree.idents_ident,
      List.flatMap_map, List.nil_append, List.append_nil, List.mem_append, List.mem_singleton,
      List.mem_flatMap] at h
    unfold account Bean.account
    rw [Account.mem_numbered_append, Account.mem_numbered_append, Account.mem_numbered_append]
    rcases h with rfl | ⟨m, hm, h⟩
    · exact .inl (.inl (.inl List.mem_cons_self))
    · exact .inl (.inr (mem_numbered_members hm h))

theorem mem_numbered_decls {outer : ScopeId} {file : FileId} {ds : List Decl} {d : Decl} {i : Ident}
    (hd : d ∈ ds) (h : ∀ scope index, i ∈ (d.account outer scope file index).numbered)
    (scope : ScopeId) (index : Nat) : i ∈ (declsAccount outer scope file index ds).numbered := by
  induction ds generalizing scope index with
  | nil => cases hd
  | cons x ds ih =>
    rw [declsAccount, Account.mem_numbered_append]
    rcases List.mem_cons.1 hd with rfl | hd
    · exact .inl (h ..)
    · exact .inr (ih hd ..)

/-- The identifiers of the tree of a file are those that it took to parse. -/
theorem File.mem_numbered (f : File) (scope : ScopeId) {i : Ident} (h : i ∈ f.tree.idents) :
    i ∈ (f.account scope).numbered := by
  simp only [tree, Tree.idents_inner, List.flatMap_append, Tree.idents_comments, List.nil_append,
    List.flatMap_singleton, Tree.idents_ident, List.flatMap_map, List.mem_append,
    List.mem_singleton, List.mem_flatMap] at h
  unfold account
  rw [Account.mem_numbered_append, Account.mem_numbered_append]
  rcases h with rfl | ⟨d, hd, h⟩
  · exact .inl (.inr List.mem_cons_self)
  · exact .inr (mem_numbered_decls hd (fun scope index => d.mem_numbered _ _ _ _ h) _ _)

/-! ### Identifiers of files -/

/-- The identifiers of a file: those of its tree, and those that linking looks at again. -/
def File.identifiers (f : File) : List Ident :=
  f.tree.idents ++ (f.unresolved ++ f.qualified.flatMap QualifiedRef.idents)

namespace Source

variable (s : Source)

/-- Identifiers are numbered one after the other, so a number belongs to one. -/
theorem numbered_unique {i j : Ident} (hi : i ∈ s.account.numbered) (hj : j ∈ s.account.numbered)
    (hid : i.id = j.id) : i = j := by
  obtain ⟨-, _, _, ht, -⟩ := s.told
  obtain ⟨tr, r, htr⟩ := ht.run
  have hmem {i : Ident} (hi : i ∈ s.account.numbered) : i ∈ Trace.numbered tr := by
    rcases List.mem_append.1 hi with hi | hi
    · exact tr.idents_sublist.subset (htr.idents.subset hi)
    · obtain ⟨a, ha, hai⟩ := List.mem_filterMap.1 (htr.marks.subset hi)
      refine List.mem_filterMap.2 ⟨a, ha, ?_⟩
      cases a <;> simp_all [Act.mark?, Act.numbered?]
  have hnodup : ((Trace.numbered tr).map (·.id)).Nodup :=
    List.pairwise_map.2 (r.numbered_lt.imp Nat.ne_of_lt)
  exact List.inj_on_of_nodup_map hnodup (hmem hi) (hmem hj) hid

/-- The identifiers of a source have different numbers, unless they are copies of one occurrence. -/
theorem identifiers_unique {i j : Ident} (hi : i ∈ s.alone.file.identifiers)
    (hj : j ∈ s.alone.file.identifiers) (hid : i.id = j.id) : i = j := by
  have hmem {i : Ident} (hi : i ∈ s.alone.file.identifiers) : i ∈ s.account.numbered := by
    rcases List.mem_append.1 hi with hi | hi
    · exact s.alone.file.mem_numbered 1 hi
    · refine List.mem_append_left _ (s.mem_idents (List.mem_append_right _ ?_))
      rw [← s.reading.qualified]
      refine List.mem_append.2 ((List.mem_append.1 hi).imp_left fun hi => ?_)
      rw [s.reading.unresolved] at hi
      exact (List.mem_filter.1 hi).1
  exact s.numbered_unique (hmem hi) (hmem hj) hid

end Source

/-! ### Identifiers of a placed file -/

section Placed

variable (ρ : Placement)

theorem Value.idents_placed (v : Value) :
    (v.placed ρ).account.idents = v.account.idents.map (Ident.placed ρ) := by
  cases v <;> rfl

theorem TypeExpr.idents_placed (t : TypeExpr) :
    (t.placed ρ).account.idents = t.account.idents.map (Ident.placed ρ) := by
  induction t with
  | array p elem size closing ih => simp [placed, account, ih, size.idents_placed]
  | vector p elem closing ih => simp [placed, account, ih]
  | map p key value closing ihk ihv => simp [placed, account, ihk, ihv]
  | named qualifier name => cases qualifier <;> rfl
  | _ => rfl

theorem Param.idents_placed (p : Param) :
    (p.placed ρ).account.idents = p.account.idents.map (Ident.placed ρ) := by
  cases hn : p.name <;> simp [placed, account, hn, p.type.idents_placed]

theorem MemberType.idents_placed (t : MemberType) :
    (t.placed ρ).account.idents = t.account.idents.map (Ident.placed ρ) := by
  cases t with
  | plain t => exact t.idents_placed ρ
  | func sig =>
    cases hr : sig.result <;>
      simp [placed, Signature.placed, account, Account.idents_all, hr, List.flatMap_map,
        List.map_flatMap, Param.idents_placed, TypeExpr.idents_placed]

theorem Member.idents_tree_placed (m : Member) :
    (m.placed ρ).tree.idents = m.tree.idents.map (Ident.placed ρ) := by
  rw [idents_tree, idents_tree]
  unfold typeIdents placed
  cases m.type <;> cases m.value <;>
    simp [MemberType.idents_placed, Value.idents_placed]

theorem ImportSpec.idents_tree_placed (s : ImportSpec) :
    (s.placed ρ).tree.idents = s.tree.idents.map (Ident.placed ρ) := by
  cases hn : s.localName <;> simp [tree, placed, hn]

theorem ConstSpec.idents_tree_placed (s : ConstSpec) :
    (s.placed ρ).tree.idents = s.tree.idents.map (Ident.placed ρ) := by
  cases hv : s.value <;> simp [tree, placed, hv, Value.idents_tree, Value.idents_placed]

theorem Decl.idents_tree_placed (d : Decl) :
    (d.placed ρ).tree.idents = d.tree.idents.map (Ident.placed ρ) := by
  cases d with
  | bad span => simp [placed, tree]
  | imports g =>
    simp [placed, SpecGroup.placed, tree, List.flatMap_map, List.map_flatMap,
      ImportSpec.idents_tree_placed]
  | consts g =>
    simp [placed, SpecGroup.placed, tree, List.flatMap_map, List.map_flatMap,
      ConstSpec.idents_tree_placed]
  | bean b =>
    simp [placed, Bean.placed, MemberList.placed, tree, Bean.tree, MemberList.tree,
      List.flatMap_map, List.map_flatMap, Member.idents_tree_placed]

theorem File.identifiers_placed (f : File) :
    (f.placed ρ).identifiers = f.identifiers.map (Ident.placed ρ) := by
  simp [identifiers, placed, tree, List.flatMap_map, List.map_flatMap, Decl.idents_tree_placed,
    QualifiedRef.idents, QualifiedRef.placed]

end Placed

end Idl
