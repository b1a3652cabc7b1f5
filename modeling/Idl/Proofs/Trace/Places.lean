/-
Idl/Proofs/Trace/Places.lean

Where the parts of a tree stand.

Names that one scope declares stand in the order of their declarations, and a qualified name stands
in front of those behind it.  Whatever is said about a tree later on, by linking or lowering it, is
said about a place of its account (`File.beanWarnings_covers`), and what could not be parsed is
among its faults (`File.faults_of_badAt`).
-/
import Idl.Ir.Lower
import Idl.Proofs.Nodes
import Idl.Proofs.Trace.Occurrences

namespace Idl

/-! ### Order -/

section Order

variable (outer scope : ScopeId) (file : FileId) (kind : BeanKind)

theorem Member.names_sublist (m : Member) : m.names.Sublist (m.account kind).idents := by
  unfold account
  simp only [Account.idents_append, List.nil_append, List.append_nil]
  refine List.Sublist.trans ?_ (List.sublist_append_left ..)
  split
  · rw [Account.idents_append, Account.idents_all_ident]
    exact List.sublist_append_left ..
  · rw [Account.idents_append, Account.idents_all_ident]
    exact List.sublist_append_right ..

theorem declared_sublist_members (decl index : Nat) (ms : List Member) :
    (ms.flatMap (·.names)).Sublist (membersAccount kind scope file decl index ms).idents := by
  induction ms generalizing index with
  | nil => exact .slnil
  | cons m ms ih =>
    rw [membersAccount, Account.idents_append, Account.idents_append, List.flatMap_cons]
    exact List.Sublist.append ((m.names_sublist kind).trans (List.sublist_append_left ..)) (ih _)

theorem declared_sublist_consts (decl index : Nat) (previous : Option Value) (first : Option Pos)
    (ss : List ConstSpec) : (ss.map (·.name)).Sublist
      (constsAccount outer file decl index previous first ss).idents := by
  induction ss generalizing index previous first with
  | nil => exact .slnil
  | cons s ss ih =>
    rw [constsAccount, Account.idents_append]
    exact ((ih ..).trans (List.sublist_append_right ..)).cons_cons s.name

theorem Decl.declared_sublist (index : Nat) (d : Decl) :
    d.declared.Sublist (d.account outer scope file index).idents := by
  cases d with
  | consts g => exact declared_sublist_consts ..
  | bean b => exact (List.nil_sublist _).cons_cons b.name
  | _ => exact List.nil_sublist _

/-- The constants and beans of a file are identifiers of it, in order. -/
theorem declared_sublist_decls (index : Nat) (ds : List Decl) :
    (ds.flatMap Decl.declared).Sublist (declsAccount outer scope file index ds).idents := by
  induction ds generalizing scope index with
  | nil => exact .slnil
  | cons d ds ih =>
    rw [declsAccount, Account.idents_append, List.flatMap_cons]
    exact (d.declared_sublist ..).append (ih ..)

/-- The members of a bean are identifiers of its file, in order. -/
theorem declared_sublist_bean (index : Nat) (ds : List Decl) {b : Bean} (hb : Decl.bean b ∈ ds) :
    b.declared.Sublist (declsAccount outer scope file index ds).idents := by
  induction ds generalizing scope index with
  | nil => cases hb
  | cons d ds ih =>
    rw [declsAccount, Account.idents_append]
    rcases List.mem_cons.1 hb with rfl | hb
    · refine List.Sublist.trans ?_ (List.sublist_append_left ..)
      show b.declared.Sublist (b.name :: (_ ++ []))
      rw [List.append_nil]
      exact (declared_sublist_members ..).cons b.name
    · exact (ih _ _ hb).trans (List.sublist_append_right ..)

/-- The parts of qualified names, in order. -/
theorem qualified_sublist (es : List NameEvent) :
    ((qualifiedIn es).flatMap QualifiedRef.idents).Sublist (mentioned es) := by
  induction es with
  | nil => exact .slnil
  | cons e es ih =>
    cases e with
    | qualify q => exact (List.Sublist.refl q.idents).append ih
    | enter => exact ih
    | declare s k o d i => exact ih.cons i
    | refer i => exact ih.cons i

theorem Member.typeIdents_sublist (m : Member) :
    m.typeIdents.Sublist (m.account kind).idents := by
  have htype : (Account.all MemberType.account m.type.toList).idents = m.typeIdents :=
    Account.idents_all ..
  unfold account
  simp only [Account.idents_append, List.nil_append, List.append_nil]
  refine List.Sublist.trans ?_ (List.sublist_append_left ..)
  split
  · rw [Account.idents_append, htype]
    exact List.sublist_append_right ..
  · rw [Account.idents_append, htype]
    exact List.sublist_append_left ..

theorem Member.qualified_sublist (m : Member) :
    ((m.types.flatMap TypeExpr.qualifiedNames).flatMap QualifiedRef.idents).Sublist
      (m.account kind).idents := by
  have htypes : qualifiedIn (m.type.toList.flatMap MemberType.events) =
      m.types.flatMap TypeExpr.qualifiedNames := by
    rw [m.uses_events, qualifiedIn_flatMap]
    simp only [TypeExpr.qualifiedIn_events]
  rw [← htypes]
  refine (Idl.qualified_sublist _).trans (List.Sublist.trans ?_ (m.typeIdents_sublist kind))
  rw [mentioned_flatMap]
  exact flatMap_sublist _ fun t => t.mentioned_sublist

theorem qualified_sublist_members (decl index : Nat) (ms : List Member) :
    (((ms.flatMap Member.types).flatMap TypeExpr.qualifiedNames).flatMap
      QualifiedRef.idents).Sublist (membersAccount kind scope file decl index ms).idents := by
  induction ms generalizing index with
  | nil => exact .slnil
  | cons m ms ih =>
    rw [membersAccount, Account.idents_append, Account.idents_append, List.flatMap_cons,
      List.flatMap_append, List.flatMap_append]
    exact List.Sublist.append ((m.qualified_sublist kind).trans (List.sublist_append_left ..)) (ih _)

/-- The parts of the qualified names of a file are identifiers of it, in order. -/
theorem qualified_sublist_decls (index : Nat) (ds : List Decl) :
    ((ds.flatMap Decl.qualifiedNames).flatMap QualifiedRef.idents).Sublist
      (declsAccount outer scope file index ds).idents := by
  induction ds generalizing scope index with
  | nil => exact .slnil
  | cons d ds ih =>
    rw [declsAccount, Account.idents_append, List.flatMap_cons, List.flatMap_append]
    refine List.Sublist.append ?_ (ih ..)
    cases d with
    | bean b =>
      show (_ : List Ident).Sublist (b.name :: (_ ++ []))
      rw [List.append_nil]
      exact (qualified_sublist_members ..).cons b.name
    | _ => exact List.nil_sublist _

end Order

/-! ### Qualifiers -/

theorem Account.mem_solid_all {α : Type} {f : α → Account} {xs : List α} {i : Ident} :
    i ∈ (all f xs).solid ↔ ∃ x ∈ xs, i ∈ (f x).solid := by
  induction xs with
  | nil => simp
  | cons x xs ih => rw [all_cons, solid_append, List.mem_append, ih]; simp

theorem TypeExpr.qualifier_solid (t : TypeExpr) {q : QualifiedRef} (hq : q ∈ t.qualifiedNames) :
    q.qualifier ∈ t.account.solid := by
  induction t with
  | array p elem size closing ih => exact List.mem_append_left _ (ih hq)
  | vector p elem closing ih => exact ih hq
  | map p key value closing ihk ihv =>
    exact List.mem_append.2 ((List.mem_append.1 hq).imp ihk ihv)
  | named qualifier name =>
    cases qualifier with
    | none => cases hq
    | some i => rw [List.mem_singleton.1 hq]; exact List.mem_cons_self
  | _ => cases hq

theorem MemberType.qualifier_solid (t : MemberType) {u : TypeExpr} (hu : u ∈ t.types)
    {q : QualifiedRef} (hq : q ∈ u.qualifiedNames) : q.qualifier ∈ t.account.solid := by
  cases t with
  | plain t => exact List.mem_singleton.1 hu ▸ u.qualifier_solid hq
  | func sig =>
    rw [account, Account.solid_append, List.mem_append, Account.mem_solid_all, Account.mem_solid_all]
    rcases List.mem_append.1 hu with hu | hu
    · obtain ⟨p, hp, rfl⟩ := List.mem_map.1 hu
      exact .inl ⟨p, hp, List.mem_append_left _ (p.type.qualifier_solid hq)⟩
    · exact .inr ⟨u, hu, u.qualifier_solid hq⟩

theorem Member.qualifier_solid (kind : BeanKind) (m : Member) {q : QualifiedRef}
    (hq : q ∈ m.types.flatMap TypeExpr.qualifiedNames) : q.qualifier ∈ (m.account kind).solid := by
  obtain ⟨u, hu, hq⟩ := List.mem_flatMap.1 hq
  obtain ⟨t, ht, hu⟩ := List.mem_flatMap.1 hu
  have htype : q.qualifier ∈ (Account.all MemberType.account m.type.toList).solid :=
    Account.mem_solid_all.2 ⟨t, ht, t.qualifier_solid hu hq⟩
  unfold account
  simp only [Account.solid_append, List.nil_append, List.append_nil]
  refine List.mem_append_left _ ?_
  split
  · exact List.mem_append_right _ htype
  · exact List.mem_append_left _ htype

theorem qualifier_solid_members (kind : BeanKind) (scope : ScopeId) (file : FileId)
    (decl index : Nat) (ms : List Member) {q : QualifiedRef}
    (hq : q ∈ (ms.flatMap Member.types).flatMap TypeExpr.qualifiedNames) :
    q.qualifier ∈ (membersAccount kind scope file decl index ms).solid := by
  induction ms generalizing index with
  | nil => cases hq
  | cons m ms ih =>
    rw [membersAccount, Account.solid_append, Account.solid_append]
    rw [List.flatMap_cons, List.flatMap_append] at hq
    rcases List.mem_append.1 hq with hq | hq
    · exact List.mem_append_left _ (List.mem_append_left _ (m.qualifier_solid kind hq))
    · exact List.mem_append_right _ (ih _ hq)

/-- A qualifier is never missing. -/
theorem qualifier_solid_decls (outer scope : ScopeId) (file : FileId) (index : Nat) (ds : List Decl)
    {q : QualifiedRef} (hq : q ∈ ds.flatMap Decl.qualifiedNames) :
    q.qualifier ∈ (declsAccount outer scope file index ds).solid := by
  induction ds generalizing scope index with
  | nil => cases hq
  | cons d ds ih =>
    rw [declsAccount, Account.solid_append, List.mem_append]
    rcases List.mem_append.1 hq with hq | hq
    · cases d with
      | bean b =>
        refine .inl ?_
        show q.qualifier ∈ ([] ++ _ ++ [] : List Ident)
        rw [List.nil_append, List.append_nil]
        exact qualifier_solid_members _ _ _ _ _ _ hq
      | _ => cases hq
    · exact .inr (ih _ _ hq)

/-! ### Places of an account -/

namespace Account

/-- A place that the account knows of. -/
structure Covers (a : Account) (p : Pos) : Prop where
  place : (∃ i ∈ a.idents, i.pos = p) ∨ (∃ l ∈ a.lits, l.pos = p) ∨ p ∈ a.faults ∨ p ∈ a.spots

variable {a b : Account} {p : Pos}

theorem Covers.append_left (h : a.Covers p) (b : Account) : (a ++ b).Covers p := by
  obtain ⟨i, hi, hp⟩ | ⟨l, hl, hp⟩ | h | h := h.place
  · exact ⟨.inl ⟨i, List.mem_append_left _ hi, hp⟩⟩
  · exact ⟨.inr (.inl ⟨l, List.mem_append_left _ hl, hp⟩)⟩
  · exact ⟨.inr (.inr (.inl (List.mem_append_left _ h)))⟩
  · exact ⟨.inr (.inr (.inr (List.mem_append_left _ h)))⟩

theorem Covers.append_right (h : b.Covers p) (a : Account) : (a ++ b).Covers p := by
  obtain ⟨i, hi, hp⟩ | ⟨l, hl, hp⟩ | h | h := h.place
  · exact ⟨.inl ⟨i, List.mem_append_right _ hi, hp⟩⟩
  · exact ⟨.inr (.inl ⟨l, List.mem_append_right _ hl, hp⟩)⟩
  · exact ⟨.inr (.inr (.inl (List.mem_append_right _ h)))⟩
  · exact ⟨.inr (.inr (.inr (List.mem_append_right _ h)))⟩

theorem covers_all {α : Type} {f : α → Account} {xs : List α} {x : α} (hx : x ∈ xs)
    (h : (f x).Covers p) : (all f xs).Covers p := by
  induction xs with
  | nil => cases hx
  | cons y ys ih =>
    rcases List.mem_cons.1 hx with rfl | hx
    · exact h.append_left _
    · exact (ih hx).append_right _

theorem covers_ident (i : Ident) : i.account.Covers i.pos := ⟨.inl ⟨i, List.mem_cons_self, rfl⟩⟩

theorem covers_lit {ls : List Lit} {l : Lit} (hl : l ∈ ls) : ({ lits := ls } : Account).Covers l.pos :=
  ⟨.inr (.inl ⟨l, hl, rfl⟩)⟩

theorem covers_of_fault (h : p ∈ a.faults) : a.Covers p := ⟨.inr (.inr (.inl h))⟩

end Account

/-- The places of a member are those of its parts. -/
theorem Member.covers {kind : BeanKind} {m : Member} {p : Pos}
    (h : (∃ t, m.type = some t ∧ t.account.Covers p) ∨ (∃ v, m.value = some v ∧ v.account.Covers p) ∨
      ∃ l, m.tag = some l ∧ l.pos = p) : (m.account kind).Covers p := by
  unfold account
  rcases h with ⟨t, ht, h⟩ | ⟨v, hv, h⟩ | ⟨l, hl, rfl⟩
  · refine Account.Covers.append_left (Account.Covers.append_left (Account.Covers.append_right ?_ _) _) _
    have htype : (Account.all MemberType.account m.type.toList).Covers p :=
      Account.covers_all (by rw [ht]; exact List.mem_cons_self) h
    split
    · exact htype.append_right _
    · exact htype.append_left _
  · refine Account.Covers.append_left (Account.Covers.append_right ?_ _) _
    exact Account.covers_all (by rw [hv]; exact List.mem_cons_self) h
  · exact Account.Covers.append_right (Account.covers_lit (by rw [hl]; exact List.mem_cons_self)) _

theorem covers_members {kind : BeanKind} {scope : ScopeId} {file : FileId} {decl index : Nat}
    {ms : List Member} {m : Member} {p : Pos} (hm : m ∈ ms) (h : (m.account kind).Covers p) :
    (membersAccount kind scope file decl index ms).Covers p := by
  induction ms generalizing index with
  | nil => cases hm
  | cons x ms ih =>
    rcases List.mem_cons.1 hm with rfl | hm
    · exact (h.append_left _).append_left _
    · exact (ih hm).append_right _

theorem covers_decls {outer : ScopeId} {file : FileId} {ds : List Decl} {d : Decl} {p : Pos}
    (hd : d ∈ ds) (h : ∀ scope index, (d.account outer scope file index).Covers p)
    (scope : ScopeId) (index : Nat) : (declsAccount outer scope file index ds).Covers p := by
  induction ds generalizing scope index with
  | nil => cases hd
  | cons x ds ih =>
    rcases List.mem_cons.1 hd with rfl | hd
    · exact (h ..).append_left _
    · exact (ih hd ..).append_right _

/-! ### Places of warnings -/

section Warnings

variable (env : LowerEnv) (f : File)

theorem sizeWarnings_covers (v : Value) :
    ∀ d ∈ sizeWarnings env f v, v.account.Covers d.span.start := by
  intro d hd
  unfold sizeWarnings at hd
  cases v with
  | bad p => cases hd
  | ident i =>
    dsimp only at hd
    split at hd
    · cases hd
    · rw [List.mem_singleton.1 hd]
      exact Account.covers_ident i
  | lit l =>
    dsimp only at hd
    split at hd
    · cases hd
    · rw [List.mem_singleton.1 hd]
      exact Account.covers_lit List.mem_cons_self

theorem TypeExpr.warnings_covers (t : TypeExpr) :
    ∀ d ∈ t.warnings env f, t.account.Covers d.span.start := by
  induction t with
  | array p elem size closing ih =>
    intro d hd
    rcases List.mem_append.1 hd with hd | hd
    · exact (ih d hd).append_left _
    · exact (sizeWarnings_covers env f size d hd).append_right _
  | vector p elem closing ih => exact ih
  | map p key value closing ihk ihv =>
    intro d hd
    rcases List.mem_append.1 hd with hd | hd
    · exact (ihk d hd).append_left _
    · exact (ihv d hd).append_right _
  | _ => intro d hd; cases hd

theorem MemberType.warnings_covers (t : MemberType) :
    ∀ d ∈ t.warnings env f, t.account.Covers d.span.start := by
  intro d hd
  cases t with
  | plain t => exact t.warnings_covers env f d hd
  | func sig =>
    rcases List.mem_append.1 hd with hd | hd
    · obtain ⟨p, hp, hd⟩ := List.mem_flatMap.1 hd
      exact (Account.covers_all hp ((p.type.warnings_covers env f d hd).append_left _)).append_left _
    · cases hr : sig.result with
      | none => rw [hr] at hd; cases hd
      | some r =>
        rw [hr] at hd
        refine Account.Covers.append_right (Account.covers_all ?_ (r.warnings_covers env f d hd)) _
        rw [hr]
        exact List.mem_cons_self

theorem tagWarnings_start (tag : Option Lit) : ∀ d ∈ tagWarnings tag,
    ∃ l, tag = some l ∧ l.pos = d.span.start := by
  intro d hd
  cases tag with
  | none => cases hd
  | some l =>
    unfold tagWarnings at hd
    dsimp only at hd
    split at hd
    · cases hd
    · rw [List.mem_singleton.1 hd]
      exact ⟨l, rfl, rfl⟩

theorem Bean.warnings_covers (b : Bean) (outer scope : ScopeId) (file : FileId) (index : Nat) :
    ∀ d ∈ b.warnings env f, (b.account outer scope file index).Covers d.span.start := by
  intro d hd
  refine Account.Covers.append_left ?_ _
  rcases List.mem_append.1 hd with hd | hd
  · refine Account.Covers.append_right ?_ _
    obtain ⟨m, hm, hd⟩ := List.mem_flatMap.1 hd
    refine covers_members hm (Member.covers ?_)
    rcases List.mem_append.1 hd with hd | hd
    · cases ht : m.type with
      | none => rw [ht] at hd; cases hd
      | some t =>
        rw [ht] at hd
        exact .inl ⟨t, rfl, t.warnings_covers env f d hd⟩
    · split at hd
      · cases hd
      · exact .inr (.inr (tagWarnings_start m.tag d hd))
  · obtain ⟨l, hl, hp⟩ := tagWarnings_start b.tag d hd
    refine Account.Covers.append_left (Account.Covers.append_right ?_ _) _
    exact hp ▸ ⟨.inr (.inl ⟨l, by rw [hl]; exact List.mem_cons_self, rfl⟩)⟩

end Warnings

/-! ### Bad nodes -/

/-- A bad node of the tree starts at the position. -/
def Tree.BadAt (t : Tree) (p : Pos) : Prop := ∃ what span, Node.bad what span ∈ t.nodes ∧ span.start = p

namespace Tree

theorem badAt_inner {k : NodeKind} {q p : Pos} {children : List Tree} :
    (node (.inner k q) children).BadAt p ↔ ∃ t ∈ children, t.BadAt p := by
  constructor
  · rintro ⟨what, span, hmem, hp⟩
    rcases mem_nodes.1 hmem with h | ⟨-, t, ht, hmem⟩
    · cases h
    · exact ⟨t, ht, what, span, hmem, hp⟩
  · rintro ⟨t, ht, what, span, hmem, hp⟩
    exact ⟨what, span, mem_nodes.2 (.inr ⟨rfl, t, ht, hmem⟩), hp⟩

theorem badAt_leaf {n : Node} (hn : n.isTerminal = true) {p : Pos} :
    (node n []).BadAt p ↔ ∃ what span, n = .bad what span ∧ span.start = p := by
  constructor
  · rintro ⟨what, span, hmem, hp⟩
    rcases mem_nodes.1 hmem with h | ⟨h, -⟩
    · exact ⟨what, span, h.symm, hp⟩
    · rw [hn] at h; cases h
  · rintro ⟨what, span, rfl, hp⟩
    exact ⟨what, span, mem_nodes.2 (.inl rfl), hp⟩

theorem not_badAt_ident (i : Ident) (p : Pos) : ¬ i.tree.BadAt p := by
  rw [Ident.tree, badAt_leaf rfl]
  rintro ⟨_, _, h, -⟩
  cases h

theorem not_badAt_lit (l : Lit) (p : Pos) : ¬ l.tree.BadAt p := by
  rw [Lit.tree, badAt_leaf rfl]
  rintro ⟨_, _, h, -⟩
  cases h

theorem not_badAt_idents {is : List Ident} {t : Tree} (ht : t ∈ is.map Ident.tree) (p : Pos) :
    ¬ t.BadAt p := by
  obtain ⟨i, -, rfl⟩ := List.mem_map.1 ht
  exact not_badAt_ident i p

theorem not_badAt_lits {l : Option Lit} {t : Tree} (ht : t ∈ (l.map Lit.tree).toList) (p : Pos) :
    ¬ t.BadAt p := by
  cases l with
  | none => cases ht
  | some l => rw [List.mem_singleton.1 ht]; exact not_badAt_lit l p

theorem not_badAt_comments {g : Option CommentGroup} {t : Tree} (ht : t ∈ commentTrees g) (p : Pos) :
    ¬ t.BadAt p := by
  cases g with
  | none => cases ht
  | some g =>
    rw [List.mem_singleton.1 ht, badAt_leaf rfl]
    rintro ⟨_, _, h, -⟩
    cases h

end Tree

theorem Account.mem_faults_all {α : Type} {f : α → Account} {xs : List α} {x : α} {p : Pos}
    (hx : x ∈ xs) (h : p ∈ (f x).faults) : p ∈ (all f xs).faults := by
  induction xs with
  | nil => cases hx
  | cons y ys ih =>
    rcases List.mem_cons.1 hx with rfl | hx
    · exact List.mem_append_left _ h
    · exact List.mem_append_right _ (ih hx)

open Idl.Tree

theorem Value.bad_tree (v : Value) {p : Pos} (h : v.tree.BadAt p) : v = .bad p := by
  cases v with
  | bad q =>
    obtain ⟨_, _, he, hp⟩ := (badAt_leaf rfl).1 h
    cases he
    exact congrArg Value.bad hp
  | ident i =>
    obtain ⟨t, ht, h⟩ := badAt_inner.1 h
    exact absurd h (List.mem_singleton.1 ht ▸ not_badAt_ident i p)
  | lit l =>
    obtain ⟨t, ht, h⟩ := badAt_inner.1 h
    exact absurd h (List.mem_singleton.1 ht ▸ not_badAt_lit l p)

theorem Value.faults_of_badAt (v : Value) {p : Pos} (h : v.tree.BadAt p) : p ∈ v.account.faults := by
  rw [v.bad_tree h]
  exact List.mem_cons_self

theorem TypeExpr.faults_of_badAt (t : TypeExpr) {p : Pos} (h : t.tree.BadAt p) :
    p ∈ t.account.faults := by
  induction t with
  | bad q =>
    obtain ⟨_, _, he, hp⟩ := (badAt_leaf rfl).1 h
    cases he
    exact hp ▸ List.mem_cons_self
  | basic name b =>
    obtain ⟨t, ht, h⟩ := badAt_inner.1 h
    exact absurd h (List.mem_singleton.1 ht ▸ not_badAt_ident name p)
  | array q elem size closing ih =>
    obtain ⟨t, ht, h⟩ := badAt_inner.1 h
    rcases List.mem_cons.1 ht with rfl | ht
    · exact List.mem_append_left _ (ih h)
    · rw [List.mem_singleton.1 ht] at h
      exact List.mem_append_right _ (size.faults_of_badAt h)
  | vector q elem closing ih =>
    obtain ⟨t, ht, h⟩ := badAt_inner.1 h
    exact ih (List.mem_singleton.1 ht ▸ h)
  | map q key value closing ihk ihv =>
    obtain ⟨t, ht, h⟩ := badAt_inner.1 h
    rcases List.mem_cons.1 ht with rfl | ht
    · exact List.mem_append_left _ (ihk h)
    · exact List.mem_append_right _ (ihv (List.mem_singleton.1 ht ▸ h))
  | named qualifier name =>
    obtain ⟨t, ht, h⟩ := badAt_inner.1 h
    have hidents : t ∈ (qualifier.toList ++ [name]).map Ident.tree := by
      cases qualifier <;> exact ht
    exact absurd h (not_badAt_idents hidents p)

theorem Param.faults_of_badAt (q : Param) {p : Pos} (h : q.tree.BadAt p) :
    p ∈ q.account.faults := by
  obtain ⟨t, ht, h⟩ := badAt_inner.1 h
  rcases List.mem_cons.1 ht with rfl | ht
  · exact List.mem_append_left _ (q.type.faults_of_badAt h)
  · have hidents : t ∈ q.name.toList.map Ident.tree := by
      cases hn : q.name <;> simp_all
    exact absurd h (not_badAt_idents hidents p)

theorem MemberType.faults_of_badAt (t : MemberType) {p : Pos} (h : t.tree.BadAt p) :
    p ∈ t.account.faults := by
  cases t with
  | plain t => exact t.faults_of_badAt h
  | func sig =>
    obtain ⟨t, ht, h⟩ := badAt_inner.1 h
    rcases List.mem_cons.1 ht with rfl | ht
    · obtain ⟨t, ht, h⟩ := badAt_inner.1 h
      obtain ⟨q, hq, rfl⟩ := List.mem_map.1 ht
      exact List.mem_append_left _ (Account.mem_faults_all hq (q.faults_of_badAt h))
    · obtain ⟨r, hr, rfl⟩ := Option.map_eq_some_iff.1 (Option.mem_toList.1 ht)
      exact List.mem_append_right _
        (Account.mem_faults_all (Option.mem_toList.2 hr) (r.faults_of_badAt h))

/-- Faults of a member are those of its type and of its value. -/
theorem Member.mem_faults {kind : BeanKind} {m : Member} {p : Pos}
    (h : (∃ t, m.type = some t ∧ p ∈ t.account.faults) ∨
      ∃ v, m.value = some v ∧ p ∈ v.account.faults) : p ∈ (m.account kind).faults := by
  unfold account
  rcases h with ⟨t, ht, h⟩ | ⟨v, hv, h⟩
  · refine List.mem_append_left _ (List.mem_append_left _ (List.mem_append_right _ ?_))
    have htype : p ∈ (Account.all MemberType.account m.type.toList).faults :=
      Account.mem_faults_all (by rw [ht]; exact List.mem_cons_self) h
    split
    · exact List.mem_append_right _ htype
    · exact List.mem_append_left _ htype
  · refine List.mem_append_left _ (List.mem_append_right _ ?_)
    exact Account.mem_faults_all (by rw [hv]; exact List.mem_cons_self) h

theorem Member.faults_of_badAt (kind : BeanKind) (m : Member) {p : Pos} (h : m.tree.BadAt p) :
    p ∈ (m.account kind).faults := by
  obtain ⟨t, ht, h⟩ := badAt_inner.1 h
  refine mem_faults ?_
  simp only [List.mem_append] at ht
  rcases ht with (((((ht | ht) | ht) | ht) | ht) | ht) | ht
  · exact absurd h (not_badAt_comments ht p)
  · exact absurd h (not_badAt_idents ht p)
  · obtain ⟨u, hu, rfl⟩ := Option.map_eq_some_iff.1 (Option.mem_toList.1 ht)
    exact .inl ⟨u, hu, u.faults_of_badAt h⟩
  · exact absurd h (not_badAt_idents ht p)
  · obtain ⟨v, hv, rfl⟩ := Option.map_eq_some_iff.1 (Option.mem_toList.1 ht)
    exact .inr ⟨v, hv, v.faults_of_badAt h⟩
  · exact absurd h (not_badAt_lits ht p)
  · exact absurd h (not_badAt_comments ht p)

theorem mem_faults_members {kind : BeanKind} {scope : ScopeId} {file : FileId} {decl index : Nat}
    {ms : List Member} {m : Member} {p : Pos} (hm : m ∈ ms) (h : p ∈ (m.account kind).faults) :
    p ∈ (membersAccount kind scope file decl index ms).faults := by
  induction ms generalizing index with
  | nil => cases hm
  | cons x ms ih =>
    rcases List.mem_cons.1 hm with rfl | hm
    · exact List.mem_append_left _ (List.mem_append_left _ h)
    · exact List.mem_append_right _ (ih hm)

/-- A bad value of a constant is a fault, also if the value is inherited. -/
theorem mem_faults_consts {outer : ScopeId} {file : FileId} {decl index : Nat}
    {previous : Option Value} {first : Option Pos} {ss : List ConstSpec} {s : ConstSpec} {p : Pos}
    (hs : s ∈ ss) (h : s.value = some (.bad p)) :
    p ∈ (constsAccount outer file decl index previous first ss).faults := by
  induction ss generalizing index previous first with
  | nil => cases hs
  | cons x ss ih =>
    rcases List.mem_cons.1 hs with rfl | hs
    · refine List.mem_append_left _ (List.mem_append_left _ (List.mem_append_right _ ?_))
      rw [h]
      exact List.mem_cons_self
    · exact List.mem_append_right _ (ih hs)

theorem Decl.faults_of_badAt (d : Decl) (outer scope : ScopeId) (file : FileId) (index : Nat)
    {p : Pos} (h : d.tree.BadAt p) : p ∈ (d.account outer scope file index).faults := by
  cases d with
  | bad span =>
    obtain ⟨_, _, he, hp⟩ := (badAt_leaf rfl).1 h
    cases he
    exact hp ▸ List.mem_cons_self
  | imports g =>
    obtain ⟨t, ht, h⟩ := badAt_inner.1 h
    rcases List.mem_append.1 ht with ht | ht
    · exact absurd h (not_badAt_comments ht p)
    · obtain ⟨s, -, rfl⟩ := List.mem_map.1 ht
      obtain ⟨t, ht, h⟩ := badAt_inner.1 h
      simp only [List.mem_append] at ht
      rcases ht with ((ht | ht) | ht) | ht
      · exact absurd h (not_badAt_comments ht p)
      · have hidents : t ∈ s.localName.toList.map Ident.tree := by
          cases hn : s.localName <;> simp_all
        exact absurd h (not_badAt_idents hidents p)
      · exact absurd h (List.mem_singleton.1 ht ▸ not_badAt_lit _ p)
      · exact absurd h (not_badAt_comments ht p)
  | consts g =>
    obtain ⟨t, ht, h⟩ := badAt_inner.1 h
    rcases List.mem_append.1 ht with ht | ht
    · exact absurd h (not_badAt_comments ht p)
    · obtain ⟨s, hs, rfl⟩ := List.mem_map.1 ht
      obtain ⟨t, ht, h⟩ := badAt_inner.1 h
      simp only [List.mem_append] at ht
      rcases ht with ((ht | ht) | ht) | ht
      · exact absurd h (not_badAt_comments ht p)
      · exact absurd h (List.mem_singleton.1 ht ▸ not_badAt_ident _ p)
      · obtain ⟨v, hv, rfl⟩ := Option.map_eq_some_iff.1 (Option.mem_toList.1 ht)
        exact mem_faults_consts hs (hv.trans (congrArg some (v.bad_tree h)))
      · exact absurd h (not_badAt_comments ht p)
  | bean b =>
    obtain ⟨t, ht, h⟩ := badAt_inner.1 h
    simp only [List.mem_append] at ht
    rcases ht with ((ht | ht) | ht) | ht
    · exact absurd h (not_badAt_comments ht p)
    · exact absurd h (List.mem_singleton.1 ht ▸ not_badAt_ident _ p)
    · exact absurd h (not_badAt_lits ht p)
    · rw [List.mem_singleton.1 ht] at h
      obtain ⟨t, ht, h⟩ := badAt_inner.1 h
      obtain ⟨m, hm, rfl⟩ := List.mem_map.1 ht
      exact List.mem_append_left _ (List.mem_append_right _
        (mem_faults_members hm (m.faults_of_badAt b.kind h)))

theorem mem_faults_decls {outer : ScopeId} {file : FileId} {ds : List Decl} {d : Decl} {p : Pos}
    (hd : d ∈ ds) (h : ∀ scope index, p ∈ (d.account outer scope file index).faults)
    (scope : ScopeId) (index : Nat) : p ∈ (declsAccount outer scope file index ds).faults := by
  induction ds generalizing scope index with
  | nil => cases hd
  | cons x ds ih =>
    rcases List.mem_cons.1 hd with rfl | hd
    · exact List.mem_append_left _ (h ..)
    · exact List.mem_append_right _ (ih hd ..)

/-- What could not be parsed is a fault of the account. -/
theorem File.faults_of_badAt (f : File) (scope : ScopeId) {p : Pos} (h : f.tree.BadAt p) :
    p ∈ (f.account scope).faults := by
  obtain ⟨t, ht, h⟩ := badAt_inner.1 h
  simp only [List.mem_append] at ht
  rcases ht with (ht | ht) | ht
  · exact absurd h (not_badAt_comments ht p)
  · exact absurd h (List.mem_singleton.1 ht ▸ not_badAt_ident _ p)
  · obtain ⟨d, hd, rfl⟩ := List.mem_map.1 ht
    exact List.mem_append_right _ (mem_faults_decls hd (fun _ _ => d.faults_of_badAt _ _ _ _ h) _ _)

/-- What could not be parsed is at a place of the account. -/
theorem File.covers_bad (f : File) (scope : ScopeId) {what : BadNode} {span : Span}
    (h : .bad what span ∈ f.tree.nodes) : (f.account scope).Covers span.start :=
  Account.covers_of_fault (f.faults_of_badAt scope ⟨what, span, h, rfl⟩)

/-- Warnings about the beans of a file are about places of its account. -/
theorem File.beanWarnings_covers (env : LowerEnv) (g f : File) (scope : ScopeId) :
    ∀ d ∈ (f.decls.filterMap Decl.bean?).flatMap (Bean.warnings env g),
      (f.account scope).Covers d.span.start := by
  intro d hd
  obtain ⟨b, hb, hd⟩ := List.mem_flatMap.1 hd
  obtain ⟨x, hx, hxb⟩ := List.mem_filterMap.1 hb
  refine Account.Covers.append_right (covers_decls hx (fun scope index => ?_) _ _) _
  cases x with
  | bean b' =>
    rw [← Option.some.inj hxb] at hd
    exact b'.warnings_covers env g _ _ _ _ d hd
  | _ => cases hxb

end Idl
