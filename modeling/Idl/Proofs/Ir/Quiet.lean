/-
Idl/Proofs/Ir/Quiet.lean

Sources that are compiled without a word.

The lowering speaks up about bad nodes, malformed tags and sizes that are no numbers.  A sound file
has no bad nodes (`File.Sound.tree`), and a type that is lowered to one with known sizes brings no
warning (`TypeExpr.warnings_eq_nil`).

Main result: a source that declares a single bean and is parsed without a report is compiled without
one, unless there is something to say about a member (`Source.compile_quiet`).
-/
import Idl.Proofs.Ir.Clean
import Idl.Proofs.Ir.Single
import Idl.Proofs.Nodes
import Idl.Proofs.Reordering.Reports

namespace Idl

/-! ### Trees without bad nodes -/

/-- A tree without bad nodes. -/
def Tree.Sound (t : Tree) : Prop := ∀ n ∈ t.nodes, n.isBad = false

theorem Tree.Sound.node {n : Node} (hn : n.isBad = false) {children : List Tree}
    (h : ∀ t ∈ children, t.Sound) : (Tree.node n children).Sound := by
  intro m hm
  rcases mem_nodes.1 hm with rfl | ⟨-, t, ht, hm⟩
  · exact hn
  · exact h t ht m hm

theorem Ident.tree_sound (i : Ident) : i.tree.Sound := .node rfl (List.forall_mem_nil _)

theorem Lit.tree_sound (l : Lit) : l.tree.Sound := .node rfl (List.forall_mem_nil _)

theorem commentTrees_sound (g : Option CommentGroup) : ∀ t ∈ commentTrees g, t.Sound := by
  intro t ht
  obtain ⟨c, -, rfl⟩ := Option.map_eq_some_iff.1 (Option.mem_toList.1 ht)
  exact .node rfl (List.forall_mem_nil _)

/-- The tree of what may be missing. -/
theorem optional_sound {α : Type} {f : α → Tree} {o : Option α} (h : ∀ a ∈ o, (f a).Sound) :
    ∀ t ∈ (o.map f).toList, t.Sound := by
  intro t ht
  obtain ⟨a, ha, rfl⟩ := Option.map_eq_some_iff.1 (Option.mem_toList.1 ht)
  exact h a ha

theorem Value.Sound.tree {v : Value} (h : v.Sound) : v.tree.Sound := by
  cases v with
  | bad p => exact absurd h id
  | ident i => exact .node rfl (List.forall_mem_singleton.2 i.tree_sound)
  | lit l => exact .node rfl (List.forall_mem_singleton.2 l.tree_sound)

theorem TypeExpr.Sound.tree {t : TypeExpr} (h : t.Sound) : t.tree.Sound := by
  induction t with
  | bad p => exact absurd h id
  | basic name b => exact .node rfl (List.forall_mem_singleton.2 name.tree_sound)
  | array p elem size closing ih =>
    exact .node rfl (List.forall_mem_cons.2 ⟨ih h.1, List.forall_mem_singleton.2 h.2.tree⟩)
  | vector p elem closing ih => exact .node rfl (List.forall_mem_singleton.2 (ih h))
  | map p key value closing ihk ihv =>
    exact .node rfl (List.forall_mem_cons.2 ⟨ihk h.1, List.forall_mem_singleton.2 (ihv h.2)⟩)
  | named qualifier name =>
    exact .node rfl (List.forall_mem_append.2 ⟨optional_sound fun i _ => i.tree_sound,
      List.forall_mem_singleton.2 name.tree_sound⟩)

theorem MemberType.tree_sound {t : MemberType} (h : ∀ u ∈ t.types, u.Sound) : t.tree.Sound := by
  cases t with
  | plain t => exact (h t List.mem_cons_self).tree
  | func sig =>
    obtain ⟨hparams, hresult⟩ := List.forall_mem_append.1 h
    have hparam (p : Param) (hp : p ∈ sig.params) : p.tree.Sound :=
      .node rfl (List.forall_mem_cons.2 ⟨(hparams _ (List.mem_map_of_mem hp)).tree,
        optional_sound fun i _ => i.tree_sound⟩)
    refine .node rfl (List.forall_mem_cons.2 ⟨?_, optional_sound fun t ht => ?_⟩)
    · exact .node rfl (List.forall_mem_map.2 hparam)
    · exact (hresult t (Option.mem_toList.2 ht)).tree

theorem Member.Sound.tree {m : Member} (h : m.Sound) : m.tree.Sound := by
  have htype (t : MemberType) (ht : t ∈ m.type) : t.tree.Sound :=
    MemberType.tree_sound fun u hu =>
      h.types u (List.mem_flatMap.2 ⟨t, Option.mem_toList.2 ht, hu⟩)
  refine .node rfl ?_
  simp only [List.forall_mem_append, List.forall_mem_map]
  exact ⟨⟨⟨⟨⟨⟨commentTrees_sound _, fun i _ => i.tree_sound⟩, optional_sound htype⟩,
    fun i _ => i.tree_sound⟩, optional_sound fun v hv => (h.value v hv).tree⟩,
    optional_sound fun l _ => l.tree_sound⟩, commentTrees_sound _⟩

theorem ImportSpec.tree_sound (s : ImportSpec) : s.tree.Sound := by
  refine .node rfl ?_
  simp only [List.forall_mem_append]
  exact ⟨⟨⟨commentTrees_sound _, optional_sound fun i _ => i.tree_sound⟩,
    List.forall_mem_singleton.2 s.path.tree_sound⟩, commentTrees_sound _⟩

theorem ConstSpec.tree_sound {s : ConstSpec} (h : ∀ v ∈ s.value, v.Sound) : s.tree.Sound := by
  refine .node rfl ?_
  simp only [List.forall_mem_append]
  exact ⟨⟨⟨commentTrees_sound _, List.forall_mem_singleton.2 s.name.tree_sound⟩,
    optional_sound fun v hv => (h v hv).tree⟩, commentTrees_sound _⟩

theorem Decl.Sound.tree {d : Decl} (h : d.Sound) : d.tree.Sound := by
  cases d with
  | bad span => exact absurd h id
  | imports g =>
    exact .node rfl (List.forall_mem_append.2 ⟨commentTrees_sound _,
      List.forall_mem_map.2 fun s _ => s.tree_sound⟩)
  | consts g =>
    refine .node rfl (List.forall_mem_append.2 ⟨commentTrees_sound _,
      List.forall_mem_map.2 fun s hs => ConstSpec.tree_sound fun v hv => ?_⟩)
    obtain ⟨w, hw, hsound⟩ := h s hs
    exact Option.some.inj (hw.symm.trans hv) ▸ hsound
  | bean b =>
    have hbody : b.body.tree.Sound := .node rfl (List.forall_mem_map.2 fun m hm => (h m hm).tree)
    refine .node rfl ?_
    simp only [List.forall_mem_append]
    exact ⟨⟨⟨commentTrees_sound _, List.forall_mem_singleton.2 b.name.tree_sound⟩,
      optional_sound fun l _ => l.tree_sound⟩, List.forall_mem_singleton.2 hbody⟩

/-- Sound files have no bad nodes. -/
theorem File.Sound.tree {f : File} (h : f.Sound) : f.tree.Sound := by
  refine .node rfl ?_
  simp only [List.forall_mem_append, List.forall_mem_map]
  exact ⟨⟨commentTrees_sound _, List.forall_mem_singleton.2 f.name.tree_sound⟩,
    fun d hd => (h d hd).tree⟩

/-! ### Types and members without warnings -/

section Warnings

variable {env : LowerEnv} {f : File}

/-- Nothing is said about types that are lowered to types with known sizes. -/
theorem TypeExpr.warnings_eq_nil {t : TypeExpr}
    (h : (t.lower env f).Clean fun n => n.length?.isSome = true) : t.warnings env f = [] := by
  induction t with
  | array p elem size closing ih =>
    cases h with
    | array helem hn =>
      have hsize : sizeWarnings env f size = [] := by
        unfold sizeWarnings
        cases size with
        | bad p => rfl
        | _ => exact if_pos hn
      rw [warnings, ih helem, hsize]
      rfl
  | vector p elem closing ih =>
    cases h with
    | vector helem => exact ih helem
  | map p key value closing ihk ihv =>
    cases h with
    | map hkey hvalue =>
      rw [warnings, ihk hkey, ihv hvalue]
      rfl
  | _ => rfl

/-- There is nothing to say about the member where its names stand for nothing. -/
def Member.Quiet (m : Member) : Prop :=
  ∀ env f, LowerEnv.Bare env f (m.types.flatMap TypeExpr.qualifiedNames) →
    ∀ b : Bean, b.memberWarnings env f m = []

/-- Nothing is said about a sound file with a bean without a tag, the members of which are quiet. -/
theorem File.Sound.warnings_eq_nil (h : f.Sound) {b : Bean} (hdecls : f.decls = [.bean b])
    (htag : b.tag = none) (hmembers : ∀ m ∈ b.body.members, m.Quiet)
    (hbare : env.Bare f (b.types.flatMap TypeExpr.qualifiedNames)) : f.warnings env = [] := by
  have hnodes : f.tree.nodes.filterMap badNodeWarning? = [] := by
    refine List.filterMap_eq_nil_iff.2 fun n hn => ?_
    have hgood := h.tree n hn
    cases n with
    | bad what span => cases hgood
    | _ => rfl
  have hbean : b.warnings env f = [] := by
    have hall : b.body.members.flatMap (b.memberWarnings env f) = [] := by
      refine List.flatMap_eq_nil_iff.2 fun m hm => hmembers m hm env f (hbare.mono fun q hq => ?_) b
      obtain ⟨t, ht, hq⟩ := List.mem_flatMap.1 hq
      exact List.mem_flatMap.2 ⟨t, List.mem_flatMap.2 ⟨m, hm, ht⟩, hq⟩
    rw [Bean.warnings, hall, htag]
    rfl
  rw [File.warnings, hnodes, hdecls]
  show [] ++ [b].flatMap (Bean.warnings env f) = []
  rw [List.flatMap_singleton, hbean]
  rfl

end Warnings

/-! ### The whole way -/

theorem Source.interchangeable_single {s : Source} (h : FileSet.Admits {} s) :
    Interchangeable [s] where
  names := List.nodup_singleton _
  room := h.room
  once := by
    rw [(s.parseSources_single h).1]
    exact List.pairwise_singleton ..

/-- While a source that imports nothing is linked alone, nothing is reported. -/
theorem Source.linked_quiet {s : Source} (h : FileSet.Admits {} s)
    (himports : s.alone.file.imports = []) : (linkSources [s]).diagnostics = [] := by
  obtain ⟨names, hperm, hreports⟩ := (Source.interchangeable_single h).linked_diagnostics
  rw [hreports]
  refine List.flatMap_eq_nil_iff.2 fun f hf => ?_
  have hf := hperm.mem_iff.1 hf
  rw [(s.parseSources_single h).1, List.mem_singleton] at hf
  rw [hf, File.missingImports, himports]
  rfl

/-- A source that declares a bean without a tag and nothing else is compiled without a report, if it is
parsed without one and the members of the bean are quiet. -/
theorem Source.compile_quiet {s : Source} (hroom : FileSet.Admits {} s)
    (hquiet : s.alone.diagnostics = []) {b : Bean} (hdecls : s.alone.file.decls = [.bean b])
    (htag : b.tag = none) (hmembers : ∀ m ∈ b.body.members, m.Quiet) :
    (compile [s]).diagnostics = [] := by
  have himports : s.alone.file.imports = [] := by
    unfold File.imports
    rw [hdecls]
    rfl
  obtain ⟨p, g, hpackages, -, hfiles, hg, hbare⟩ := Source.linked_bean hroom hdecls
  have hgdecls : g.decls = s.alone.file.decls := (congrArg File.decls hg).trans rfl
  have hsound : g.Sound := by
    have halone : s.alone.file.Sound := s.sound fun d hd => absurd (hquiet ▸ hd) List.not_mem_nil
    unfold File.Sound
    rw [hgdecls]
    exact halone
  have hwarnings : loweringWarnings (linkSources [s]).packages (linkSources [s]).symbols = [] := by
    unfold loweringWarnings
    rw [hpackages, List.flatMap_singleton, hfiles, List.flatMap_singleton]
    exact hsound.warnings_eq_nil (hgdecls.trans hdecls) htag hmembers hbare
  refine List.eq_nil_iff_forall_not_mem.2 fun d hd => ?_
  -- each of the three stages would have to report it
  rcases List.mem_append.1 (mem_sortDiagnostics.1 hd) with hd | hd
  · rcases List.mem_append.1 hd with hd | hd
    · rw [(s.parseSources_single hroom).2, hquiet] at hd
      exact List.not_mem_nil hd
    · have hd : d ∈ (linkSources [s]).diagnostics := hd
      rw [Source.linked_quiet hroom himports] at hd
      exact List.not_mem_nil hd
  · have hd : d ∈ loweringWarnings (linkSources [s]).packages (linkSources [s]).symbols := hd
    rw [hwarnings] at hd
    exact List.not_mem_nil hd

end Idl
