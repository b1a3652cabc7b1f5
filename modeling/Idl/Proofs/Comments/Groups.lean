/-
Idl/Proofs/Comments/Groups.lean

The comments of a file, all of them and each one once.

The comments between two tokens are handed to the second of them in groups, so the groups of a file
hold its comments in order.  A group that leads or trails a token is one of these.  That the tree has
no others is seen without looking at the grammar again: when the groups of the file are all that is
left of the comments, nothing is gone from the tokens, so nothing is gone from the tree either
(`file_sifted`).

Main result: the groups of a file hold its comments, those in its tree are among them, and they are what
parsing has gathered on its way (`parseFile_comments`).
-/
import Idl.Proofs.Comments.Cursor
import Idl.Proofs.Comments.Sifting
import Idl.Proofs.Nodes
import Idl.Proofs.Syntax.Ending

namespace Idl

/-! ### The groups in a tree -/

/-- The group of comments that a node is. -/
def Node.group? : Node → Option CommentGroup
  | .comments g => some g
  | _ => none

/-- The groups of comments in a tree. -/
def Tree.groups (t : Tree) : List CommentGroup := t.collect Node.group?

namespace Tree

@[simp] theorem groups_inner (k : NodeKind) (p : Pos) (children : List Tree) :
    (node (.inner k p) children).groups = children.flatMap groups := collect_node ..

@[simp] theorem groups_bad (what : BadNode) (span : Span) (children : List Tree) :
    (node (.bad what span) children).groups = [] := collect_node ..

@[simp] theorem groups_ident (i : Ident) : i.tree.groups = [] := collect_node ..

@[simp] theorem groups_lit (l : Lit) : l.tree.groups = [] := collect_node ..

@[simp] theorem groups_comments (g : Option CommentGroup) :
    (commentTrees g).flatMap groups = g.toList := by
  cases g with
  | none => rfl
  | some g => exact (List.append_nil _).trans (collect_node ..)

theorem groups_all {α : Type} {tree : α → Tree} (h : ∀ a, (tree a).groups = []) (xs : List α) :
    (xs.map tree).flatMap groups = [] :=
  List.flatMap_eq_nil_iff.2 (List.forall_mem_map.2 fun a _ => h a)

theorem groups_optional {α : Type} {tree : α → Tree} (h : ∀ a, (tree a).groups = [])
    (o : Option α) : (o.map tree).toList.flatMap groups = [] := by
  cases o <;> simp [h]

end Tree

theorem Value.groups_tree (v : Value) : v.tree.groups = [] := by
  cases v <;> simp [tree]

theorem TypeExpr.groups_tree (t : TypeExpr) : t.tree.groups = [] := by
  induction t with
  | array p elem size closing ih => simp [tree, ih, size.groups_tree]
  | vector p elem closing ih => simp [tree, ih]
  | map p key value closing ihk ihv => simp [tree, ihk, ihv]
  | named qualifier name => cases qualifier <;> simp [tree]
  | _ => simp [tree]

theorem Param.groups_tree (p : Param) : p.tree.groups = [] := by
  simp [tree, p.type.groups_tree, Tree.groups_optional Tree.groups_ident]

theorem MemberType.groups_tree (t : MemberType) : t.tree.groups = [] := by
  cases t with
  | plain t => exact t.groups_tree
  | func sig =>
    simp [tree, Tree.groups_all Param.groups_tree, Tree.groups_optional TypeExpr.groups_tree]

theorem Member.groups_tree (m : Member) : m.tree.groups = m.doc.toList ++ m.comment.toList := by
  simp [tree, Tree.groups_all Tree.groups_ident, Tree.groups_optional MemberType.groups_tree,
    Tree.groups_optional Value.groups_tree, Tree.groups_optional Tree.groups_lit]

theorem ImportSpec.groups_tree (s : ImportSpec) :
    s.tree.groups = s.doc.toList ++ s.comment.toList := by
  simp [tree, Tree.groups_optional Tree.groups_ident]

theorem ConstSpec.groups_tree (s : ConstSpec) :
    s.tree.groups = s.doc.toList ++ s.comment.toList := by
  simp [tree, Tree.groups_optional Value.groups_tree]

theorem Bean.groups_tree (b : Bean) :
    b.tree.groups = b.doc.toList ++ b.body.members.flatMap fun m => m.tree.groups := by
  simp [tree, MemberList.tree, List.flatMap_map, Tree.groups_optional Tree.groups_lit]

/-! ### Sifted trees -/

section Sifted

variable (keep : CommentGroup → Bool)

theorem Bean.groups_sifted (b : Bean) : (b.sifted keep).tree.groups = b.tree.groups.filter keep := by
  simp [groups_tree, sifted, List.flatMap_map, List.filter_flatMap, Member.groups_tree,
    Member.sifted, Option.toList_filter]

theorem Decl.groups_sifted (d : Decl) : (d.sifted keep).tree.groups = d.tree.groups.filter keep := by
  cases d with
  | bad span => simp [sifted, tree]
  | imports g =>
    simp [sifted, tree, SpecGroup.sifted, List.flatMap_map, List.filter_flatMap,
      ImportSpec.groups_tree, ImportSpec.sifted, Option.toList_filter]
  | consts g =>
    simp [sifted, tree, SpecGroup.sifted, List.flatMap_map, List.filter_flatMap,
      ConstSpec.groups_tree, ConstSpec.sifted, Option.toList_filter]
  | bean b => exact b.groups_sifted keep

/-- A sifted tree has the groups that are left of those of the tree. -/
theorem File.groups_sifted (f : File) : (f.sifted keep).tree.groups = f.tree.groups.filter keep := by
  simp [sifted, tree, List.flatMap_map, List.filter_flatMap, Decl.groups_sifted,
    Option.toList_filter]

end Sifted

/-! ### The comments of tokens -/

/-- All comments of a token are among its groups. -/
def SignificantToken.Grouped (t : SignificantToken) : Prop :=
  ∀ g, t.lead = some g ∨ t.trailing = some g → g ∈ t.groups

section Grouping

variable (lineOf : Pos → Nat)

theorem attachComments_grouped (prevLine : Nat) (cs : List Comment) (next : Token) :
    (attachComments lineOf prevLine cs next).Grouped := by
  have hgroups {same : List Comment} {g : CommentGroup} {groups : List CommentGroup}
      (h : g ∈ groups) : g ∈ if same = [] then groups else ⟨same⟩ :: groups := by
    split
    · exact h
    · exact List.mem_cons_of_mem _ h
  rintro g (hlead | htrailing)
  · exact hgroups (List.mem_of_getLast? (Option.filter_eq_some_iff.1 hlead).1)
  · simp only [attachComments, Option.ite_none_right_eq_some] at htrailing ⊢
    obtain ⟨⟨hsame, -⟩, hg⟩ := htrailing
    rw [if_neg hsame, ← Option.some.inj hg]
    exact List.mem_cons_self

theorem significantFrom_grouped (prevLine : Nat) (held : List Comment) (ts : List Token) :
    ∀ t ∈ significantFrom lineOf prevLine held ts, t.Grouped := by
  fun_induction significantFrom lineOf prevLine held ts with
  | case1 => exact List.forall_mem_nil _
  | case2 prevLine held t ts hk ih => exact ih
  | case3 prevLine held t ts hk ih => exact ih
  | case4 prevLine held t ts h h' ih =>
    exact List.forall_mem_cons.2 ⟨attachComments_grouped lineOf prevLine held.reverse t, ih⟩

end Grouping

/-- Nothing is gone from a token of which all groups are left. -/
theorem SignificantToken.Grouped.sifted {t : SignificantToken} (h : t.Grouped)
    {keep : CommentGroup → Bool} (hkeep : ∀ g ∈ t.groups, keep g = true) : t.sifted keep = t := by
  have hkept {o : Option CommentGroup} (ho : ∀ g, o = some g → keep g = true) :
      o.filter keep = o := by
    cases o with
    | none => rfl
    | some g => exact if_pos (ho g rfl)
  have hlead := hkept fun g hg => hkeep g (h g (.inl hg))
  have htrailing := hkept fun g hg => hkeep g (h g (.inr hg))
  unfold SignificantToken.sifted
  rw [hlead, htrailing, List.filter_eq_self.2 hkeep]

/-! ### The comments of a file -/

/-- A file keeps the comments among tokens: its groups hold all of them, in order and each one once,
and the groups in its tree are some of these. -/
structure File.KeepsComments (f : File) (ts : List Token) : Prop where
  all : f.comments.flatMap (·.comments) = commentsOf ts
  nonempty : ∀ g ∈ f.comments, g.comments ≠ []
  attached : ∀ g, Node.comments g ∈ f.tree.nodes → g ∈ f.comments

/-- If nothing is gone when only its groups are left, the groups in the tree of a file are some of
these. -/
theorem File.attached_of_sifted {f : File} (h : f.sifted (fun g => decide (g ∈ f.comments)) = f) :
    ∀ g, Node.comments g ∈ f.tree.nodes → g ∈ f.comments := by
  intro g hg
  have hfilter := f.groups_sifted fun g => decide (g ∈ f.comments)
  rw [h] at hfilter
  have hmem : g ∈ f.tree.groups := Tree.mem_collect.2 ⟨_, hg, rfl⟩
  exact of_decide_eq_true (List.filter_eq_self.1 hfilter.symm g hmem)

/-- Parsing attaches no comments but those of the tokens. -/
theorem Parse.file_attached (file : SourceFile) (id : FileId) (symbols : SymbolTable)
    {ts : List SignificantToken} (h : ∀ t ∈ ts, t.Grouped) :
    let f := (Parse.file (ts.flatMap (·.groups)) (.start file id symbols ts)).1
    ∀ g, Node.comments g ∈ f.tree.nodes → g ∈ f.comments := by
  let keep (g : CommentGroup) : Bool := decide (g ∈ ts.flatMap (·.groups))
  have hkeep : ∀ g ∈ ts.flatMap (·.groups), keep g = true := fun g hg => decide_eq_true hg
  have htokens : ts.map (.sifted keep) = ts := by
    refine (List.map_congr_left fun t ht => ?_).trans (List.map_id ts)
    exact (h t ht).sifted fun g hg => hkeep g (List.mem_flatMap.2 ⟨t, ht, hg⟩)
  have hstart := ParseState.start_sifted keep file id symbols ts
  rw [htokens] at hstart
  have hfile := Parse.file_sifted keep (ts.flatMap (·.groups)) (.start file id symbols ts)
  rw [← hstart, List.filter_eq_self.2 hkeep] at hfile
  exact File.attached_of_sifted (congrArg Prod.fst hfile).symm

/-- **No comment is lost or told twice.**  A file that is not refused keeps its comments.  They are what the
cursor has gathered at the end of the one run that parsing is, which takes all tokens. -/
theorem parseFile_comments (files : FileSet) (symbols : SymbolTable) (name source : String) :
    let s : Source := ⟨name, source⟩
    let start := s.startAt files symbols
    let cursor := Cursor.after (s.fileAt files.next).lineOf (s.tokensAt files.next)
    (positionBound ≤ files.next + source.utf8ByteSize + 1 ∧
        parseFile files symbols name source = .error .overflow) ∨
      ∃ r, parseFile files symbols name source = .ok r ∧
        r.file.KeepsComments (scanSource files.next source).allTokens ∧
        (files.next ≠ 0 → ∃ tr t, Run start tr t ∧ t.left = [] ∧
          r.file.comments = (cursor (Trace.tokens tr).length).groups ∧
          r.file = (Parse.file r.file.comments start).1 ∧
          Parse.settlePending t = (r.file.unresolved, (Parse.file r.file.comments start).2)) := by
  intro s start cursor
  have hgathers (r : ParseResult) (hr : parseFile files symbols name source = .ok r)
      (hbegun : files.next ≠ 0) := s.gathers files symbols hbegun hr
  rw [parseFile_eq_of] at hgathers ⊢
  split at hgathers
  · next hfull => exact .inl ⟨hfull, if_pos hfull⟩
  · next hroom =>
    rw [if_neg hroom]
    refine .inr ⟨_, rfl, ?_, hgathers _ rfl⟩
    obtain ⟨-, -, hflat, hgroups⟩ := significant_allTokens
      (SourceFile.scan { name, base := files.next, size := source.utf8ByteSize } source).2.lineOf
      files.next source
    exact ⟨hflat, hgroups, Parse.file_attached _ _ _ (significantFrom_grouped _ 0 [] _)⟩

/-- The comments of a source that has them everywhere are gathered and kept. -/
theorem parseFile_comments_richly :
    let s := richlyCommented
    let cursor := Cursor.after (s.fileAt (FileSet.next {})).lineOf (s.tokensAt (FileSet.next {}))
    FileSet.next {} ≠ 0 ∧ ∃ r, parseFile {} {} s.name s.text = .ok r ∧
      r.file.KeepsComments (scanSource (FileSet.next {}) s.text).allTokens ∧
      ∃ tr t, Run (s.startAt {} {}) tr t ∧ t.left = [] ∧
        r.file.comments = (cursor (Trace.tokens tr).length).groups := by
  intro s cursor
  have hbegun : FileSet.next {} ≠ 0 := by decide
  rcases parseFile_comments {} {} s.name s.text with ⟨hfull, -⟩ | ⟨r, hr, hkeeps, hgathers⟩
  · exact absurd hfull (by decide +kernel)
  · obtain ⟨tr, t, run, hleft, hcomments, -⟩ := hgathers hbegun
    exact ⟨hbegun, r, hr, hkeeps, tr, t, run, hleft, hcomments⟩

end Idl
