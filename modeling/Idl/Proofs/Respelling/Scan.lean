/-
Idl/Proofs/Respelling/Scan.lean

The significant tokens of a respelled file.

Which tokens a comment belongs to depends on lines only: on those where tokens and comments start, and
on those where comments end.  `t.ReadsAs ρ lineOf lineOf' t'` says that the token `t'` is `t`, respelled,
and that a comment ends on the line on which it ended, though perhaps elsewhere on that line: where
comments end is not looked at, save for their lines.  So the significant tokens of a respelled file are
those of the file, respelled (`significant_respelled`).
-/
import Idl.Comment
import Idl.Proofs.Respelling
import Mathlib.Data.List.Forall2

namespace Idl

variable (ρ : Respelling) (lineOf lineOf' : Pos → Nat)

/-- A comment ends on the line on which it ended. -/
def Comment.EndsAlike (c : Comment) : Prop := (c.respelled ρ).endLine lineOf' = c.endLine lineOf

/-- The token `t'` is `t`, respelled, save that a comment may end elsewhere on its last line. -/
structure Token.ReadsAs (t t' : Token) : Prop where
  kind : t'.kind = t.kind
  text : t'.text = ρ.text t.kind t.text
  pos : t'.pos = ρ.pos t.pos
  stop : t.kind ≠ .comment → t'.span.stop = ρ.pos t.span.stop
  ends : t.kind = .comment → (⟨t.pos, t.text⟩ : Comment).EndsAlike ρ lineOf lineOf'

variable {ρ lineOf lineOf'}

/-- A token that is no comment is the respelled token. -/
theorem Token.ReadsAs.eq {t t' : Token} (h : t.ReadsAs ρ lineOf lineOf' t')
    (hk : t.kind ≠ .comment) : t' = t.respelled ρ := by
  rcases t' with ⟨kind, text, start, stop⟩
  obtain rfl : kind = t.kind := h.kind
  obtain rfl : text = ρ.text t.kind t.text := h.text
  obtain rfl : start = ρ.pos t.span.start := h.pos
  obtain rfl : stop = ρ.pos t.span.stop := h.stop hk
  rfl

/-- A comment is the respelled comment. -/
theorem Token.ReadsAs.comment_eq {t t' : Token} (h : t.ReadsAs ρ lineOf lineOf' t')
    (hk : t.kind = .comment) :
    (⟨t'.pos, t'.text⟩ : Comment) = (⟨t.pos, t.text⟩ : Comment).respelled ρ := by
  rw [h.pos, h.text, hk]
  rfl

/-! ### Comments -/

section Comments

variable (hl : ∀ p, lineOf' (ρ.pos p) = lineOf p)

/-- A group ends where its last comment does. -/
theorem CommentGroup.endLine_respelled {g : CommentGroup}
    (h : ∀ c ∈ g.comments, c.EndsAlike ρ lineOf lineOf') :
    (g.respelled ρ).endLine lineOf' = g.endLine lineOf := by
  unfold CommentGroup.endLine CommentGroup.respelled
  rw [List.getLast?_map]
  cases hlast : g.comments.getLast? with
  | none => rfl
  | some c => exact h c (List.mem_of_getLast? hlast)

include hl

theorem groupLength_respelled (gap endLine : Nat) {cs : List Comment}
    (h : ∀ c ∈ cs, c.EndsAlike ρ lineOf lineOf') :
    groupLength lineOf' gap endLine (cs.map (Comment.respelled ρ)) =
      groupLength lineOf gap endLine cs := by
  induction cs generalizing endLine with
  | nil => rfl
  | cons c cs ih =>
    obtain ⟨hc, hcs⟩ := List.forall_mem_cons.1 h
    rw [List.map_cons, groupLength, groupLength, hc, ih _ hcs]
    simp only [Comment.respelled, hl]

theorem commentGroups_respelled {cs : List Comment}
    (h : ∀ c ∈ cs, c.EndsAlike ρ lineOf lineOf') :
    commentGroups lineOf' (cs.map (Comment.respelled ρ)) =
      (commentGroups lineOf cs).map (CommentGroup.respelled ρ) := by
  fun_induction commentGroups lineOf cs with
  | case1 => simp [commentGroups]
  | case2 c cs n ih =>
    obtain ⟨hc, hcs⟩ := List.forall_mem_cons.1 h
    rw [List.map_cons, commentGroups, hc, groupLength_respelled hl _ _ hcs, ← List.map_drop,
      ← List.map_take, ih fun c hc => hcs c (List.mem_of_mem_drop hc)]
    rfl

theorem sameLineComments_respelled (prevLine : Nat) {cs : List Comment}
    (h : ∀ c ∈ cs, c.EndsAlike ρ lineOf lineOf') :
    sameLineComments lineOf' prevLine (cs.map (Comment.respelled ρ)) =
      (sameLineComments lineOf prevLine cs).map (Comment.respelled ρ) := by
  cases cs with
  | nil => rfl
  | cons c cs =>
    obtain ⟨hc, hcs⟩ := List.forall_mem_cons.1 h
    rw [List.map_cons, sameLineComments, sameLineComments, hc, groupLength_respelled hl _ _ hcs,
      ← List.map_take]
    simp only [Comment.respelled, hl]
    split <;> rfl

end Comments

theorem mem_sameLineComments {prevLine : Nat} {c : Comment} {cs : List Comment}
    (h : c ∈ sameLineComments lineOf prevLine cs) : c ∈ cs := by
  cases cs with
  | nil => exact h
  | cons d ds =>
    rw [sameLineComments] at h
    split at h
    · rcases List.mem_cons.1 h with rfl | h
      · exact List.mem_cons_self
      · exact List.mem_cons_of_mem _ (List.mem_of_mem_take h)
    · cases h

/-- The groups of comments hold no others. -/
theorem mem_commentGroups {cs : List Comment} {g : CommentGroup} (hg : g ∈ commentGroups lineOf cs)
    {c : Comment} (hc : c ∈ g.comments) : c ∈ cs := by
  fun_induction commentGroups lineOf cs with
  | case1 => cases hg
  | case2 d cs n ih =>
    rcases List.mem_cons.1 hg with rfl | hg
    · rcases List.mem_cons.1 hc with rfl | hc
      · exact List.mem_cons_self
      · exact List.mem_cons_of_mem _ (List.mem_of_mem_take hc)
    · exact List.mem_cons_of_mem _ (List.mem_of_mem_drop (ih hg))

/-! ### Tokens -/

section Tokens

variable (hl : ∀ p, lineOf' (ρ.pos p) = lineOf p)
include hl

theorem attachComments_respelled (prevLine : Nat) {cs : List Comment}
    (h : ∀ c ∈ cs, c.EndsAlike ρ lineOf lineOf') (next : Token) :
    attachComments lineOf' prevLine (cs.map (Comment.respelled ρ)) (next.respelled ρ) =
      (attachComments lineOf prevLine cs next).respelled ρ := by
  -- every comment is in the group on the line of the token before or behind it, so all end alike
  have hsame : ∀ c ∈ sameLineComments lineOf prevLine cs, c.EndsAlike ρ lineOf lineOf' :=
    fun c hc => h c (mem_sameLineComments hc)
  have hrest : ∀ c ∈ cs.drop (sameLineComments lineOf prevLine cs).length,
      c.EndsAlike ρ lineOf lineOf' := fun c hc => h c (List.mem_of_mem_drop hc)
  unfold attachComments
  simp only [sameLineComments_respelled hl prevLine h, List.length_map, ← List.map_drop,
    commentGroups_respelled hl hrest, Token.respelled_pos, hl, Token.respelled_kind]
  generalize sameLineComments lineOf prevLine cs = same at hsame hrest ⊢
  generalize cs.drop same.length = rest at hrest ⊢
  have hend : CommentGroup.endLine lineOf' ⟨same.map (Comment.respelled ρ)⟩ =
      CommentGroup.endLine lineOf ⟨same⟩ := CommentGroup.endLine_respelled (g := ⟨same⟩) hsame
  have hlast : ((commentGroups lineOf rest).map (CommentGroup.respelled ρ)).getLast?.filter
        (fun g => g.endLine lineOf' + 1 == lineOf next.pos) =
      ((commentGroups lineOf rest).getLast?.filter
        fun g => g.endLine lineOf + 1 == lineOf next.pos).map (CommentGroup.respelled ρ) := by
    rw [List.getLast?_map]
    cases hg : (commentGroups lineOf rest).getLast? with
    | none => rfl
    | some g =>
      have hg : ∀ c ∈ g.comments, c.EndsAlike ρ lineOf lineOf' := fun c hc =>
        hrest c (mem_commentGroups (List.mem_of_getLast? hg) hc)
      simp only [Option.map_some, Option.filter_some, CommentGroup.endLine_respelled hg]
      split <;> rfl
  -- what is left is to look which of the two parts are empty
  rw [hend, hlast]
  cases rest <;> cases same <;>
    simp [SignificantToken.respelled, CommentGroup.respelled, Comment.respelled, hl, apply_ite]

theorem significantFrom_respelled (prevLine : Nat) {held : List Comment} {ts ts' : List Token}
    (hheld : ∀ c ∈ held, c.EndsAlike ρ lineOf lineOf')
    (h : List.Forall₂ (Token.ReadsAs ρ lineOf lineOf') ts ts') :
    significantFrom lineOf' prevLine (held.map (Comment.respelled ρ)) ts' =
      (significantFrom lineOf prevLine held ts).map (SignificantToken.respelled ρ) := by
  induction h generalizing prevLine held with
  | nil => rfl
  | @cons t t' ts ts' ht _ ih =>
    rw [significantFrom, significantFrom, ht.kind]
    split
    -- illegal text is passed over
    · exact ih _ hheld
    · next hk =>
      rw [ht.comment_eq hk, ← List.map_cons]
      exact ih _ (List.forall_mem_cons.2 ⟨ht.ends hk, hheld⟩)
    · next hk =>
      have hnone : ∀ c ∈ ([] : List Comment), c.EndsAlike ρ lineOf lineOf' :=
        fun c hc => absurd hc List.not_mem_nil
      have hrest := ih (lineOf t.pos) hnone
      rw [ht.eq hk, List.map_cons, ← List.map_reverse,
        attachComments_respelled hl _ fun c hc => hheld c (List.mem_reverse.1 hc),
        Token.respelled_pos, hl, ← hrest]
      rfl

/-- The significant tokens of a respelled file are those of the file, respelled. -/
theorem significant_respelled {ts ts' : List Token}
    (h : List.Forall₂ (Token.ReadsAs ρ lineOf lineOf') ts ts') :
    significant lineOf' ts' = (significant lineOf ts).map (SignificantToken.respelled ρ) :=
  significantFrom_respelled hl 0 (fun _ hc => absurd hc List.not_mem_nil) h

end Tokens

end Idl
