/-
Idl/Proofs/Placement/Scan.lean

Reading the tokens of a placed file.

A token depends on the text from its start on and on nothing else, so a text that is read from a
higher position gives the same tokens, moved up (`tokensFrom_placed`).  Which tokens a comment
belongs to depends on lines only, and a placed file has the same lines, so the significant tokens
of a placed file are those of the file, placed (`significant_placed`).
-/
import Idl.Proofs.Placement

namespace Idl

variable (ρ : Placement)

/-! ### Tokens and faults -/

/-- A fault in the placed file. -/
def LexError.placed (e : LexError) : LexError := { e with span := e.span.placed ρ }

/-- A token of the placed file, with its faults. -/
def ScannedToken.placed (t : ScannedToken) : ScannedToken :=
  ⟨t.token.placed ρ, t.faults.map (LexError.placed ρ)⟩

theorem LexError.shift_placed {pos : Pos} (h : pos ≠ 0) (e : LexError) :
    (e.shift pos).placed ρ = e.shift (pos + ρ.shift) := by
  unfold LexError.placed LexError.shift Span.placed
  have hs : ¬ pos + e.span.start = 0 := fun h0 => h (Nat.eq_zero_of_add_eq_zero_right h0)
  rw [if_neg hs]
  simp only [Nat.add_right_comm]

/-- A text that is read from a higher position gives the same tokens, moved up. -/
theorem tokensFrom_placed {pos : Pos} (h : pos ≠ 0) (cs : List Char) :
    tokensFrom (pos + ρ.shift) cs = (tokensFrom pos cs).map (ScannedToken.placed ρ) := by
  fun_induction tokensFrom pos cs with
  | case1 pos => simp [tokensFrom]
  | case2 pos c cs hs ih =>
    rw [tokensFrom, if_pos hs, Nat.add_right_comm]
    exact ih fun h0 => h (Nat.eq_zero_of_add_eq_zero_right h0)
  | case3 pos c cs hs s spelling stop ih =>
    have hstop : stop ≠ 0 := fun h0 => h (Nat.eq_zero_of_add_eq_zero_right h0)
    rw [tokensFrom, if_neg hs, List.map_cons, ← ih hstop]
    have htoken : Token.placed ρ ⟨s.kind, String.ofList (tokenText s.kind spelling), ⟨pos, stop⟩⟩ =
        ⟨s.kind, String.ofList (tokenText s.kind spelling), ⟨pos + ρ.shift, stop + ρ.shift⟩⟩ := by
      unfold Token.placed Span.placed
      rw [if_neg h]
    have hfaults : (s.faults.map (·.shift pos)).map (LexError.placed ρ) =
        s.faults.map (·.shift (pos + ρ.shift)) := by
      rw [List.map_map]
      exact List.map_congr_left fun e _ => e.shift_placed ρ h
    have hmove : pos + ρ.shift + byteWidth spelling = stop + ρ.shift := Nat.add_right_comm ..
    simp only [ScannedToken.placed, htoken, hfaults]
    rw [← hmove]

/-! ### Comments -/

section Comments

variable {lineOf lineOf' : Pos → Nat} (hl : ∀ p, lineOf' (ρ.pos p) = lineOf p)
include hl

theorem Comment.endLine_placed (c : Comment) : (c.placed ρ).endLine lineOf' = c.endLine lineOf := by
  unfold Comment.endLine Comment.placed
  rw [hl]

theorem CommentGroup.endLine_placed (g : CommentGroup) :
    (g.placed ρ).endLine lineOf' = g.endLine lineOf := by
  unfold CommentGroup.endLine CommentGroup.placed
  rw [List.getLast?_map, Option.map_map]
  exact congrArg (Option.getD · 0)
    (congrArg (Option.map · _) (funext fun c => c.endLine_placed ρ hl))

theorem groupLength_placed (gap endLine : Nat) (cs : List Comment) :
    groupLength lineOf' gap endLine (cs.map (Comment.placed ρ)) =
      groupLength lineOf gap endLine cs := by
  induction cs generalizing endLine with
  | nil => rfl
  | cons c cs ih =>
    rw [List.map_cons, groupLength, groupLength, c.endLine_placed ρ hl, ih]
    simp only [Comment.placed, hl]

theorem commentGroups_placed (cs : List Comment) :
    commentGroups lineOf' (cs.map (Comment.placed ρ)) =
      (commentGroups lineOf cs).map (CommentGroup.placed ρ) := by
  fun_induction commentGroups lineOf cs with
  | case1 => simp [commentGroups]
  | case2 c cs n ih =>
    rw [List.map_cons, commentGroups, c.endLine_placed ρ hl, groupLength_placed ρ hl,
      ← List.map_drop, ← List.map_take, ih]
    rfl

theorem sameLineComments_placed (prevLine : Nat) (cs : List Comment) :
    sameLineComments lineOf' prevLine (cs.map (Comment.placed ρ)) =
      (sameLineComments lineOf prevLine cs).map (Comment.placed ρ) := by
  cases cs with
  | nil => rfl
  | cons c cs =>
    rw [List.map_cons, sameLineComments, sameLineComments, c.endLine_placed ρ hl,
      groupLength_placed ρ hl, ← List.map_take]
    simp only [Comment.placed, hl]
    split <;> rfl

theorem attachComments_placed (prevLine : Nat) (cs : List Comment) (next : Token) :
    attachComments lineOf' prevLine (cs.map (Comment.placed ρ)) (next.placed ρ) =
      (attachComments lineOf prevLine cs next).placed ρ := by
  unfold attachComments
  simp only [sameLineComments_placed ρ hl, List.length_map, ← List.map_drop,
    commentGroups_placed ρ hl, Token.placed_pos, hl, Token.placed_kind]
  generalize sameLineComments lineOf prevLine cs = same
  generalize cs.drop same.length = rest
  have hend : CommentGroup.endLine lineOf' ⟨same.map (Comment.placed ρ)⟩ =
      CommentGroup.endLine lineOf ⟨same⟩ := CommentGroup.endLine_placed ρ hl ⟨same⟩
  have hlast : ((commentGroups lineOf rest).map (CommentGroup.placed ρ)).getLast?.filter
        (fun g => g.endLine lineOf' + 1 == lineOf next.pos) =
      ((commentGroups lineOf rest).getLast?.filter
        fun g => g.endLine lineOf + 1 == lineOf next.pos).map (CommentGroup.placed ρ) := by
    rw [List.getLast?_map]
    cases (commentGroups lineOf rest).getLast? with
    | none => rfl
    | some g =>
      simp only [Option.map_some, Option.filter_some, CommentGroup.endLine_placed ρ hl]
      split <;> rfl
  rw [hend, hlast]
  cases rest <;> cases same <;>
    simp [SignificantToken.placed, CommentGroup.placed, Comment.placed, hl, apply_ite]

theorem significantFrom_placed (prevLine : Nat) (held : List Comment) (ts : List Token) :
    significantFrom lineOf' prevLine (held.map (Comment.placed ρ)) (ts.map (Token.placed ρ)) =
      (significantFrom lineOf prevLine held ts).map (SignificantToken.placed ρ) := by
  induction ts generalizing prevLine held with
  | nil => rfl
  | cons t ts ih =>
    have hheld : (⟨ρ.pos t.pos, t.text⟩ : Comment) :: held.map (Comment.placed ρ) =
        ((⟨t.pos, t.text⟩ : Comment) :: held).map (Comment.placed ρ) := rfl
    simp only [List.map_cons, significantFrom, Token.placed_kind, Token.placed_pos,
      Token.placed_text, hl]
    split
    · exact ih ..
    · rw [hheld]
      exact ih ..
    · rw [List.map_cons, ← List.map_reverse, attachComments_placed ρ hl, ← ih]
      rfl

/-- The significant tokens of a placed file are those of the file, placed. -/
theorem significant_placed (ts : List Token) :
    significant lineOf' (ts.map (Token.placed ρ)) =
      (significant lineOf ts).map (SignificantToken.placed ρ) :=
  significantFrom_placed ρ hl 0 [] ts

end Comments

end Idl
