/-
Idl/Proofs/Comments/Lines.lean

The lines on which comments end.

Comments are grouped by the lines on which they stand.  Where a comment ends is worked out from its
text: a block comment ends as many lines below its start as there are newlines in it, and any other
comment on the line on which it starts.  Tokens are cut from the source, so this is the line of the
place right behind the comment (`Source.endLine_comment`), and from token to token lines never go back
(`Source.lines_ordered`).
-/
import Idl.Proofs.Placement.Lines
import Idl.Proofs.Token.Blanking
import Idl.Proofs.Token.OneLine

namespace Idl

/-! ### Comments as they are spelled -/

/-- The text of a comment begins as the comment does. -/
theorem tokenText_begins (kind : TokenKind) (cs : List Char) : tokenText kind cs <+: cs := by
  unfold tokenText
  split
  · exact List.dropLast_prefix cs
  · exact List.prefix_refl cs

/-- No newline stands in a line comment, and the text of a block comment has all of those that stand
in it. -/
theorem comment_newlines {c : Char} {cs : List Char} (h : (scan c cs).kind = .comment) :
    let spelling := c :: cs.take (scan c cs).more
    let text := tokenText (scan c cs).kind spelling
    (text.take 2 ≠ ['/', '*'] ∧ spelling.count '\n' = 0) ∨
      text.take 2 = ['/', '*'] ∧ spelling.count '\n' = text.count '\n' := by
  intro spelling text
  cases kindForm h with
  | lineComment hc hnext hscan =>
    subst hc
    obtain ⟨ds, rfl⟩ := List.head?_eq_some_iff.1 hnext
    have hmore : (scan '/' ('/' :: ds)).more = runLength (· != '\n') ds + 1 := by
      rw [hscan]
      exact congrArg List.length (List.takeWhile_cons_of_pos rfl)
    have hspelling : spelling = '/' :: '/' :: ds.take (runLength (· != '\n') ds) := by
      show '/' :: ('/' :: ds).take (scan '/' ('/' :: ds)).more = _
      rw [hmore, List.take_succ_cons]
    refine .inl ⟨fun htext => ?_, List.count_eq_zero.2 ?_⟩
    · have hopening : text.take 2 <+: spelling :=
        (List.take_prefix 2 text).trans (tokenText_begins _ spelling)
      rw [htext, hspelling] at hopening
      simp at hopening
    · rw [hspelling]
      have hrun : '\n' ∉ ds.take (runLength (· != '\n') ds) := runLength_oneLine (by decide) ds
      simpa using hrun
  | @blockComment n hc hnext hclosed hscan =>
    subst hc
    obtain ⟨ds, rfl⟩ := List.head?_eq_some_iff.1 hnext
    have hmore : (scan '/' ('*' :: ds)).more = 1 + n := congrArg Scan.more hscan
    have hspelling : spelling = '/' :: '*' :: ds.take n := by
      show '/' :: ('*' :: ds).take (scan '/' ('*' :: ds)).more = _
      rw [hmore, Nat.add_comm, List.take_succ_cons]
    have htext : text = spelling := if_neg fun hline => by
      rw [hspelling] at hline
      exact absurd hline.2.1 (by simp)
    refine .inr ⟨?_, by rw [htext]⟩
    rw [htext, hspelling]
    rfl

namespace Source

variable (s : Source) {base : Pos}

/-- The tokens of a source that starts at `base`, the end of the file last. -/
def tokensAt (base : Pos) : List Token := (scanSource base s.text).allTokens

/-- A token is cut from its source, and goes over as many lines as there are newlines in what is cut. -/
theorem lineOf_stop (hbase : base ≠ 0) {t : Token} (ht : t ∈ s.tokensAt base) (hkind : t.kind ≠ .eof) :
    ∃ c cs, let spelling := c :: cs.take (scan c cs).more
      t.kind = (scan c cs).kind ∧ t.text.toList = tokenText (scan c cs).kind spelling ∧
      (s.fileAt base).lineOf t.span.stop = (s.fileAt base).lineOf t.pos + spelling.count '\n' := by
  rcases List.mem_append.1 ht with ht | ht
  · obtain ⟨u, hu, rfl⟩ := List.mem_map.1 ht
    obtain ⟨before, c, cs, -, hcs, rfl⟩ := exists_read_at hu
    let spelling := c :: cs.take (scan c cs).more
    have hrest : s.text.toList = before ++ spelling ++ cs.drop (scan c cs).more := by
      rw [hcs, List.append_assoc]
      exact congrArg (before ++ c :: ·) (List.take_append_drop (scan c cs).more cs).symm
    have hstart := s.lineOf_behind hbase hcs
    have hstop := s.lineOf_behind hbase hrest
    rw [byteWidth_append, ← Nat.add_assoc, List.count_append, ← Nat.add_assoc, ← hstart] at hstop
    refine ⟨c, cs, rfl, ?_, hstop⟩
    rw [ScannedToken.read, String.toList_ofList]
  · rw [List.mem_singleton.1 ht] at hkind
    exact absurd rfl hkind

/-- Where the text of a comment says that it ends, there it ends. -/
theorem endLine_comment (hbase : base ≠ 0) {t : Token} (ht : t ∈ s.tokensAt base)
    (hcomment : t.kind = .comment) :
    Comment.endLine (s.fileAt base).lineOf ⟨t.pos, t.text⟩ = (s.fileAt base).lineOf t.span.stop := by
  obtain ⟨c, cs, hkind, htext, hstop⟩ := s.lineOf_stop hbase ht (by rw [hcomment]; decide)
  unfold Comment.endLine
  rw [hstop]
  simp only [htext]
  congr 1
  rcases comment_newlines (hkind.symm.trans hcomment) with ⟨hline, hnone⟩ | ⟨hblock, hcount⟩
  · rw [if_neg hline]
    exact hnone.symm
  · rw [if_pos hblock]
    exact hcount.symm

/-- Tokens stay on their line, save for comments, illegal text and strings. -/
theorem lineOf_stop_eq (hbase : base ≠ 0) {t : Token} (ht : t ∈ s.tokensAt base)
    (hkind : t.kind ∉ [.eof, .comment, .illegal, .string]) :
    (s.fileAt base).lineOf t.span.stop = (s.fileAt base).lineOf t.pos := by
  simp only [List.mem_cons, List.not_mem_nil, or_false, not_or] at hkind
  obtain ⟨heof, hcomment, hillegal, hstring⟩ := hkind
  obtain ⟨c, cs, hscan, -, hstop⟩ := s.lineOf_stop hbase ht heof
  rw [hscan] at hcomment hillegal hstring
  have hnewline : c ≠ '\n' := by
    rintro rfl
    exact hillegal rfl
  have hraw : c ≠ backQuote := by
    rintro rfl
    exact hstring (scanRawString_kind cs)
  rw [hstop, List.count_eq_zero.2 (newline_not_mem_spelling hnewline hraw hcomment hillegal),
    Nat.add_zero]

/-- A token of a source lies in it, from its start to its end. -/
theorem within_tokensAt (base : Pos) {t : Token} (ht : t ∈ s.tokensAt base) :
    base ≤ t.pos ∧ t.pos ≤ t.span.stop ∧ t.span.stop ≤ base + s.text.utf8ByteSize := by
  rw [utf8ByteSize_eq]
  rcases List.mem_append.1 ht with ht | ht
  · obtain ⟨u, hu, rfl⟩ := List.mem_map.1 ht
    have hwithin := (tokensFrom_within base s.text.toList).1 u hu
    exact ⟨hwithin.start, hwithin.ordered, hwithin.ends⟩
  · rw [List.mem_singleton.1 ht]
    exact ⟨Nat.le_add_right .., Nat.le_refl _, Nat.le_refl _⟩

/-- Each token ends before the next one starts, and the end of the file comes last. -/
theorem tokensAt_disjoint (base : Pos) :
    (s.tokensAt base).Pairwise fun t u => t.span.stop ≤ u.pos := by
  refine List.pairwise_append.2 ⟨?_, List.pairwise_singleton .., fun t ht u hu => ?_⟩
  · exact List.pairwise_map.2 (tokensFrom_disjoint base s.text.toList)
  · obtain ⟨v, hv, rfl⟩ := List.mem_map.1 ht
    rw [List.mem_singleton.1 hu]
    exact ((tokensFrom_within base s.text.toList).1 v hv).ends

/-- Each token ends on the line on which the next one starts, or on an earlier one. -/
theorem lines_ordered (hbase : base ≠ 0) : (s.tokensAt base).Pairwise fun t u =>
    (s.fileAt base).lineOf t.span.stop ≤ (s.fileAt base).lineOf u.pos := by
  refine (s.tokensAt_disjoint base).imp_of_mem fun {t u} ht hu hle => ?_
  obtain ⟨htstart, htorder, -⟩ := s.within_tokensAt base ht
  obtain ⟨-, huorder, hustop⟩ := s.within_tokensAt base hu
  exact s.lineOf_mono hbase (Nat.le_trans htstart htorder) hle (Nat.le_trans huorder hustop)

end Source

end Idl
