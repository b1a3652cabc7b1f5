/-
Idl/Proofs/Token/Faults.lean

The tokens that reports are about.

Every fault lies in the token that it is found in and covers something of it, and tokens do not
overlap, so the span of a report tells the token (`filter_tokens`).  Illegal text is reported once
and as a whole: it is a character that starts no token, or a block comment that nothing closes
(`illegal_faults`).  So nothing is lost when illegal text is passed over later.
-/
import Idl.Proofs.Token.Literals

namespace Idl

/-! ### Parts of a source -/

/-- The span covers `slice` in a source at `base`, which has `before` in front of it and `after`
behind it. -/
structure Covers (base : Pos) (source : List Char) (span : Span)
    (before slice after : List Char) : Prop where
  source_eq : source = before ++ slice ++ after
  span_eq : span = ⟨base + byteWidth before, base + byteWidth (before ++ slice)⟩

/-- Parts of the same width in front of a text are the same. -/
theorem append_inj_of_byteWidth {xs xs' ys ys' : List Char} (h : xs ++ ys = xs' ++ ys')
    (hwidth : byteWidth xs = byteWidth xs') : xs = xs' ∧ ys = ys' := by
  have hnone {xs zs : List Char} (hwidth : byteWidth (xs ++ zs) = byteWidth xs) : zs = [] := by
    rw [byteWidth_append] at hwidth
    have hlength := length_le_byteWidth zs
    exact List.eq_nil_of_length_eq_zero (by omega)
  rcases List.append_eq_append_iff.1 h with ⟨zs, rfl, rfl⟩ | ⟨zs, rfl, rfl⟩
  · obtain rfl := hnone hwidth.symm
    exact ⟨(List.append_nil xs).symm, rfl⟩
  · obtain rfl := hnone hwidth
    exact ⟨List.append_nil xs', rfl⟩

/-- A span covers one part of a source. -/
theorem Covers.unique {base : Pos} {source : List Char} {span : Span}
    {before before' slice slice' after after' : List Char}
    (h : Covers base source span before slice after)
    (h' : Covers base source span before' slice' after') :
    before = before' ∧ slice = slice' ∧ after = after' := by
  have htext := h.source_eq.symm.trans h'.source_eq
  have hspan := h.span_eq.symm.trans h'.span_eq
  have hwidth := Nat.add_left_cancel (Span.mk.inj hspan).2
  obtain ⟨hfront, hafter⟩ := append_inj_of_byteWidth htext hwidth
  obtain ⟨hbefore, hslice⟩ := append_inj_of_byteWidth hfront
    (Nat.add_left_cancel (Span.mk.inj hspan).1)
  exact ⟨hbefore, hslice, hafter⟩

/-- Every token is read off the part of the source that it covers. -/
theorem exists_covers {base : Pos} {cs : List Char} {t : ScannedToken}
    (h : t ∈ tokensFrom base cs) :
    ∃ before c ds, ¬ isSeparator c = true ∧ t = .read (base + byteWidth before) c ds ∧
      Covers base cs t.token.span before (c :: ds.take (scan c ds).more)
        (ds.drop (scan c ds).more) := by
  obtain ⟨before, c, ds, hc, rfl, rfl⟩ := exists_read_at h
  refine ⟨before, c, ds, hc, rfl, ?_, ?_⟩
  · rw [List.append_assoc, List.cons_append, List.take_append_drop]
  · rw [byteWidth_append, ← Nat.add_assoc]
    rfl

/-! ### Illegal text -/

/-- What is wrong with the part of a source that the span covers: a character that starts no token,
or a block comment that is still open at the end of the source. -/
inductive IllegalText (base : Pos) (source : List Char) (span : Span) : LexErrorKind → Prop
  | character {before after : List Char} {c : Char} (h : Covers base source span before [c] after)
      (hnone : ¬ StartsToken c after) : IllegalText base source span (.unexpectedCharacter c)
  | comment {before body : List Char}
      (h : Covers base source span before ('/' :: '*' :: body) [])
      (hopen : blockCommentLength? 0 body = none) :
      IllegalText base source span .unterminatedComment

/-- Only one thing is wrong with it. -/
theorem IllegalText.unique {base : Pos} {source : List Char} {span : Span} {k k' : LexErrorKind}
    (h : IllegalText base source span k) (h' : IllegalText base source span k') : k = k' := by
  cases h with
  | character hcovers =>
    cases h' with
    | character hcovers' =>
      obtain ⟨-, hslice, -⟩ := hcovers.unique hcovers'
      rw [(List.cons.inj hslice).1]
    | comment hcovers' =>
      obtain ⟨-, hslice, -⟩ := hcovers.unique hcovers'
      cases hslice
  | comment hcovers =>
    cases h' with
    | character hcovers' =>
      obtain ⟨-, hslice, -⟩ := hcovers.unique hcovers'
      cases hslice
    | comment => rfl

/-- Illegal text has one fault, which covers all of it. -/
theorem illegal_faults {base : Pos} {cs : List Char} {t : ScannedToken}
    (h : t ∈ tokensFrom base cs) (hkind : t.token.kind = .illegal) :
    ∃ k, t.faults = [⟨k, t.token.span⟩] ∧ IllegalText base cs t.token.span k := by
  obtain ⟨before, c, ds, -, rfl, hcovers⟩ := exists_covers h
  have hkind : (scan c ds).kind = .illegal := hkind
  cases kindForm hkind with
  | openComment hc hnext hopen hscan =>
    obtain ⟨body, rfl⟩ := List.head?_eq_some_iff.1 hnext
    subst hc
    rw [hscan, List.take_length, List.drop_length] at hcovers
    refine ⟨.unterminatedComment, ?_, .comment hcovers hopen⟩
    simp only [ScannedToken.read, hscan, List.take_length]
    rfl
  | other hscan hnone =>
    rw [hscan] at hcovers
    refine ⟨.unexpectedCharacter c, ?_, .character hcovers hnone⟩
    simp only [ScannedToken.read, hscan]
    rfl

/-! ### Reports of sources -/

namespace Scanned

/-- The reports of a source that lie in a token. -/
def errorsIn (s : Scanned) (t : Token) : List LexError :=
  s.errors.filter fun e => t.span.contains e.span

end Scanned

/-- What covers something lies in no empty span. -/
theorem not_contains_ofPos {s : Span} (hlt : s.start < s.stop) (p : Pos) :
    ¬ (Span.ofPos p).contains s = true := by
  have hspan : Span.ofPos p = ⟨p, p⟩ := rfl
  intro hin
  rw [hspan] at hin
  simp only [Span.contains, Bool.and_eq_true, decide_eq_true_eq] at hin
  unfold Pos at *
  omega

/-- What covers something of a token lies in no other token. -/
theorem filter_tokens {base : Pos} {source : String} {t : ScannedToken}
    (h : t ∈ tokensFrom base source.toList) {s : Span} (hlt : s.start < s.stop)
    (hinside : t.token.span.contains s = true) :
    (scanSource base source).allTokens.filter (fun t => t.span.contains s) = [t.token] := by
  have hdisjoint := tokensFrom_disjoint base source.toList
  obtain ⟨xs, ys, hsplit⟩ := List.append_of_mem h
  have htokens : (scanSource base source).allTokens =
      xs.map (·.token) ++ (t.token :: ys.map (·.token)) ++ [(scanSource base source).eof] := by
    show (tokensFrom base source.toList).map (·.token) ++ _ = _
    rw [hsplit, List.map_append, List.map_cons]
  rw [hsplit] at hdisjoint
  obtain ⟨-, hys, hxs⟩ := List.pairwise_append.1 hdisjoint
  have hbefore : (xs.map (·.token)).filter (fun t => t.span.contains s) = [] := by
    refine List.filter_eq_nil_iff.2 (List.forall_mem_map.2 fun u hu => ?_)
    exact not_contains_of_apart hlt hinside (.inr (hxs u hu t List.mem_cons_self))
  have hbehind : (ys.map (·.token)).filter (fun t => t.span.contains s) = [] := by
    refine List.filter_eq_nil_iff.2 (List.forall_mem_map.2 fun u hu => ?_)
    exact not_contains_of_apart hlt hinside (.inl ((List.pairwise_cons.1 hys).1 u hu))
  have heof : [(scanSource base source).eof].filter (fun t => t.span.contains s) = [] :=
    List.filter_eq_nil_iff.2 (List.forall_mem_singleton.2 (not_contains_ofPos hlt _))
  have hcons : (t.token :: ys.map (·.token)).filter (fun t => t.span.contains s) = [t.token] := by
    rw [List.filter_cons, hbehind, if_pos hinside]
  rw [htokens, List.filter_append, List.filter_append, hbefore, hcons, heof]
  rfl

/-- The reports that lie in a token are what is wrong with it. -/
theorem errorsIn_eq {base : Pos} {source : String} {t : ScannedToken}
    (h : t ∈ tokensFrom base source.toList) :
    (scanSource base source).errorsIn t.token = t.faults := filter_faults h

/-- No report lies in the end of the file. -/
theorem errorsIn_eof (base : Pos) (source : String) :
    (scanSource base source).errorsIn (scanSource base source).eof = [] := by
  refine List.filter_eq_nil_iff.2 fun e he hin => ?_
  obtain ⟨t, ht, he⟩ := List.mem_flatMap.1 he
  obtain ⟨p, c, ds, rfl⟩ := exists_read ht
  exact not_contains_ofPos (ScannedToken.read_faults e he).1 _ hin

/-- Reports and tokens correspond: every report of a source covers something and lies in one token,
the reports stand in the order of their tokens, and illegal text has one report, which covers
all of it and says what is wrong with it. -/
theorem errors_of_tokens (base : Pos) (source : String) :
    let s := scanSource base source
    (∀ e ∈ s.errors, e.span.start < e.span.stop ∧
      ∃ t, s.allTokens.filter (fun t => t.span.contains e.span) = [t]) ∧
    s.errors = s.allTokens.flatMap s.errorsIn ∧
    ∀ t ∈ s.allTokens, t.kind = .illegal → ∃ k, s.errorsIn t = [⟨k, t.span⟩] ∧
      ∀ k', IllegalText base source.toList t.span k' ↔ k' = k := by
  intro s
  refine ⟨fun e he => ?_, ?_, fun t ht hkind => ?_⟩
  · obtain ⟨t, ht, he⟩ := List.mem_flatMap.1 he
    have hread := exists_read ht
    obtain ⟨p, c, ds, rfl⟩ := hread
    obtain ⟨hlt, hinside⟩ := ScannedToken.read_faults e he
    exact ⟨hlt, _, filter_tokens ht hlt hinside⟩
  · have htokens : s.allTokens.flatMap s.errorsIn =
        s.tokens.flatMap fun t => s.errorsIn t.token := by
      unfold Scanned.allTokens
      rw [List.flatMap_append, List.flatMap_singleton, errorsIn_eof, List.append_nil,
        List.flatMap_map]
    rw [htokens]
    exact List.flatMap_congr fun t ht => (errorsIn_eq ht).symm
  · obtain ⟨u, hu, rfl⟩ := exists_scanned ht (by rw [hkind]; decide)
    obtain ⟨k, hfaults, htext⟩ := illegal_faults hu hkind
    refine ⟨k, (errorsIn_eq hu).trans hfaults, fun k' => ⟨fun h => h.unique htext, ?_⟩⟩
    rintro rfl
    exact htext

end Idl
