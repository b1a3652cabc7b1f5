/-
Idl/Proofs/Token/Lossless.lean

Reading tokens loses nothing.

The tokens of a text lie in it one behind the other, with nothing but separators in front of each
(`Laid`).  A token covers at least one byte, and what it says is what stands there, save that a line
comment may have lost the carriage return that ended its line.  The end of the file comes last and
covers nothing.  So the bytes of a text can be put together again from its tokens and from what
stands between them (`scanSource_lossless`).
-/
import Idl.Proofs.Trace.Start

namespace Idl

/-! ### Pieces of a text -/

/-- The bytes that a span covers. -/
def sliceOf (bytes : List UInt8) (s : Span) : List UInt8 := (bytes.drop s.start).take s.length

/-- What stands behind `xs` and before `zs`. -/
theorem sliceOf_middle (xs ys zs : List UInt8) {s : Span}
    (hs : s = ⟨xs.length, xs.length + ys.length⟩) : sliceOf (xs ++ ys ++ zs) s = ys := by
  subst hs
  show ((xs ++ ys ++ zs).drop xs.length).take (xs.length + ys.length - xs.length) = ys
  rw [List.append_assoc, List.drop_left, Nat.add_sub_cancel_left, List.take_left]

/-- What stands in a text behind `before` and before `after`. -/
theorem sliceOf_chars (before cs after : List Char) {s : Span}
    (hs : s = ⟨byteWidth before, byteWidth (before ++ cs)⟩) :
    sliceOf (utf8 (before ++ cs ++ after)) s = utf8 cs := by
  rw [utf8_append, utf8_append]
  refine sliceOf_middle _ _ _ ?_
  rw [hs, length_utf8, length_utf8, byteWidth_append]

/-- The bytes of the characters that may stand between tokens: the space, the tab, the carriage
return and the newline. -/
def separatorBytes : List UInt8 := [32, 9, 13, 10]

theorem mem_separatorBytes {gap : List Char} (h : ∀ c ∈ gap, isSeparator c = true) :
    ∀ b ∈ utf8 gap, b ∈ separatorBytes := by
  intro b hb
  obtain ⟨c, hc, hb⟩ := List.mem_flatMap.1 hb
  have hsep := h c hc
  simp only [isSeparator, Bool.or_eq_true, beq_iff_eq] at hsep
  rcases hsep with ((rfl | rfl) | rfl) | rfl <;> · rw [List.mem_singleton.1 hb]; decide

/-! ### What a token says -/

namespace Token

/-- The spelling of a token: that of its keyword or of its character, or else its text. -/
def spelling (t : Token) : String :=
  match t.kind with
  | .eof => ""
  | .keyword k => k.spelling
  | .punct p => String.ofList [p.char]
  | _ => t.text

/-- A comment that goes on to the end of its line. -/
def IsLineComment (t : Token) : Prop := t.kind = .comment ∧ t.text.toList.take 2 = ['/', '/']

/-- The token shows what stands in its span; a line comment may leave the carriage return out that
stands at its end. -/
def Shows (bytes : List UInt8) (t : Token) : Prop :=
  sliceOf bytes t.span = bytesOf t.spelling ∨
    t.IsLineComment ∧ sliceOf bytes t.span = bytesOf t.spelling ++ [13]

/-- The bytes of a token: its spelling, and carriage returns for what its span is longer. -/
def bytes (t : Token) : List UInt8 :=
  bytesOf t.spelling ++ List.replicate (t.span.length - (bytesOf t.spelling).length) 13

/-- The bytes of a token are those that it was read from. -/
theorem Shows.bytes_eq {bytes : List UInt8} {t : Token} (h : t.Shows bytes)
    (hlength : (sliceOf bytes t.span).length = t.span.length) : t.bytes = sliceOf bytes t.span := by
  unfold Token.bytes
  rcases h with h | ⟨-, h⟩
  · rw [← hlength, h, Nat.sub_self, List.replicate_zero, List.append_nil]
  · rw [← hlength, h, List.length_append, Nat.add_sub_cancel_left]
    rfl

/-- The end of the file aside, a token that is spelled right is spelled as its text. -/
theorem Spelled.spelling_eq {t : Token} (h : t.Spelled) (hk : t.kind ≠ .eof) :
    t.spelling = t.text := by
  obtain ⟨kind, text, span⟩ := t
  cases kind with
  | eof => exact absurd rfl hk
  | keyword k => exact h.symm
  | punct p => exact h.symm
  | _ => rfl

/-- A token shows what it was read from. -/
theorem shows_of_text {bytes : List UInt8} {t : Token} {cs : List Char} (hk : t.kind ≠ .eof)
    (hspelled : t.Spelled) (htext : t.text = String.ofList (tokenText t.kind cs))
    (hslice : sliceOf bytes t.span = utf8 cs) : t.Shows bytes := by
  have hbytes : bytesOf t.spelling = utf8 (tokenText t.kind cs) := by
    rw [hspelled.spelling_eq hk, htext, bytesOf_eq, String.toList_ofList]
  unfold Shows
  rw [hslice, hbytes]
  unfold tokenText at htext ⊢
  split
  · next hline =>
    obtain ⟨hcomment, hslashes, hreturn⟩ := hline
    obtain ⟨ds, rfl⟩ := List.getLast?_eq_some_iff.1 hreturn
    rw [if_pos ⟨hcomment, hslashes, hreturn⟩] at htext
    rw [List.dropLast_concat] at htext ⊢
    refine .inr ⟨⟨hcomment, ?_⟩, by rw [utf8_append]; rfl⟩
    rw [htext, String.toList_ofList]
    -- the carriage return is none of the two slashes
    cases ds with
    | nil => cases hslashes
    | cons c ds =>
      cases ds with
      | nil => cases hslashes
      | cons d ds => exact hslashes
  · exact .inl rfl

end Token

/-! ### Tokens one behind the other -/

/-- The spans between tokens, the first of which is looked for from `pos` on. -/
def gapsFrom (pos : Pos) : List Token → List Span
  | [] => []
  | t :: ts => ⟨pos, t.span.start⟩ :: gapsFrom t.span.stop ts

/-- The bytes of a text, put together from the bytes between its tokens and the tokens. -/
def rebuild : List (List UInt8) → List Token → List UInt8
  | gap :: gaps, t :: ts => gap ++ t.bytes ++ rebuild gaps ts
  | _, _ => []

/-- The tokens lie in the text `cs`, one behind the other, where `before` stands in front of it:
between them there are separators only, and after the last one there is nothing. -/
inductive Laid : List Char → List Char → List Token → Prop
  | eof {before gap : List Char} (hgap : ∀ c ∈ gap, isSeparator c = true) :
      Laid before gap [⟨.eof, "", Span.ofPos (byteWidth (before ++ gap))⟩]
  | token {before gap spelling cs : List Char} {t : Token} {ts : List Token}
      (hgap : ∀ c ∈ gap, isSeparator c = true)
      (hspan : t.span = ⟨byteWidth (before ++ gap), byteWidth (before ++ gap ++ spelling)⟩)
      (hne : spelling ≠ []) (hkind : t.kind ≠ .eof) (hspelled : t.Spelled)
      (htext : t.text = String.ofList (tokenText t.kind spelling))
      (hrest : Laid (before ++ gap ++ spelling) cs ts) :
      Laid before (gap ++ spelling ++ cs) (t :: ts)

/-- A separator in front of a text is in front of its first token. -/
theorem Laid.behind {before : List Char} {c : Char} {cs : List Char} {ts : List Token}
    (hc : isSeparator c = true) (h : Laid (before ++ [c]) cs ts) : Laid before (c :: cs) ts := by
  have hgap {gap : List Char} (h : ∀ d ∈ gap, isSeparator d = true) :
      ∀ d ∈ c :: gap, isSeparator d = true := List.forall_mem_cons.2 ⟨hc, h⟩
  have hbefore (gap : List Char) : before ++ [c] ++ gap = before ++ c :: gap :=
    List.append_assoc ..
  cases h with
  | eof h =>
    rw [hbefore]
    exact .eof (hgap h)
  | token h hspan hne hkind hspelled htext hrest =>
    rw [hbefore] at hspan hrest
    exact .token (hgap h) hspan hne hkind hspelled htext hrest

theorem tokensFrom_laid (pos : Pos) (cs before : List Char) (hpos : pos = byteWidth before) :
    Laid before cs ((tokensFrom pos cs).map (·.token) ++
      [⟨.eof, "", Span.ofPos (byteWidth (before ++ cs))⟩]) := by
  fun_induction tokensFrom pos cs generalizing before with
  | case1 pos =>
    have hnil : ∀ c ∈ ([] : List Char), isSeparator c = true := by simp
    exact .eof hnil
  | case2 pos c cs hs ih =>
    have hlaid := ih (before ++ [c]) (by rw [hpos, byteWidth_append]; rfl)
    rw [List.append_assoc] at hlaid
    exact hlaid.behind hs
  | case3 pos c cs hs s spelling stop ih =>
    have hsound := scan_sound c cs
    have hcs : spelling ++ cs.drop s.more = c :: cs := by
      rw [List.cons_append, List.take_append_drop]
    have hstop : stop = byteWidth (before ++ spelling) := by rw [byteWidth_append, ← hpos]
    have hrest := ih (before ++ spelling) hstop
    rw [List.append_assoc, hcs] at hrest
    have htoken : Laid before ([] ++ spelling ++ cs.drop s.more) (_ :: _) :=
      .token (t := ⟨s.kind, _, ⟨pos, stop⟩⟩) (by simp) (by rw [List.append_nil, hpos, hstop])
        (by simp [spelling]) hsound.kind (hsound.spelled _) rfl
        (by rw [List.append_nil]; exact hrest)
    rw [List.nil_append, hcs] at htoken
    exact htoken

namespace Laid

variable {before cs : List Char} {ts : List Token}

/-- The tokens come in order. -/
theorem ordered (h : Laid before cs ts) : (∀ t ∈ ts, byteWidth before ≤ t.span.start) ∧
    ts.Pairwise fun t u => t.span.stop ≤ u.span.start := by
  have hle (xs ys : List Char) : byteWidth xs ≤ byteWidth (xs ++ ys) := by
    rw [byteWidth_append]
    exact Nat.le_add_right ..
  induction h with
  | eof =>
    refine ⟨fun t ht => ?_, List.pairwise_singleton ..⟩
    rw [List.mem_singleton.1 ht]
    exact hle _ _
  | token _ hspan _ _ _ _ _ ih =>
    refine ⟨fun u hu => ?_, List.pairwise_cons.2 ⟨fun u hu => ?_, ih.2⟩⟩
    · rcases List.mem_cons.1 hu with rfl | hu
      · rw [hspan]
        exact hle _ _
      · rw [List.append_assoc] at ih
        exact Nat.le_trans (hle _ _) (ih.1 u hu)
    · rw [hspan]
      exact ih.1 u hu

/-- The end of the file comes last, and every other token covers something. -/
theorem last (h : Laid before cs ts) :
    ts.getLast? = some ⟨.eof, "", Span.ofPos (byteWidth (before ++ cs))⟩ ∧
      ∀ t ∈ ts.dropLast, t.kind ≠ .eof ∧ t.span.start < t.span.stop := by
  induction h with
  | eof => exact ⟨rfl, by simp⟩
  | @token before gap spelling cs t ts _ hspan hne hkind _ _ hrest ih =>
    have hts : ts ≠ [] := by
      rintro rfl
      cases hrest
    refine ⟨?_, fun u hu => ?_⟩
    · rw [List.getLast?_cons_of_ne_nil hts, ih.1, List.append_assoc before, List.append_assoc before]
    · rw [List.dropLast_cons_of_ne_nil hts] at hu
      rcases List.mem_cons.1 hu with rfl | hu
      · have hwidth := Nat.lt_of_lt_of_le (List.length_pos_iff.2 hne) (length_le_byteWidth spelling)
        refine ⟨hkind, ?_⟩
        rw [hspan]
        show byteWidth (before ++ gap) < byteWidth (before ++ gap ++ spelling)
        rw [byteWidth_append (before ++ gap)]
        exact Nat.lt_add_of_pos_right hwidth
      · exact ih.2 u hu

/-- Only separators stand between tokens. -/
theorem gaps (h : Laid before cs ts) : ∀ g ∈ gapsFrom (byteWidth before) ts,
    ∀ b ∈ sliceOf (utf8 (before ++ cs)) g, b ∈ separatorBytes := by
  induction h with
  | @eof before gap hgap =>
    intro g hg
    have hslice := sliceOf_chars before gap [] (List.mem_singleton.1 hg)
    rw [List.append_nil] at hslice
    rw [hslice]
    exact mem_separatorBytes hgap
  | @token before gap spelling cs t ts hgap hspan _ _ _ _ _ ih =>
    have hbefore : before ++ (gap ++ spelling ++ cs) = before ++ gap ++ (spelling ++ cs) := by
      simp only [List.append_assoc]
    intro g hg
    rcases List.mem_cons.1 hg with rfl | hg
    · rw [hbefore, sliceOf_chars before gap _ (by rw [hspan])]
      exact mem_separatorBytes hgap
    · rw [hbefore, ← List.append_assoc]
      rw [hspan] at hg
      exact ih g hg

/-- Every token shows what stands in its span. -/
theorem shows (h : Laid before cs ts) : ∀ t ∈ ts, t.Shows (utf8 (before ++ cs)) := by
  induction h with
  | @eof before gap hgap =>
    intro t ht
    rw [List.mem_singleton.1 ht]
    have hslice := sliceOf_chars (before ++ gap) [] []
      (s := Span.ofPos (byteWidth (before ++ gap))) (by rw [List.append_nil]; rfl)
    rw [List.append_nil, List.append_nil] at hslice
    exact .inl hslice
  | @token before gap spelling cs t ts _ hspan _ hkind hspelled htext _ ih =>
    have hbefore : before ++ (gap ++ spelling ++ cs) = before ++ gap ++ spelling ++ cs := by
      simp only [List.append_assoc]
    rw [hbefore]
    intro u hu
    rcases List.mem_cons.1 hu with rfl | hu
    · exact Token.shows_of_text hkind hspelled htext (sliceOf_chars (before ++ gap) spelling cs hspan)
    · exact ih u hu

/-- The text is put together again from its tokens and from what stands between them. -/
theorem rebuild_eq (h : Laid before cs ts) :
    rebuild ((gapsFrom (byteWidth before) ts).map (sliceOf (utf8 (before ++ cs)))) ts = utf8 cs := by
  have hshows := h.shows
  -- by induction on the tokens, of which the first leaves the rest laid behind it in the same text
  induction h with
  | @eof before gap hgap =>
    have hslice := sliceOf_chars before gap [] rfl
    rw [List.append_nil] at hslice
    have hbytes : Token.bytes ⟨.eof, "", Span.ofPos (byteWidth (before ++ gap))⟩ = [] := by
      simp [Token.bytes, Token.spelling, bytesOf_eq, Span.ofPos, Span.length]
    show sliceOf _ ⟨byteWidth before, byteWidth (before ++ gap)⟩ ++ Token.bytes _ ++ [] = _
    rw [hslice, hbytes, List.append_nil, List.append_nil]
  | @token before gap spelling cs t ts _ hspan _ _ _ _ _ ih =>
    have hbefore : before ++ (gap ++ spelling ++ cs) = before ++ gap ++ spelling ++ cs := by
      simp only [List.append_assoc]
    have hgap := sliceOf_chars before gap (spelling ++ cs) rfl
    have hspelling := sliceOf_chars (before ++ gap) spelling cs hspan
    rw [← List.append_assoc] at hgap
    rw [hbefore] at hshows ⊢
    obtain ⟨ht, hts⟩ := List.forall_mem_cons.1 hshows
    -- the span tells how many carriage returns the token has lost
    have hlength : (sliceOf (utf8 (before ++ gap ++ spelling ++ cs)) t.span).length =
        t.span.length := by
      rw [hspelling, length_utf8, hspan, byteWidth_append (before ++ gap)]
      exact (Nat.add_sub_cancel_left ..).symm
    have hbytes := ht.bytes_eq hlength
    have hrest := ih hts
    show sliceOf _ ⟨byteWidth before, t.span.start⟩ ++ t.bytes ++
      rebuild ((gapsFrom t.span.stop ts).map _) ts = _
    rw [hbytes, hspelling, hspan, hgap, hrest, utf8_append (gap ++ spelling), utf8_append gap]

end Laid

/-! ### Whole sources -/

/-- The tokens of a text with certain bytes give it back: they come in order and do not overlap,
all but the last cover something, and the last is the end of the file, behind the last byte;
between them stand separators only, and each shows what stands in its span.  So the text is put
together again from its tokens and from what stands between them. -/
structure Lossless (bytes : List UInt8) (ts : List Token) : Prop where
  ordered : ts.Pairwise fun t u => t.span.stop ≤ u.span.start
  covering : ∀ t ∈ ts.dropLast, t.kind ≠ .eof ∧ t.span.start < t.span.stop
  last : ts.getLast? = some ⟨.eof, "", ⟨bytes.length, bytes.length⟩⟩
  separated : ∀ g ∈ gapsFrom 0 ts, ∀ b ∈ sliceOf bytes g, b ∈ separatorBytes
  shown : ∀ t ∈ ts, t.Shows bytes
  rebuilt : rebuild ((gapsFrom 0 ts).map (sliceOf bytes)) ts = bytes

/-- The tokens of every source give its bytes back, as long as positions have no end. -/
theorem scanSource_lossless (source : String) :
    Lossless (bytesOf source) (scanSource 0 source).allTokens := by
  have hlaid := tokensFrom_laid 0 source.toList [] rfl
  have htokens : (scanSource 0 source).allTokens = (tokensFrom 0 source.toList).map (·.token) ++
      [⟨.eof, "", Span.ofPos (byteWidth ([] ++ source.toList))⟩] := by
    show _ ++ [(⟨.eof, "", Span.ofPos (0 + byteWidth source.toList)⟩ : Token)] = _
    rw [Nat.zero_add]
    rfl
  have hlength : byteWidth source.toList = (bytesOf source).length := by
    rw [bytesOf_eq, length_utf8]
  have hbytes : utf8 ([] ++ source.toList) = bytesOf source := (bytesOf_eq source).symm
  rw [← htokens] at hlaid
  exact {
    ordered := hlaid.ordered.2
    covering := hlaid.last.2
    last := by rw [hlaid.last.1, List.nil_append, hlength]; rfl
    separated := by rw [← hbytes]; exact hlaid.gaps
    shown := by rw [← hbytes]; exact hlaid.shows
    rebuilt := by rw [← hbytes]; exact hlaid.rebuild_eq }

end Idl
