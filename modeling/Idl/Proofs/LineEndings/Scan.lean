/-
Idl/Proofs/LineEndings/Scan.lean

Tokens of a text with carriage returns.

A carriage return separates tokens, so it only moves what stands behind it.  Inside of a token there is
one only where there is a newline, that is in a comment between slashes and stars and in a literal between
back quotes, and both go on over it.  A line comment takes the carriage return in front of its newline,
and loses it again.  So a text in which nothing is wrong has the same tokens with carriage returns in
front of its newlines, moved, with carriage returns in them (`tokensFrom_crlf`).
-/
import Idl.Proofs.LineEndings.Text
import Idl.Proofs.Token.Blanking
import Idl.Proofs.Token.OneLine
import Mathlib.Data.List.Forall2

namespace Idl

/-! ### Single tokens -/

/-- The token that starts with `c` is read alike if carriage returns are put in front of the newlines of
the text `cs` behind it. -/
structure ScansReturned (c : Char) (cs : List Char) : Prop where
  kind : (scan c (crlf cs)).kind = (scan c cs).kind
  faults : (scan c (crlf cs)).faults = []
  take : (crlf cs).take (scan c (crlf cs)).more = crlf (cs.take (scan c cs).more)
  drop : (crlf cs).drop (scan c (crlf cs)).more = crlf (cs.drop (scan c cs).more)

/-- It is enough that as much is taken of the text as the token is long then. -/
theorem ScansReturned.of_more {c : Char} {cs : List Char} {kind : TokenKind} {more : Nat}
    (h : scan c cs = { kind := kind, more := more })
    (hreturned : scan c (crlf cs) = { kind := kind, more := (crlf (cs.take more)).length }) :
    ScansReturned c cs := by
  have hparts : crlf cs = crlf (cs.take more) ++ crlf (cs.drop more) := by
    rw [← crlf_append, List.take_append_drop]
  refine ⟨?_, ?_, ?_, ?_⟩
  · rw [h, hreturned]
  · rw [hreturned]
  · rw [h, hreturned, hparts, List.take_left]
  · rw [h, hreturned, hparts, List.drop_left]

/-- With carriage returns a text starts as it did, or with a separator. -/
theorem startsAlike_crlf (cs : List Char) : StartsAlike cs (crlf cs) := by
  cases cs with
  | nil => exact .inl rfl
  | cons c cs =>
    by_cases hc : c = '\n'
    · subst hc
      exact .separator (List.cons_ne_nil _ _) (by decide) _
    · rw [crlf_cons hc]
      exact .inl rfl

/-- A token that stays on its line is read alike, since a carriage return ends it as well. -/
theorem scansReturned_of_line {c : Char} {cs : List Char} (hline : '\n' ∉ cs.take (scan c cs).more)
    (hcomment : (scan c cs).kind ≠ .comment) (hillegal : (scan c cs).kind ≠ .illegal)
    (hclean : (scan c cs).faults = []) : ScansReturned c cs := by
  have hcs : crlf cs = cs.take (scan c cs).more ++ crlf (cs.drop (scan c cs).more) := by
    have hparts := crlf_append (cs.take (scan c cs).more) (cs.drop (scan c cs).more)
    rwa [List.take_append_drop, crlf_eq_self hline] at hparts
  have halike := startsAlike_crlf (cs.drop (scan c cs).more)
  have hscan : scan c (crlf cs) = scan c cs := by
    rw [hcs]
    exact scan_congr hcomment hillegal halike (.inl hclean)
  refine ⟨?_, ?_, ?_, ?_⟩
  · rw [hscan]
  · rw [hscan, hclean]
  · rw [hscan, crlf_eq_self hline, hcs]
    exact halike.parts.1
  · rw [hscan, hcs]
    exact halike.parts.2

/-- A literal between back quotes ends with the first quote. -/
theorem scan_backQuote {body : List Char} (hbody : backQuote ∉ body) (rest : List Char) :
    scan backQuote (body ++ backQuote :: rest) = { kind := .string, more := body.length + 1 } := by
  have hrun : runLength (· != backQuote) (body ++ backQuote :: rest) = body.length :=
    runLength_run (fun c hc => bne_iff_ne.2 (ne_of_mem_of_not_mem hc hbody)) (by simp)
  have hlength : runLength (· != backQuote) (body ++ backQuote :: rest) <
      (body ++ backQuote :: rest).length := by
    rw [hrun, List.length_append, List.length_cons]
    omega
  show scanRawString (body ++ backQuote :: rest) = _
  unfold scanRawString
  dsimp only
  rw [if_pos hlength, hrun]

/-- A literal between back quotes that is not closed is at fault. -/
theorem exists_body_of_clean {cs : List Char} (hclean : (scan backQuote cs).faults = []) :
    ∃ body rest, cs = body ++ backQuote :: rest ∧ backQuote ∉ body := by
  have hmem : backQuote ∈ cs := by
    by_contra hnone
    have hrun : runLength (· != backQuote) cs = cs.length := by
      have hrest (c : Char) (hc : c ∈ cs) : (c != backQuote) = true :=
        bne_iff_ne.2 (ne_of_mem_of_not_mem hc hnone)
      unfold runLength
      rw [List.takeWhile_eq_self_iff.2 hrest]
    have hopen : (scan backQuote cs).faults = [⟨.unterminatedString, ⟨0, 1 + byteWidth cs⟩⟩] := by
      show (scanRawString cs).faults = _
      unfold scanRawString
      dsimp only
      rw [hrun, if_neg (Nat.lt_irrefl _)]
    rw [hopen] at hclean
    cases hclean
  exact List.eq_append_cons_of_mem hmem

/-- A literal between back quotes is read up to the same quote. -/
theorem scansReturned_raw {cs : List Char} (hclean : (scan backQuote cs).faults = []) :
    ScansReturned backQuote cs := by
  obtain ⟨body, rest, rfl, hbody⟩ := exists_body_of_clean hclean
  have hquote : backQuote ≠ '\n' ∧ backQuote ≠ '\r' := by decide
  have hreturned : backQuote ∉ crlf body := fun h => hbody ((keepsRest_crlf.mem_iff hquote.2).1 h)
  -- no quote comes or goes with the carriage returns, so the same quote ends the literal
  refine .of_more (scan_backQuote hbody rest) ?_
  have htake : (body ++ backQuote :: rest).take (body.length + 1) = body ++ [backQuote] :=
    List.take_length_add_append 1
  rw [htake, crlf_append, crlf_append, crlf_cons hquote.1, crlf_cons hquote.1,
    scan_backQuote hreturned, List.length_append]
  rfl

/-! ### Comments -/

/-- With carriage returns a text starts with the same character, unless it starts with a newline. -/
theorem head?_crlf {c : Char} (hnewline : c ≠ '\n') (hreturn : c ≠ '\r') (cs : List Char) :
    (crlf cs).head? = some c ↔ cs.head? = some c := by
  cases cs with
  | nil => exact Iff.rfl
  | cons d ds =>
    by_cases hd : d = '\n'
    · subst hd
      exact iff_of_false (fun h => hreturn (Option.some.inj h).symm)
        fun h => hnewline (Option.some.inj h).symm
    · rw [crlf_cons hd]
      exact Iff.rfl

/-- A block comment goes on over carriage returns. -/
theorem blockCommentLength?_crlf {depth n : Nat} {cs : List Char}
    (h : blockCommentLength? depth cs = some n) :
    blockCommentLength? depth (crlf cs) = some (crlf (cs.take n)).length := by
  -- by the cases of reading a comment: it ends, a level closes, a level opens, or it goes on
  fun_induction blockCommentLength? depth cs generalizing n with
  | case1 cs =>
    obtain rfl := Option.some.inj h
    rfl
  | case2 cs depth ih =>
    obtain ⟨n, hn, rfl⟩ := Option.map_eq_some_iff.1 h
    show (blockCommentLength? depth (crlf cs)).map (· + 2) = _
    rw [ih hn]
    rfl
  | case3 depth cs ih =>
    obtain ⟨n, hn, rfl⟩ := Option.map_eq_some_iff.1 h
    show (blockCommentLength? (depth + 1) (crlf cs)).map (· + 2) = _
    rw [ih hn]
    rfl
  | case4 depth c cs hclose hopen ih =>
    obtain ⟨n, hn, rfl⟩ := Option.map_eq_some_iff.1 h
    by_cases hc : c = '\n'
    · subst hc
      rw [crlf_newline, blockCommentLength?_skip (by simp) (by simp),
        blockCommentLength?_skip (by simp) (by simp), ih hn, List.take_succ_cons, crlf_newline]
      rfl
    -- what opens or closes a level does so in the text without carriage returns as well
    · have hnext {d : Char} (hd : (crlf cs).head? = some d) (hne : d ≠ '\n' ∧ d ≠ '\r') :
          ∃ ds, cs = d :: ds :=
        List.head?_eq_some_iff.1 ((head?_crlf hne.1 hne.2 cs).1 hd)
      rw [crlf_cons hc, blockCommentLength?_skip, ih hn, List.take_succ_cons, crlf_cons hc]
      · rfl
      · rintro ⟨rfl, hd⟩
        obtain ⟨ds, rfl⟩ := hnext hd (by decide)
        exact hclose ds rfl rfl
      · rintro ⟨rfl, hd⟩
        obtain ⟨ds, rfl⟩ := hnext hd (by decide)
        exact hopen ds rfl rfl
  | case5 => cases h

/-- A comment between slashes and stars is read up to the same star and slash. -/
theorem scansReturned_blockComment {cs : List Char} (hnext : cs.head? = some '*')
    (hclean : (scan '/' cs).faults = []) : ScansReturned '/' cs := by
  obtain ⟨cs, rfl⟩ := List.head?_eq_some_iff.1 hnext
  have hscan {cs : List Char} {n : Nat} (h : blockCommentLength? 0 cs = some n) :
      scan '/' ('*' :: cs) = { kind := .comment, more := 1 + n } := by
    show scanBlockComment ('*' :: cs) = _
    unfold scanBlockComment
    rw [List.drop_one, List.tail_cons, h]
  cases h : blockCommentLength? 0 cs with
  | none =>
    have hopen : (scan '/' ('*' :: cs)).faults =
        [⟨.unterminatedComment, ⟨0, 1 + byteWidth ('*' :: cs)⟩⟩] := by
      show (scanBlockComment ('*' :: cs)).faults = _
      unfold scanBlockComment
      rw [List.drop_one, List.tail_cons, h]
    rw [hopen] at hclean
    cases hclean
  | some n =>
    have hstar : '*' ≠ '\n' := by decide
    refine .of_more (hscan h) ?_
    rw [crlf_cons hstar, hscan (blockCommentLength?_crlf h), Nat.add_comm 1 n, List.take_succ_cons,
      crlf_cons hstar, List.length_cons, Nat.add_comm]

/-- A token that is spelled `spelling` and starts at `start`, and with which nothing is wrong.  Where a
comment ends is left open. -/
structure ScannedToken.Spells (start : Pos) (k : TokenKind) (spelling : List Char)
    (t : ScannedToken) : Prop where
  faults : t.faults = []
  kind : t.token.kind = k
  text : t.token.text = String.ofList spelling
  pos : t.token.pos = start
  stop : k ≠ .comment → t.token.span.stop = start + byteWidth spelling

/-- The carriage return at the end of a spelling is all that is lost of it. -/
theorem tokenText_eq_self {cs : List Char} (h : '\r' ∉ cs) (kind : TokenKind) :
    tokenText kind cs = cs := if_neg fun hc => h (List.mem_of_getLast? hc.2.2)

/-- What a token says is part of the text. -/
theorem mem_of_mem_text {base : Pos} {cs : List Char} {t : ScannedToken} (ht : t ∈ tokensFrom base cs)
    {d : Char} (hd : d ∈ t.token.text.toList) : d ∈ cs := by
  fun_induction tokensFrom base cs with
  | case1 => cases ht
  | case2 base c cs hs ih => exact List.mem_cons_of_mem c (ih ht)
  | case3 base c cs hs s spelling stop ih =>
    have hcs : c :: cs = spelling ++ cs.drop s.more := by
      rw [List.cons_append, List.take_append_drop]
    rw [hcs]
    rcases List.mem_cons.1 ht with rfl | ht
    · rw [String.toList_ofList] at hd
      unfold tokenText at hd
      split at hd
      · exact List.mem_append_left _ ((List.dropLast_sublist _).subset hd)
      · exact List.mem_append_left _ hd
    · exact List.mem_append_right _ (ih ht)

/-- Two slashes start a comment that goes up to the end of the line. -/
theorem tokensFrom_slashes (pos : Pos) {body rest : List Char} (hbody : '\n' ∉ body)
    (hrest : ∀ c ∈ rest.head?, c = '\n') :
    tokensFrom pos ('/' :: '/' :: (body ++ rest)) =
      ⟨⟨.comment, String.ofList (tokenText .comment ('/' :: '/' :: body)),
        ⟨pos, pos + byteWidth ('/' :: '/' :: body)⟩⟩, []⟩ ::
          tokensFrom (pos + byteWidth ('/' :: '/' :: body)) rest := by
  have hline : '\n' ∉ '/' :: body := by
    rw [List.mem_cons, not_or]
    exact ⟨by decide, hbody⟩
  have hrun : runLength (· != '\n') ('/' :: body ++ rest) = body.length + 1 :=
    runLength_run (fun c hc => bne_iff_ne.2 (ne_of_mem_of_not_mem hc hline))
      fun c hc => by simp [hrest c hc]
  have hscan : scan '/' ('/' :: (body ++ rest)) = { kind := .comment, more := body.length + 1 } := by
    show scanLineComment ('/' :: body ++ rest) = _
    unfold scanLineComment
    rw [hrun]
  have hseparator : ¬ isSeparator '/' = true := by decide
  rw [tokensFrom, if_neg hseparator]
  dsimp only
  rw [hscan, List.take_succ_cons, List.drop_succ_cons, List.take_left, List.drop_left]
  rfl

/-- A line comment takes the carriage return in front of the newline behind it, and loses it again. -/
theorem tokensFrom_lineComment {cs : List Char} (hnext : cs.head? = some '/') (hcr : '\r' ∉ cs)
    (pos : Pos) : ∃ t, ScannedToken.Spells pos .comment ('/' :: cs.take (scan '/' cs).more) t ∧
      tokensFrom pos ('/' :: crlf cs) =
        t :: tokensFrom (pos + byteWidth ('/' :: cs.take (scan '/' cs).more))
          (crlf (cs.drop (scan '/' cs).more)) := by
  obtain ⟨ds, rfl⟩ := List.head?_eq_some_iff.1 hnext
  have hslash : '/' ≠ '\n' := by decide
  have hmore : (scan '/' ('/' :: ds)).more = runLength (· != '\n') ds + 1 :=
    congrArg List.length (List.takeWhile_cons_of_pos (p := (· != '\n')) (by decide))
  have hbody : '\n' ∉ ds.take (runLength (· != '\n') ds) := runLength_oneLine (by decide) ds
  have hrest : ∀ c ∈ (ds.drop (runLength (· != '\n') ds)).head?, c = '\n' := fun c hc => by
    simpa using head?_drop_runLength (· != '\n') ds c hc
  have hds := List.take_append_drop (runLength (· != '\n') ds) ds
  rw [hmore, List.take_succ_cons, List.drop_succ_cons, crlf_cons hslash]
  generalize ds.take (runLength (· != '\n') ds) = body at hbody hds ⊢
  generalize ds.drop (runLength (· != '\n') ds) = rest at hrest hds ⊢
  subst hds
  have hclean : '\r' ∉ '/' :: '/' :: body := by
    simp only [List.mem_cons, List.mem_append, not_or] at hcr ⊢
    exact ⟨by decide, by decide, hcr.2.1⟩
  rw [crlf_append, crlf_eq_self hbody]
  -- at the end of the text there is no newline, and so no carriage return to lose
  cases rest with
  | nil =>
    refine ⟨_, ⟨rfl, rfl, ?_, rfl, fun h => absurd rfl h⟩,
      tokensFrom_slashes pos hbody (by simp)⟩
    exact congrArg String.ofList (tokenText_eq_self hclean .comment)
  | cons c rest =>
    obtain rfl := hrest c rfl
    have htext : tokenText .comment ('/' :: '/' :: (body ++ ['\r'])) = '/' :: '/' :: body := by
      have hlast : ('/' :: '/' :: (body ++ ['\r'])).getLast? = some '\r' := by
        rw [← List.cons_append, ← List.cons_append, List.getLast?_concat]
      have hdrop : ('/' :: '/' :: (body ++ ['\r'])).dropLast = '/' :: '/' :: body := by
        rw [← List.cons_append, ← List.cons_append, List.dropLast_concat]
      unfold tokenText
      rw [if_pos ⟨rfl, rfl, hlast⟩, hdrop]
    have hline : '\n' ∉ body ++ ['\r'] := by
      rw [List.mem_append, not_or]
      exact ⟨hbody, by decide⟩
    have hstart : ∀ c ∈ ('\n' :: crlf rest).head?, c = '\n' := fun c hc => (Option.some.inj hc).symm
    have htokens := tokensFrom_slashes pos hline hstart
    have hwidth : pos + byteWidth ('/' :: '/' :: (body ++ ['\r'])) =
        pos + byteWidth ('/' :: '/' :: body) + 1 := by
      simp only [byteWidth_cons, byteWidth_append, byteWidth_nil]
      have hreturn : '\r'.utf8Size = 1 := rfl
      unfold Pos at *
      omega
    rw [htext, List.append_assoc, List.singleton_append] at htokens
    refine ⟨_, ?_, htokens.trans (congrArg (List.cons _) ?_)⟩
    · exact ⟨rfl, rfl, rfl, rfl, fun h => absurd rfl h⟩
    · -- the carriage return that the comment has taken separates tokens, too
      have hseparator : isSeparator '\r' = true := rfl
      rw [hwidth, crlf_newline, tokensFrom.eq_2 _ '\r', if_pos hseparator]
      rfl

/-! ### Any token -/

/-- A token that starts with a slash is a comment if nothing is wrong with it. -/
theorem slash_cases {cs : List Char} (hclean : (scan '/' cs).faults = []) :
    cs.head? = some '/' ∨ cs.head? = some '*' := by
  rcases scan_slash cs with hkind | hkind
  · cases kindForm hkind with
    | lineComment hc hnext hscan => exact .inl hnext
    | blockComment hc hnext hclosed hscan => exact .inr hnext
  · cases kindForm hkind with
    | openComment hc hnext hopen hscan => exact .inr hnext
    | other hscan hnone =>
      rw [hscan] at hclean
      cases hclean

/-- Only a token that starts with a slash is a comment, and one with which nothing is wrong is not
illegal. -/
theorem scan_kind_of_clean {c : Char} {cs : List Char} (hclean : (scan c cs).faults = []) :
    (c ≠ '/' → (scan c cs).kind ≠ .comment) ∧ (scan c cs).kind ≠ .illegal := by
  refine ⟨fun hslash hkind => ?_, fun hkind => ?_⟩
  · cases kindForm hkind with
    | lineComment hc hnext hscan => exact hslash hc
    | blockComment hc hnext hclosed hscan => exact hslash hc
  · cases kindForm hkind with
    | openComment hc hnext hopen hscan =>
      rw [hscan] at hclean
      cases hclean
    | other hscan hnone =>
      rw [hscan] at hclean
      cases hclean

/-- Nothing is lost of what does not start with two slashes. -/
theorem tokenText_of_not_slashes {c : Char} {cs : List Char}
    (h : ¬ (c = '/' ∧ cs.head? = some '/')) (kind : TokenKind) (n : Nat) :
    tokenText kind (c :: cs.take n) = c :: cs.take n := by
  refine if_neg ?_
  rintro ⟨-, htwo, -⟩
  obtain ⟨rfl, hnext⟩ := List.cons.inj htwo
  cases n with
  | zero => cases hnext
  | succ n =>
    cases cs with
    | nil => cases hnext
    | cons d ds =>
      rw [List.take_succ_cons] at hnext
      exact h ⟨rfl, congrArg some (List.cons.inj hnext).1⟩

/-- The first token of a text in which nothing is wrong with it, with carriage returns. -/
theorem exists_spells {c : Char} {cs : List Char} (hseparator : ¬ isSeparator c = true)
    (hcr : '\r' ∉ cs) (hclean : (scan c cs).faults = []) (pos : Pos) :
    ∃ t, ScannedToken.Spells pos (scan c cs).kind (crlf (c :: cs.take (scan c cs).more)) t ∧
      tokensFrom pos (crlf (c :: cs)) =
        t :: tokensFrom (pos + byteWidth (crlf (c :: cs.take (scan c cs).more)))
          (crlf (cs.drop (scan c cs).more)) := by
  have hc : c ≠ '\n' := by
    rintro rfl
    exact hseparator rfl
  rw [crlf_cons hc, crlf_cons hc]
  -- a line comment gains a character and loses it again, all others are read alike
  by_cases hline : c = '/' ∧ cs.head? = some '/'
  · obtain ⟨rfl, hnext⟩ := hline
    have hscan : scan '/' cs = scanLineComment cs := by
      obtain ⟨ds, rfl⟩ := List.head?_eq_some_iff.1 hnext
      rfl
    have hbody : '\n' ∉ cs.take (scan '/' cs).more := by
      rw [hscan]
      exact runLength_oneLine (p := (· != '\n')) (by decide) cs
    have hkind : (scan '/' cs).kind = .comment := by rw [hscan]; rfl
    rw [crlf_eq_self hbody, hkind]
    exact tokensFrom_lineComment hnext hcr pos
  have hreturned : ScansReturned c cs := by
    by_cases hslash : c = '/'
    · subst hslash
      have hnext := (slash_cases hclean).resolve_left fun h => hline ⟨rfl, h⟩
      exact scansReturned_blockComment hnext hclean
    by_cases hraw : c = backQuote
    · subst hraw
      exact scansReturned_raw hclean
    obtain ⟨hcomment, hillegal⟩ := scan_kind_of_clean hclean
    have hspelling := newline_not_mem_spelling hc hraw (hcomment hslash) hillegal
    exact scansReturned_of_line (fun h => hspelling (List.mem_cons_of_mem c h)) (hcomment hslash) hillegal
      hclean
  have hnext : ¬ (c = '/' ∧ (crlf cs).head? = some '/') := fun h =>
    hline ⟨h.1, (head?_crlf (by decide) (by decide) cs).1 h.2⟩
  have htext := tokenText_of_not_slashes hnext (scan c (crlf cs)).kind (scan c (crlf cs)).more
  refine ⟨.read pos c (crlf cs), ⟨?_, hreturned.kind, ?_, rfl, fun _ => ?_⟩, ?_⟩
  · exact List.map_eq_nil_iff.2 hreturned.faults
  · rw [hreturned.take] at htext
    show String.ofList (tokenText _ (c :: (crlf cs).take _)) = _
    rw [hreturned.take, htext]
  · show pos + byteWidth (c :: (crlf cs).take _) = _
    rw [hreturned.take]
  · rw [tokensFrom, if_neg hseparator]
    dsimp only
    rw [hreturned.drop, hreturned.take]
    unfold ScannedToken.read
    dsimp only
    rw [hreturned.take]

/-! ### All tokens -/

/-- Positions of a text at `base` go where they stand in the text with carriage returns at `base'`. -/
def Stretches (φ : Pos → Pos) (base base' : Pos) (cs : List Char) : Prop :=
  ∀ xs ys, cs = xs ++ ys → φ (base + byteWidth xs) = base' + byteWidth (crlf xs)

theorem Stretches.behind {φ : Pos → Pos} {base base' : Pos} {xs ys : List Char}
    (h : Stretches φ base base' (xs ++ ys)) :
    Stretches φ (base + byteWidth xs) (base' + byteWidth (crlf xs)) ys := by
  rintro zs ws rfl
  have hplace := h (xs ++ zs) ws (List.append_assoc ..).symm
  rwa [crlf_append, byteWidth_append, byteWidth_append, ← Nat.add_assoc, ← Nat.add_assoc] at hplace

/-- The token `t'` is `t`, moved by `φ`, with carriage returns in front of its newlines.  Such a token
is a comment or a literal between back quotes. -/
structure Token.Returned (φ : Pos → Pos) (t t' : Token) : Prop where
  kind : t'.kind = t.kind
  text : t'.text = onChars crlf t.text
  pos : t'.pos = φ t.pos
  stop : t.kind ≠ .comment → t'.span.stop = φ t.span.stop
  line : t.kind = .comment ∨ t.kind = .string ∧ (rawBody? t.text).isSome = true ∨
    '\n' ∉ t.text.toList

/-- Only comments and literals between back quotes span lines. -/
theorem spans_lines {c : Char} {cs : List Char} (hc : c ≠ '\n') (hclean : (scan c cs).faults = []) :
    (scan c cs).kind = .comment ∨
      (scan c cs).kind = .string ∧
        (rawBody? (String.ofList (c :: cs.take (scan c cs).more))).isSome = true ∨
      '\n' ∉ c :: cs.take (scan c cs).more := by
  by_cases hcomment : (scan c cs).kind = .comment
  · exact .inl hcomment
  refine .inr ?_
  by_cases hraw : c = backQuote
  · subst hraw
    obtain ⟨body, rest, rfl, hbody⟩ := exists_body_of_clean hclean
    have htake : (body ++ backQuote :: rest).take (body.length + 1) = body ++ [backQuote] :=
      List.take_length_add_append 1
    refine .inl ⟨by rw [scan_backQuote hbody], ?_⟩
    rw [scan_backQuote hbody, htake, rawBody?_eq_some_iff.2 ⟨String.toList_ofList, hbody⟩]
    rfl
  · exact .inr (newline_not_mem_spelling hc hraw hcomment (scan_kind_of_clean hclean).2)

/-- **Carriage returns in front of newlines only move tokens**, save that they stand in comments and in
literals between back quotes. -/
theorem tokensFrom_crlf {φ : Pos → Pos} {base base' : Pos} {cs : List Char} (hcr : '\r' ∉ cs)
    (hφ : Stretches φ base base' cs) (hclean : ∀ t ∈ tokensFrom base cs, t.faults = []) :
    List.Forall₂ (fun t t' => t'.faults = [] ∧ t.token.Returned φ t'.token) (tokensFrom base cs)
      (tokensFrom base' (crlf cs)) := by
  fun_induction tokensFrom base cs generalizing base' with
  | case1 =>
    rw [crlf_nil, tokensFrom]
    exact .nil
  | case2 base c cs hs ih =>
    obtain ⟨-, hcs⟩ := not_or.1 (List.mem_cons.not.1 hcr)
    -- a separator is one separator more if it is a newline
    have hgap : ∀ d ∈ crlf [c], isSeparator d = true := by
      by_cases hc : c = '\n'
      · subst hc
        exact List.forall_mem_cons.2 ⟨rfl, List.forall_mem_singleton.2 rfl⟩
      · rw [crlf_cons hc]
        exact List.forall_mem_singleton.2 hs
    have hcons : Stretches φ base base' ([c] ++ cs) := hφ
    have hrest : Stretches φ (base + byteWidth [c]) (base' + byteWidth (crlf [c])) cs := hcons.behind
    have htokens : tokensFrom base' (crlf (c :: cs)) =
        tokensFrom (base' + byteWidth (crlf [c])) (crlf cs) := by
      rw [← List.singleton_append, crlf_append, tokensFrom_append hgap]
    rw [htokens]
    exact ih hcs hrest hclean
  | case3 base c cs hs s spelling stop =>
    rename_i ih
    obtain ⟨hhead, hclean⟩ := List.forall_mem_cons.1 hclean
    have hfaults : (scan c cs).faults = [] := List.map_eq_nil_iff.1 hhead
    have hc : c ≠ '\n' := by
      rintro rfl
      exact hs rfl
    have hcs : c :: cs = spelling ++ cs.drop s.more := by
      rw [List.cons_append, List.take_append_drop]
    have hparts := hcs ▸ hcr
    rw [List.mem_append, not_or] at hparts
    -- the first token of the rest is read as it was, and what is behind it by the induction
    obtain ⟨t', ht', htokens⟩ := exists_spells hs (fun h => hcr (List.mem_cons_of_mem c h)) hfaults base'
    have hplace : Stretches φ base base' (spelling ++ cs.drop s.more) := hcs ▸ hφ
    have htext : String.ofList (tokenText s.kind spelling) = String.ofList spelling := by
      rw [tokenText_eq_self hparts.1]
    rw [htokens, htext]
    refine .cons ⟨ht'.faults, ?_⟩ (ih hparts.2 hplace.behind hclean)
    have hstart : φ base = base' := hplace [] _ rfl
    have hstop : φ stop = base' + byteWidth (crlf spelling) := hplace spelling _ rfl
    exact {
      kind := ht'.kind
      text := by rw [ht'.text, onChars, String.toList_ofList]
      pos := ht'.pos.trans hstart.symm
      stop := fun hk => (ht'.stop hk).trans hstop.symm
      line := by
        rw [String.toList_ofList]
        exact spans_lines hc hfaults }

end Idl
