/-
Idl/Proofs/Token/Blanking.lean

Texts without their comments.

`blanked` puts spaces in the place of the comments of a text, and of what is no token, and keeps the
newlines in them (`bytesOf_blanked`).  A space is as good as what it replaces to the token in front of
it, and tokens ask nothing of what precedes them.  So the text that is left has the same lines and the
same tokens, where they were, save those that are blanked (`tokensFrom_blankedFrom`).
-/
import Idl.Proofs.Token.Lines
import Idl.Proofs.Token.Lookahead

namespace Idl

/-! ### Blanks -/

/-- Comments and text that is no token count for nothing in the grammar. -/
def Token.IsIdle (t : Token) : Prop := t.kind = .comment ∨ t.kind = .illegal

instance (t : Token) : Decidable t.IsIdle := inferInstanceAs (Decidable (_ ∨ _))

/-- Whether a token counts for the grammar. -/
def Token.counts (t : Token) : Bool := decide (¬ t.IsIdle)

/-- Whether a token counts for the grammar. -/
def ScannedToken.counts (t : ScannedToken) : Bool := t.token.counts

/-- As many spaces as a character has bytes; the newline stays. -/
def blankedChar (c : Char) : List Char := if c = '\n' then [c] else List.replicate c.utf8Size ' '

/-- The byte of a space, unless the byte is that of the newline. -/
def blankedByte (b : UInt8) : UInt8 := if b = newlineByte then b else 32

/-- A text in which comments and illegal text are blanked. -/
def blankedFrom : List Char → List Char
  | [] => []
  | c :: cs =>
    if isSeparator c then c :: blankedFrom cs
    else
      let s := scan c cs
      let spelling := c :: cs.take s.more
      (if s.kind = .comment ∨ s.kind = .illegal then spelling.flatMap blankedChar else spelling) ++
        blankedFrom (cs.drop s.more)
termination_by cs => cs.length
decreasing_by all_goals simp; try omega

/-- A source in which comments and illegal text are blanked. -/
def blanked (source : String) : String := String.ofList (blankedFrom source.toList)

theorem utf8_blankedChar (c : Char) :
    utf8 (blankedChar c) = (String.utf8EncodeChar c).map blankedByte := by
  unfold blankedChar
  split
  · next h =>
    rw [h]
    rfl
  · next h =>
    have hspaces (n : Nat) : utf8 (List.replicate n ' ') = List.replicate n 32 := by
      induction n with
      | zero => rfl
      | succ n ih =>
        rw [List.replicate_succ, utf8_cons, ih]
        rfl
    have hbytes : (String.utf8EncodeChar c).map blankedByte =
        (String.utf8EncodeChar c).map fun _ => (32 : UInt8) := by
      refine List.map_congr_left fun b hb => if_neg ?_
      rintro rfl
      exact newlineByte_not_mem h hb
    rw [hspaces, hbytes, List.map_const', String.length_utf8EncodeChar]

theorem utf8_flatMap_blankedChar (cs : List Char) :
    utf8 (cs.flatMap blankedChar) = (utf8 cs).map blankedByte := by
  induction cs with
  | nil => rfl
  | cons c cs ih =>
    rw [List.flatMap_cons, utf8_append, utf8_blankedChar, ih, utf8_cons, List.map_append]

theorem byteWidth_flatMap_blankedChar (cs : List Char) :
    byteWidth (cs.flatMap blankedChar) = byteWidth cs := by
  rw [← length_utf8, utf8_flatMap_blankedChar, List.length_map, length_utf8]

theorem isSeparator_of_mem_blanked {cs : List Char} :
    ∀ c ∈ cs.flatMap blankedChar, isSeparator c = true := by
  intro c hc
  obtain ⟨d, -, hc⟩ := List.mem_flatMap.1 hc
  unfold blankedChar at hc
  split at hc
  · next hd =>
    rw [List.mem_singleton.1 hc, hd]
    rfl
  · rw [(List.mem_replicate.1 hc).2]
    rfl

/-! ### Tokens -/

/-- Separators in front of a text only move its tokens. -/
theorem tokensFrom_append {gap : List Char} (hgap : ∀ c ∈ gap, isSeparator c = true) (pos : Pos)
    (cs : List Char) : tokensFrom pos (gap ++ cs) = tokensFrom (pos + byteWidth gap) cs := by
  induction gap generalizing pos with
  | nil => rfl
  | cons c gap ih =>
    obtain ⟨hc, hgap⟩ := List.forall_mem_cons.1 hgap
    rw [List.cons_append, tokensFrom, if_pos hc, ih hgap, byteWidth_cons, Nat.add_assoc]

/-- A separator stays. -/
theorem blankedFrom_separator {c : Char} (hc : isSeparator c = true) (cs : List Char) :
    blankedFrom (c :: cs) = c :: blankedFrom cs := by
  rw [blankedFrom, if_pos hc]

/-- A comment and illegal text are blanked. -/
theorem blankedFrom_idle {c : Char} {cs : List Char} (hc : ¬ isSeparator c = true)
    (hidle : (scan c cs).kind = .comment ∨ (scan c cs).kind = .illegal) :
    blankedFrom (c :: cs) = (c :: cs.take (scan c cs).more).flatMap blankedChar ++
      blankedFrom (cs.drop (scan c cs).more) := by
  rw [blankedFrom, if_neg hc]
  dsimp only
  rw [if_pos hidle]

/-- Every other token stays. -/
theorem blankedFrom_token {c : Char} {cs : List Char} (hc : ¬ isSeparator c = true)
    (hidle : ¬ ((scan c cs).kind = .comment ∨ (scan c cs).kind = .illegal)) :
    blankedFrom (c :: cs) =
      c :: (cs.take (scan c cs).more ++ blankedFrom (cs.drop (scan c cs).more)) := by
  rw [blankedFrom, if_neg hc]
  dsimp only
  rw [if_neg hidle, List.cons_append]

theorem blankedFrom_nil : blankedFrom [] = [] := by rw [blankedFrom]

/-- A blanked text starts as the text does, or with a space. -/
theorem blankedFrom_startsAlike (cs : List Char) : StartsAlike cs (blankedFrom cs) := by
  cases cs with
  | nil =>
    rw [blankedFrom_nil]
    exact .inl rfl
  | cons c cs =>
    by_cases hc : isSeparator c = true
    · rw [blankedFrom_separator hc]
      exact .inl rfl
    by_cases hidle : (scan c cs).kind = .comment ∨ (scan c cs).kind = .illegal
    · have hne : c ≠ '\n' := by
        rintro rfl
        exact hc rfl
      obtain ⟨n, hn⟩ := Nat.exists_eq_succ_of_ne_zero (Nat.ne_of_gt c.utf8Size_pos)
      have hchar : blankedChar c = ' ' :: List.replicate n ' ' := by
        rw [blankedChar, if_neg hne, hn]
        rfl
      rw [blankedFrom_idle hc hidle, List.flatMap_cons, hchar]
      exact .separator (List.cons_ne_nil c cs) List.mem_cons_self _
    · rw [blankedFrom_token hc hidle]
      exact .inl rfl

/-- A newline at the start of a text stays there. -/
theorem head?_blankedFrom {cs : List Char} (h : cs.head? = some '\n') :
    (blankedFrom cs).head? = some '\n' := by
  obtain ⟨cs, rfl⟩ := List.head?_eq_some_iff.1 h
  rw [blankedFrom_separator rfl]
  rfl

/-- **Blanking takes tokens away and changes none.**  The tokens of a blanked text are those of the
text, but for the comments and the illegal text. -/
theorem tokensFrom_blankedFrom (pos : Pos) (cs : List Char) :
    tokensFrom pos (blankedFrom cs) = (tokensFrom pos cs).filter ScannedToken.counts := by
  fun_induction tokensFrom pos cs with
  | case1 pos =>
    rw [blankedFrom_nil, tokensFrom]
    rfl
  | case2 pos c cs hs ih => rw [blankedFrom_separator hs, tokensFrom, if_pos hs, ih]
  | case3 pos c cs hs s spelling stop ih =>
    show _ = List.filter _ (ScannedToken.read pos c cs :: tokensFrom stop (cs.drop s.more))
    by_cases hidle : (ScannedToken.read pos c cs).token.IsIdle
    · -- what is left of the token are separators as wide as it
      have hdrop : ¬ (ScannedToken.read pos c cs).counts = true := fun h =>
        of_decide_eq_true h hidle
      rw [blankedFrom_idle hs hidle, tokensFrom_append isSeparator_of_mem_blanked,
        byteWidth_flatMap_blankedChar, List.filter_cons_of_neg hdrop]
      exact ih
    · -- the token stays, and what stands behind it now starts alike
      have halike := blankedFrom_startsAlike (cs.drop s.more)
      have hscan : scan c (cs.take s.more ++ blankedFrom (cs.drop s.more)) = s :=
        scan_congr (fun h => hidle (.inl h)) (fun h => hidle (.inr h)) halike
          (.inr head?_blankedFrom)
      have hparts := halike.parts
      have hkeep : (ScannedToken.read pos c cs).counts = true := decide_eq_true hidle
      rw [blankedFrom_token hs hidle, tokensFrom, if_neg hs, List.filter_cons_of_pos hkeep, ← ih]
      dsimp only
      rw [hscan, hparts.1, hparts.2]
      rfl

/-! ### Lines -/

/-- A blanked byte is that of a newline just where the byte is. -/
theorem lineStartsInBytes_blanked (start : Nat) (bs : List UInt8) :
    lineStartsInBytes start (bs.map blankedByte) = lineStartsInBytes start bs := by
  have hnewline (b : UInt8) : blankedByte b = 10 ↔ b = 10 := by
    unfold blankedByte
    split
    · exact Iff.rfl
    · next h =>
      have h32 : (32 : UInt8) ≠ 10 := by decide
      exact iff_of_false h32 h
  induction bs generalizing start with
  | nil => rfl
  | cons b bs ih => simp only [List.map_cons, lineStartsInBytes, hnewline, ih]

/-- Blanking keeps the lines. -/
theorem lineStartsFrom_blankedFrom (start : Nat) (cs : List Char) :
    lineStartsFrom start (blankedFrom cs) = lineStartsFrom start cs := by
  fun_induction tokensFrom start cs with
  | case1 => rw [blankedFrom_nil]
  | case2 start c cs hs ih =>
    rw [blankedFrom_separator hs]
    simp only [lineStartsFrom, ih]
  | case3 start c cs hs s spelling stop ih =>
    have hcs : c :: cs = spelling ++ cs.drop s.more := by
      rw [List.cons_append, List.take_append_drop]
    by_cases hidle : s.kind = .comment ∨ s.kind = .illegal
    · rw [blankedFrom_idle hs hidle, hcs, lineStartsFrom_append, lineStartsFrom_append,
        byteWidth_flatMap_blankedChar, ih, lineStartsFrom_eq, utf8_flatMap_blankedChar,
        lineStartsInBytes_blanked, ← lineStartsFrom_eq]
    · rw [blankedFrom_token hs hidle, hcs, ← List.cons_append, lineStartsFrom_append,
        lineStartsFrom_append, ih]

/-! ### Bytes -/

/-- The byte at a place of a text that has the given tokens, when the idle ones are blanked. -/
def blankedAt (ts : List Token) (p : Pos) (b : UInt8) : UInt8 :=
  if b ≠ newlineByte ∧ ∃ t ∈ ts, t.IsIdle ∧ t.span.start ≤ p ∧ p < t.span.stop then 32 else b

section BlankedAt

variable {t : Token} {ts : List Token} {p : Pos}

/-- In front of all tokens nothing is blanked. -/
theorem blankedAt_before (h : ∀ t ∈ ts, p < t.span.start) (b : UInt8) : blankedAt ts p b = b := by
  refine if_neg ?_
  rintro ⟨-, t, ht, -, hstart, -⟩
  exact Nat.not_lt.2 hstart (h t ht)

/-- Behind a token only the other ones count. -/
theorem blankedAt_behind (h : t.span.stop ≤ p) (b : UInt8) :
    blankedAt (t :: ts) p b = blankedAt ts p b := by
  have hnone : ¬ (t.IsIdle ∧ t.span.start ≤ p ∧ p < t.span.stop) := fun hp => Nat.not_lt.2 h hp.2.2
  unfold blankedAt
  simp only [List.mem_cons, exists_eq_or_imp, hnone, false_or]

/-- An idle token is blanked. -/
theorem blankedAt_idle (ht : t.IsIdle) (hstart : t.span.start ≤ p) (hstop : p < t.span.stop)
    (b : UInt8) : blankedAt (t :: ts) p b = blankedByte b := by
  unfold blankedAt blankedByte
  by_cases hb : b = newlineByte
  · rw [if_neg fun h => h.1 hb, if_pos hb]
  · rw [if_pos ⟨hb, t, List.mem_cons_self, ht, hstart, hstop⟩, if_neg hb]

/-- Every other token stays. -/
theorem blankedAt_token (ht : ¬ t.IsIdle) (h : ∀ u ∈ ts, p < u.span.start) (b : UInt8) :
    blankedAt (t :: ts) p b = b := by
  refine if_neg ?_
  rintro ⟨-, u, hu, hidle, hstart, -⟩
  rcases List.mem_cons.1 hu with rfl | hu
  · exact ht hidle
  · exact Nat.not_lt.2 hstart (h u hu)

end BlankedAt

/-- What is done to the bytes of a part of a text. -/
theorem mapIdx_part {f : Nat → UInt8 → UInt8} {g : UInt8 → UInt8} {bs : List UInt8}
    (h : ∀ i < bs.length, ∀ b, f i b = g b) : bs.mapIdx f = bs.map g := by
  refine List.ext_getElem (by rw [List.length_mapIdx, List.length_map]) fun i hi _ => ?_
  rw [List.length_mapIdx] at hi
  rw [List.getElem_mapIdx, List.getElem_map, h i hi]

theorem utf8_blankedFrom (pos : Pos) (cs : List Char) : utf8 (blankedFrom cs) =
    (utf8 cs).mapIdx fun i => blankedAt ((tokensFrom pos cs).map (·.token)) (pos + i) := by
  fun_induction tokensFrom pos cs with
  | case1 => rw [blankedFrom_nil]; rfl
  | case2 pos c cs hs ih =>
    have hbefore : ∀ i < (String.utf8EncodeChar c).length, ∀ b,
        blankedAt ((tokensFrom (pos + c.utf8Size) cs).map (·.token)) (pos + i) b = id b := by
      intro i hi b
      refine blankedAt_before (fun t ht => ?_) b
      obtain ⟨u, hu, rfl⟩ := List.mem_map.1 ht
      rw [String.length_utf8EncodeChar] at hi
      exact Nat.lt_of_lt_of_le (Nat.add_lt_add_left hi pos) ((tokensFrom_within _ _).1 u hu).start
    rw [blankedFrom_separator hs, utf8_cons, utf8_cons, List.mapIdx_append, mapIdx_part hbefore,
      List.map_id, ih]
    congr 2
    funext i
    rw [String.length_utf8EncodeChar, Nat.add_assoc, Nat.add_comm i]
  | case3 pos c cs hs s spelling stop ih =>
    have hcs : c :: cs = spelling ++ cs.drop s.more := by
      rw [List.cons_append, List.take_append_drop]
    have hrest : ((utf8 (cs.drop s.more)).mapIdx fun i => blankedAt
        (⟨s.kind, String.ofList (tokenText s.kind spelling), ⟨pos, stop⟩⟩ ::
          (tokensFrom stop (cs.drop s.more)).map (·.token)) (pos + (i + (utf8 spelling).length))) =
        utf8 (blankedFrom (cs.drop s.more)) := by
      rw [ih]
      congr 1
      funext i b
      have hplace : pos + (i + (utf8 spelling).length) = stop + i := by
        rw [length_utf8, Nat.add_comm i, ← Nat.add_assoc]
      rw [hplace]
      exact blankedAt_behind (Nat.le_add_right stop i) b
    -- tokens do not overlap, so those behind this one do not reach back into it
    have hbehind : ∀ i < (utf8 spelling).length,
        ∀ u ∈ (tokensFrom stop (cs.drop s.more)).map (·.token), pos + i < u.span.start := by
      intro i hi u hu
      obtain ⟨v, hv, rfl⟩ := List.mem_map.1 hu
      rw [length_utf8] at hi
      exact Nat.lt_of_lt_of_le (Nat.add_lt_add_left hi pos) ((tokensFrom_within _ _).1 v hv).start
    by_cases hidle : (ScannedToken.read pos c cs).token.IsIdle
    · rw [blankedFrom_idle hs hidle, utf8_append, hcs, utf8_append, List.mapIdx_append, List.map_cons,
        hrest, utf8_flatMap_blankedChar]
      congr 1
      refine (mapIdx_part fun i hi b => ?_).symm
      rw [length_utf8] at hi
      exact blankedAt_idle hidle (Nat.le_add_right pos i) (Nat.add_lt_add_left hi pos) b
    · rw [blankedFrom_token hs hidle, ← List.cons_append, utf8_append, hcs, utf8_append,
        List.mapIdx_append, List.map_cons, hrest]
      congr 1
      refine (List.map_id _).symm.trans (mapIdx_part (g := id) fun i hi b => ?_).symm
      exact blankedAt_token hidle (hbehind i hi) b

/-- **What is blanked.**  Every byte of a comment or of illegal text is that of a space, save for the
newlines, and every other byte is as it was. -/
theorem bytesOf_blanked (source : String) : bytesOf (blanked source) =
    (bytesOf source).mapIdx (blankedAt (scanSource 0 source).allTokens) := by
  have heof {ts : List Token} {p : Pos} {t : Token} (ht : ¬ t.IsIdle) (b : UInt8) :
      blankedAt (ts ++ [t]) p b = blankedAt ts p b := by
    unfold blankedAt
    simp only [List.mem_append, List.mem_singleton, or_and_right, exists_or, exists_eq_left, ht,
      false_and, or_false]
  rw [bytesOf_eq, bytesOf_eq, blanked, String.toList_ofList, utf8_blankedFrom 0]
  congr 1
  funext i b
  rw [Nat.zero_add]
  exact (heof (by unfold Token.IsIdle; simp [scanSource]) b).symm

example : blanked "a /* b\nc */ ! d" = "a     \n       d" := by decide +kernel

theorem byteWidth_blankedFrom (cs : List Char) : byteWidth (blankedFrom cs) = byteWidth cs := by
  rw [← length_utf8, utf8_blankedFrom 0, List.length_mapIdx, length_utf8]

/-! ### Whole sources -/

/-- The tokens of a source that count, where they are. -/
def Scanned.bare (s : Scanned) : Scanned := { s with tokens := s.tokens.filter ScannedToken.counts }

/-- Reading a blanked source gives the tokens that count and the same lines. -/
theorem scanSource_blanked (base : Pos) (source : String) :
    scanSource base (blanked source) = (scanSource base source).bare := by
  unfold scanSource Scanned.bare blanked
  rw [String.toList_ofList, tokensFrom_blankedFrom, byteWidth_blankedFrom, lineStartsRead_eq,
    lineStartsRead_eq, lineStartsFrom_blankedFrom]

/-- Nothing is wrong with a comment. -/
theorem scan_comment (c : Char) (cs : List Char) (h : (scan c cs).kind = .comment) :
    (scan c cs).faults = [] := by
  cases kindForm h with
  | lineComment hc hnext hscan => rw [hscan]; rfl
  | blockComment hc hnext hclosed hscan => rw [hscan]

/-- What is wrong with the tokens of a blanked source is what is wrong with those of the source that are
not illegal. -/
theorem errors_bare (base : Pos) (source : String) : (scanSource base source).bare.errors =
    ((scanSource base source).tokens.filter fun t => t.token.kind ≠ .illegal).flatMap (·.faults) := by
  have hall (ts : List ScannedToken) (h : ∀ t ∈ ts, t.token.kind = .comment → t.faults = []) :
      (ts.filter ScannedToken.counts).flatMap (·.faults) =
        (ts.filter fun t => t.token.kind ≠ .illegal).flatMap (·.faults) := by
    induction ts with
    | nil => rfl
    | cons t ts ih =>
      obtain ⟨ht, hts⟩ := List.forall_mem_cons.1 h
      by_cases hillegal : t.token.kind = .illegal
      · have hdrop : ¬ t.counts = true := fun h => of_decide_eq_true h (.inr hillegal)
        rw [List.filter_cons_of_neg hdrop, List.filter_cons_of_neg (by simpa using hillegal), ih hts]
      rw [List.filter_cons_of_pos (p := fun t : ScannedToken => t.token.kind ≠ .illegal)
        (decide_eq_true hillegal), List.flatMap_cons, ← ih hts]
      by_cases hcomment : t.token.kind = .comment
      · have hdrop : ¬ t.counts = true := fun h => of_decide_eq_true h (.inl hcomment)
        rw [List.filter_cons_of_neg hdrop, ht hcomment, List.nil_append]
      · have hkeep : t.counts = true := decide_eq_true (not_or.2 ⟨hcomment, hillegal⟩)
        rw [List.filter_cons_of_pos hkeep, List.flatMap_cons]
  refine hall _ fun t ht hk => ?_
  obtain ⟨p, c, ds, rfl⟩ := exists_read ht
  exact List.map_eq_nil_iff.2 (scan_comment c ds hk)

end Idl
