/-
Idl/Proofs/Trace/Start.lean

The state in which parsing starts.

The tokens of a text come in order, each behind the one before, and end where the text ends; each
is spelled as its kind asks for, and what is wrong inside it starts in the text.  Taking out the
comments and the illegal text keeps the order.  So the state in which a file is parsed is one that
runs can start from (`start_ready`).
-/
import Idl.Proofs.Token.Forms
import Idl.Proofs.Trace

namespace Idl

/-! ### One token -/

/-- What is known of a token that starts with `c` before the text `cs`. -/
structure Scan.Sound (s : Scan) (c : Char) (cs : List Char) : Prop where
  kind : s.kind ≠ .eof
  spelled (span : Span) :
    Token.Spelled ⟨s.kind, String.ofList (tokenText s.kind (c :: cs.take s.more)), span⟩
  faults : ∀ e ∈ s.faults, e.span.start ≤ byteWidth (c :: cs)

/-- A literal, a comment or illegal text, with its faults. -/
theorem Scan.sound_of_text {s : Scan} {c : Char} {cs : List Char}
    (hk : s.kind ∈ [.comment, .illegal, .int, .float, .char, .string])
    (hf : ∀ e ∈ s.faults, e.span.start ≤ byteWidth (c :: cs)) : s.Sound c cs where
  kind h := by simp [h] at hk
  spelled span := by
    simp only [List.mem_cons, List.not_mem_nil, or_false] at hk
    rcases hk with h | h | h | h | h | h <;> simp [Token.Spelled, h]
  faults := hf

/-- Faults that start with the token. -/
theorem Scan.sound_of_start {s : Scan} {c : Char} {cs : List Char}
    (hk : s.kind ∈ [.comment, .illegal, .int, .float, .char, .string])
    (hf : ∀ e ∈ s.faults, e.span.start = 0) : s.Sound c cs :=
  sound_of_text hk fun e he => hf e he ▸ Nat.zero_le _

theorem scanWord_sound {c : Char} {cs : List Char} (hc : isIdentStart c = true) :
    (scanWord c cs).Sound c cs := by
  have htake : cs.take (cs.takeWhile isIdentContinue).length = cs.takeWhile isIdentContinue :=
    take_runLength isIdentContinue cs
  have hall : (cs.takeWhile isIdentContinue).all isIdentContinue = true := List.all_takeWhile
  unfold scanWord
  cases h : Keyword.ofSpelling? (String.ofList (c :: cs.takeWhile isIdentContinue)) with
  | none =>
    refine ⟨by simp only [h]; decide, fun span => ?_, by simp⟩
    simp only [h, htake, Token.Spelled]
    rw [tokenText_of_ne (by decide)]
    exact ⟨c, _, hc, hall, rfl⟩
  | some k =>
    refine ⟨by simp only [h]; simp, fun span => ?_, by simp⟩
    simp only [h, htake, Token.Spelled]
    rw [tokenText_of_ne (by simp)]
    exact (Keyword.spelling_of_ofSpelling? h).symm

theorem scanNumber_sound (c : Char) (cs ds : List Char) : (scanNumber ds).Sound c cs := by
  have hdecimal (f : Nat → NumberFault → List LexError)
      (hf : ∀ n g, ∀ e ∈ f n g, e.span.start = 0) : (scanNumber.decimal ds f).Sound c cs := by
    unfold scanNumber.decimal
    dsimp only
    split
    · refine Scan.sound_of_start (by simp) fun e he => ?_
      dsimp only at he
      split at he
      · exact hf _ _ e he
      · simp at he
    · refine Scan.sound_of_start (by simp) fun e he => ?_
      dsimp only at he
      split at he
      · exact hf _ _ e he
      · simp at he
  unfold scanNumber
  dsimp only
  split
  · split
    · refine Scan.sound_of_start (by simp) fun e he => ?_
      dsimp only at he
      split at he
      · rw [List.mem_singleton.1 he]
      · simp at he
    · exact hdecimal _ fun n g e he => by rw [List.mem_singleton.1 he]
  · exact hdecimal _ fun n g e he => by rw [List.mem_singleton.1 he]

/-- Escapes that are at fault start in the literal. -/
theorem QuotedBody.faults_start (quote : Char) (start : Nat) (cs : List Char) :
    ∀ e ∈ (QuotedBody.read quote start cs).faults, e.span.start ≤ start + byteWidth cs := by
  fun_induction QuotedBody.read quote start cs with
  | case1 start => simp
  | case2 => simp
  | case3 => simp
  | case4 start cs esc rest hn hq ih =>
    intro e he
    simp only [List.mem_append] at he
    rcases he with he | he
    · unfold Escape.faults at he
      split at he
      · simp at he
      · obtain ⟨k, -, rfl⟩ := Option.map_eq_some_iff.1 (Option.mem_toList.1 he)
        exact Nat.le_add_right ..
    · have h := ih e he
      have hwidth := byteWidth_take_add_drop esc.width cs
      have hc := Char.utf8Size_pos '\\'
      rw [byteWidth_cons]
      unfold Pos at *
      omega
  | case5 start c cs hn hq hb rest ih =>
    intro e he
    have h := ih e he
    rw [byteWidth_cons]
    unfold Pos at *
    omega

/-- A literal between quotes: what is wrong with it as a whole starts where it does. -/
theorem Scan.sound_of_body {s : Scan} {c quote : Char} {cs : List Char} {own : List LexError}
    (hk : s.kind ∈ [.comment, .illegal, .int, .float, .char, .string])
    (hs : s.faults = (QuotedBody.read quote 1 cs).faults ++ own)
    (hown : ∀ e ∈ own, e.span.start = 0) : s.Sound c cs := by
  have hc := c.utf8Size_pos
  refine sound_of_text hk fun e he => ?_
  rw [hs] at he
  rcases List.mem_append.1 he with he | he
  · refine Nat.le_trans (QuotedBody.faults_start quote 1 cs e he) ?_
    rw [byteWidth_cons]
    omega
  · rw [hown e he]
    exact Nat.zero_le _

theorem scan_sound (c : Char) (cs : List Char) : (scan c cs).Sound c cs := by
  have hown {p : Prop} [Decidable p] {k : LexErrorKind} {stop : Pos} :
      ∀ e ∈ if p then [] else [(⟨k, ⟨0, stop⟩⟩ : LexError)], e.span.start = 0 := by
    intro e he
    split at he
    · cases he
    · rw [List.mem_singleton.1 he]
  cases scanForm c cs with
  | word hc hscan => exact hscan ▸ scanWord_sound hc
  | number hc hscan => exact hscan ▸ scanNumber_sound c cs _
  | string hc hscan => exact hscan ▸ Scan.sound_of_body (by simp [scanString]) rfl hown
  | rawString hc hscan =>
    rw [hscan]
    unfold scanRawString
    dsimp only
    split
    · exact Scan.sound_of_start (by simp) (by simp)
    · exact Scan.sound_of_start (by simp) (by simp)
  | char hc hscan => exact hscan ▸ Scan.sound_of_body (by simp [scanChar]) rfl hown
  | lineComment hc hnext hscan =>
    exact hscan ▸ Scan.sound_of_start (by simp [scanLineComment]) (by simp [scanLineComment])
  | blockComment hc hnext hscan =>
    rw [hscan]
    unfold scanBlockComment
    split
    · exact Scan.sound_of_start (by simp) (by simp)
    · exact Scan.sound_of_start (by simp) (by simp)
  | mark p hc hscan =>
    rw [hscan]
    refine ⟨by simp, fun span => ?_, by simp⟩
    simp [Token.Spelled, tokenText, Punct.char_of_ofChar? hc]
  | other hscan => exact hscan ▸ Scan.sound_of_start (by simp) (by simp)

/-! ### All tokens -/

/-- A token lies between two positions, and so do the starts of its faults. -/
structure ScannedToken.Within (lo hi : Pos) (t : ScannedToken) : Prop where
  start : lo ≤ t.token.pos
  ordered : t.token.pos ≤ t.token.span.stop
  ends : t.token.span.stop ≤ hi
  stop : t.token.pos < hi
  kind : t.token.kind ≠ .eof
  spelled : t.token.Spelled
  width : t.token.kind = .ident → t.token.span = .ofWidth t.token.pos t.token.text.utf8ByteSize
  faults : ∀ e ∈ t.faults, lo ≤ e.span.start ∧ e.span.start ≤ hi

theorem ScannedToken.Within.mono {lo lo' hi : Pos} {t : ScannedToken} (h : t.Within lo hi)
    (hle : lo' ≤ lo) : t.Within lo' hi where
  start := Nat.le_trans hle h.start
  ordered := h.ordered
  ends := h.ends
  stop := h.stop
  kind := h.kind
  spelled := h.spelled
  width := h.width
  faults e he := ⟨Nat.le_trans hle (h.faults e he).1, (h.faults e he).2⟩

/-- The tokens of a text lie in the text and come in order. -/
theorem tokensFrom_within (pos : Pos) (cs : List Char) :
    (∀ t ∈ tokensFrom pos cs, t.Within pos (pos + byteWidth cs)) ∧
      (tokensFrom pos cs).Pairwise fun t u => t.token.pos < u.token.pos := by
  fun_induction tokensFrom pos cs with
  | case1 pos => simp
  | case2 pos c cs hs ih =>
    refine ⟨fun t ht => ?_, ih.2⟩
    have h := (ih.1 t ht).mono (Nat.le_add_right pos c.utf8Size)
    rwa [Nat.add_assoc] at h
  | case3 pos c cs hs s spelling stop ih =>
    have hsound := scan_sound c cs
    have hspelling : byteWidth spelling + byteWidth (cs.drop s.more) = byteWidth (c :: cs) := by
      show c.utf8Size + byteWidth (cs.take s.more) + _ = c.utf8Size + byteWidth cs
      rw [Nat.add_assoc, byteWidth_take_add_drop]
    have hend : stop + byteWidth (cs.drop s.more) = pos + byteWidth (c :: cs) := by
      rw [← hspelling, ← Nat.add_assoc]
    have hc := c.utf8Size_pos
    have hlt : pos < stop := by
      show pos < pos + (c.utf8Size + byteWidth (cs.take s.more))
      unfold Pos at *
      omega
    refine ⟨fun t ht => ?_, List.pairwise_cons.2 ⟨fun t ht => ?_, ih.2⟩⟩
    · rcases List.mem_cons.1 ht with rfl | ht
      · have hends : stop ≤ pos + byteWidth (c :: cs) := hend ▸ Nat.le_add_right ..
        refine ⟨Nat.le_refl _, Nat.le_of_lt hlt, hends, Nat.lt_of_lt_of_le hlt hends, hsound.kind,
          hsound.spelled _, fun hkind => ?_, fun e he => ?_⟩
        · have hcomment : s.kind ≠ .comment := fun h => by cases hkind.symm.trans h
          rw [utf8ByteSize_eq, String.toList_ofList, tokenText_of_ne hcomment]
          rfl
        · obtain ⟨e', he', rfl⟩ := List.mem_map.1 he
          exact ⟨Nat.le_add_right .., Nat.add_le_add_left (hsound.faults e' he') _⟩
      · have h := (ih.1 t ht).mono (Nat.le_of_lt hlt)
        rwa [hend] at h
    · exact Nat.lt_of_lt_of_le hlt (ih.1 t ht).start

/-- The significant tokens of a list are those that are neither comments nor illegal text. -/
theorem significantFrom_token (lineOf : Pos → Nat) (prevLine : Nat) (held : List Comment)
    (ts : List Token) : (significantFrom lineOf prevLine held ts).map (·.token) =
      ts.filter fun t => t.kind ≠ .illegal ∧ t.kind ≠ .comment := by
  induction ts generalizing prevLine held with
  | nil => rfl
  | cons t ts ih =>
    unfold significantFrom
    split
    · next h => rw [ih, List.filter_cons_of_neg (by simp [h])]
    · next h => rw [ih, List.filter_cons_of_neg (by simp [h])]
    · next hi hc =>
      rw [List.map_cons, ih, List.filter_cons_of_pos (by simpa using ⟨hi, hc⟩)]
      rfl

/-- Without comments and illegal text, every token counts and has no comments. -/
theorem significantFrom_bare (lineOf : Pos → Nat) (line : Nat) {ts : List Token}
    (h : ∀ t ∈ ts, t.kind ≠ .comment ∧ t.kind ≠ .illegal) :
    significantFrom lineOf line [] ts = ts.map fun t => ⟨t, none, none, []⟩ := by
  induction ts generalizing line with
  | nil => rfl
  | cons t ts ih =>
    obtain ⟨⟨hcomment, hillegal⟩, hts⟩ := List.forall_mem_cons.1 h
    have hattach : attachComments lineOf line [].reverse t = ⟨t, none, none, []⟩ := by
      simp [attachComments, sameLineComments, commentGroups]
    rw [significantFrom, List.map_cons, ← ih (lineOf t.pos) hts, hattach]
    split
    · next hk => exact absurd hk hillegal
    · next hk => exact absurd hk hcomment
    · rfl

/-! ### The start of a file -/

theorem SourceFile.foldl_addLine (f : SourceFile) (ls : List Nat) :
    (ls.foldl SourceFile.addLine f).name = f.name ∧ (ls.foldl SourceFile.addLine f).base = f.base ∧
      (ls.foldl SourceFile.addLine f).size = f.size := by
  induction ls generalizing f with
  | nil => exact ⟨rfl, rfl, rfl⟩
  | cons l ls ih =>
    obtain ⟨h1, h2, h3⟩ := ih (f.addLine l)
    have h : (f.addLine l).name = f.name ∧ (f.addLine l).base = f.base ∧
        (f.addLine l).size = f.size := by
      unfold addLine
      split <;> exact ⟨rfl, rfl, rfl⟩
    exact ⟨h1.trans h.1, h2.trans h.2.1, h3.trans h.2.2⟩

/-- The tokens of a start state are the significant ones of the file. -/
theorem ParseState.tokens_start (file : SourceFile) (id : FileId) (symbols : SymbolTable)
    (tokens : List SignificantToken) (h : tokens ≠ []) :
    (ParseState.start file id symbols tokens).tokens = tokens.map (·.token) := by
  unfold start ParseState.tokens
  dsimp only
  rw [List.getLastD_eq_getLast?, List.getLast?_eq_some_getLast h, Option.getD_some,
    ← List.map_singleton, ← List.map_append, List.dropLast_append_getLast h]

/-- Parsing starts in a state from which it can go on. -/
theorem start_ready (f : SourceFile) (id : FileId) (symbols : SymbolTable) (source : String)
    (hbase : f.base ≠ 0) (hsize : f.size = byteWidth source.toList) :
    let (scanned, g) := f.scan source
    (ParseState.start g id symbols (significant g.lineOf scanned.allTokens)).Ready := by
  obtain ⟨-, hgbase, hgsize⟩ := f.foldl_addLine (scanSource f.base source).lineStarts
  unfold SourceFile.scan
  dsimp only
  generalize (scanSource f.base source).lineStarts.foldl SourceFile.addLine f = g at *
  obtain ⟨hwithin, hincreasing⟩ := tokensFrom_within f.base source.toList
  let eof : Token := ⟨.eof, "", Span.ofPos (f.base + byteWidth source.toList)⟩
  let kept : Token → Bool := fun t => t.kind ≠ .illegal ∧ t.kind ≠ .comment
  have htokens : (significant g.lineOf (scanSource f.base source).allTokens).map (·.token) =
      ((tokensFrom f.base source.toList).map (·.token)).filter kept ++ [eof] := by
    unfold significant
    rw [significantFrom_token]
    show List.filter kept (_ ++ [eof]) = _
    rw [List.filter_append]
    rfl
  have hne : significant g.lineOf (scanSource f.base source).allTokens ≠ [] := by
    intro h
    rw [h] at htokens
    simp at htokens
  have hstart := ParseState.tokens_start g id symbols _ hne
  rw [htokens] at hstart
  have hholds {t : Token} (hlo : f.base ≤ t.pos) (hmid : t.pos ≤ t.span.stop)
      (hhi : t.span.stop ≤ f.base + byteWidth source.toList) : g.Holds t.span := by
    constructor
    · rw [hgbase]
      exact hlo
    · exact hmid
    · rw [hgbase, hgsize, hsize]
      exact hhi
  have hheld : ∀ t ∈ ((tokensFrom f.base source.toList).map (·.token)).filter kept ++ [eof],
      g.Holds t.span := by
    intro t ht
    rcases List.mem_append.1 ht with ht | ht
    · obtain ⟨t', ht', rfl⟩ := List.mem_map.1 (List.mem_filter.1 ht).1
      exact hholds (hwithin t' ht').start (hwithin t' ht').ordered (hwithin t' ht').ends
    · rw [List.mem_singleton.1 ht]
      exact hholds (Nat.le_add_right ..) (Nat.le_refl _) (Nat.le_refl _)
  constructor
  · rw [hstart, List.pairwise_append]
    refine ⟨?_, List.pairwise_singleton .., fun t ht u hu => ?_⟩
    · refine List.Pairwise.sublist List.filter_sublist ?_
      rw [List.pairwise_map]
      exact hincreasing
    · obtain ⟨t', ht', rfl⟩ := List.mem_map.1 (List.mem_filter.1 ht).1
      rw [List.mem_singleton.1 hu]
      exact (hwithin t' ht').stop
  · rw [hstart]
    exact fun t ht => (hheld t ht).owns (hgbase ▸ hbase)
  · rw [hstart]
    exact hheld
  · rw [hstart]
    intro t ht
    rcases List.mem_append.1 ht with ht | ht
    · obtain ⟨t', ht', rfl⟩ := List.mem_map.1 (List.mem_filter.1 ht).1
      exact (hwithin t' ht').spelled
    · rw [List.mem_singleton.1 ht]
      trivial
  · rw [hstart]
    intro t ht hkind
    rcases List.mem_append.1 ht with ht | ht
    · obtain ⟨t', ht', rfl⟩ := List.mem_map.1 (List.mem_filter.1 ht).1
      exact (hwithin t' ht').width hkind
    · rw [List.mem_singleton.1 ht] at hkind
      cases hkind
  · have hlast : (ParseState.start g id symbols
        (significant g.lineOf (scanSource f.base source).allTokens)).tokens.getLast? = some eof := by
      rw [hstart, List.getLast?_append_of_ne_nil _ (by simp)]
      rfl
    unfold ParseState.tokens at hlast
    rw [List.getLast?_append_of_ne_nil _ (by simp)] at hlast
    exact congrArg Token.kind (Option.some.inj hlast)

end Idl
