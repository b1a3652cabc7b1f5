/-
Idl/Proofs/Token/Quoting.lean

Quoted text is read back.

A text is quoted character by character, and each character is written plainly or by one escape that
stands for it (`quotedForm`).  So both readers of literals find the text again: the reader of tokens
takes the whole literal, without a fault (`QuotedBody.read_quoted`), and `unquote?` finds the
characters that were quoted (`unquote?_quote`).

Main result: the literal is the only token of the text that it makes up (`lexSource?_quote`).
-/
import Idl.Proofs.Token.Lexer

namespace Idl

/-! ### Hexadecimal digits -/

theorem digitValue_digitChar : ∀ d < 16, digitValue 16 (Nat.digitChar d) = some d := by decide

/-- The digits of a number, and what they write: the number, as far as there are digits for it. -/
theorem hexPadded_values (count n : Nat) :
    ∃ ds, (hexPadded count n).map (digitValue 16) = ds.map some ∧
      ofDigitValues 16 ds = n % 16 ^ count := by
  induction count generalizing n with
  | zero => exact ⟨[], rfl, (Nat.mod_one n).symm⟩
  | succ k ih =>
    obtain ⟨ds, hdigits, hvalue⟩ := ih (n / 16)
    have hlast : digitValue 16 (Nat.digitChar (n % 16)) = some (n % 16) :=
      digitValue_digitChar _ (Nat.mod_lt n (by decide))
    refine ⟨ds ++ [n % 16], ?_, ?_⟩
    · rw [hexPadded, List.map_append, List.map_append, hdigits, List.map_singleton, hlast]
      rfl
    · have hpush : ofDigitValues 16 (ds ++ [n % 16]) = ofDigitValues 16 ds * 16 + n % 16 := by
        rw [ofDigitValues, List.foldl_append]
        rfl
      rw [hpush, hvalue, Nat.pow_succ', Nat.mod_mul, Nat.mul_comm, Nat.add_comm]

/-- An escape that writes a number with all its digits is read as what the number stands for. -/
theorem Escape.numeric_hexPadded {piece? : Nat → Option Piece} {count n : Nat} {p : Piece}
    (hn : n < 16 ^ count) (hp : piece? n = some p) (name : Char) (rest : List Char) :
    numeric name 1 16 count piece? (name :: hexPadded count n ++ rest) = ⟨count + 1, .ok p⟩ := by
  obtain ⟨ds, hdigits, hvalue⟩ := hexPadded_values count n
  have hlength : ds.length = count := by
    have h := congrArg List.length hdigits
    rw [List.length_map, List.length_map, length_hexPadded] at h
    exact h.symm
  have hread : leadingDigits 16 count ((name :: hexPadded count n ++ rest).drop 1) = ds :=
    leadingDigits_append hdigits (Nat.le_of_eq (length_hexPadded count n)) fun hlt =>
      absurd (length_hexPadded count n) (Nat.ne_of_lt hlt)
  unfold numeric
  simp only [hread]
  rw [hvalue, Nat.mod_eq_of_lt hn, hlength, if_neg (Nat.lt_irrefl count), hp, Nat.add_comm]

theorem isDigitIn_of_mem_hexPadded {count n : Nat} {c : Char} (h : c ∈ hexPadded count n) :
    isDigitIn 16 c = true := by
  obtain ⟨ds, hdigits, -⟩ := hexPadded_values count n
  have hmem : digitValue 16 c ∈ ds.map some := hdigits ▸ List.mem_map_of_mem h
  obtain ⟨d, -, hd⟩ := List.mem_map.1 hmem
  rw [isDigitIn, ← hd]
  rfl

/-! ### Characters -/

/-- How a character is written between double quotes: plainly, or by an escape that stands for its
bytes and holds no quote, backslash or newline behind its first character. -/
inductive QuotedForm (c : Char) : Prop
  | plain (hwritten : quotedChar c = [c]) (hplain : c ∉ ['"', '\\', '\n'])
  | escape (d : Char) (ds : List Char) (p : Piece) (hwritten : quotedChar c = '\\' :: d :: ds)
      (hline : d ≠ '\n') (hdigits : ∀ x ∈ ds, isDigitIn 16 x = true)
      (hread : ∀ rest, Escape.read '"' (d :: ds ++ rest) = ⟨(d :: ds).length, .ok p⟩)
      (hbytes : p.bytes = String.utf8EncodeChar c)

theorem quotedForm (c : Char) : QuotedForm c := by
  have hletter (d : Char) (hwritten : quotedChar c = ['\\', d]) (hline : d ≠ '\n')
      (hread : ∀ rest, Escape.read '"' (d :: rest) = ⟨1, .ok (.char c)⟩) : QuotedForm c :=
    .escape d [] (.char c) hwritten hline (List.forall_mem_nil _) hread rfl
  -- nine characters have a letter of their own; others are written by number, or plainly
  by_cases hshort : c ∈ ['"', '\\', Char.ofNat 0x07, Char.ofNat 0x08, Char.ofNat 0x0c, '\n', '\r',
      '\t', Char.ofNat 0x0b]
  · simp only [List.mem_cons, List.not_mem_nil, or_false] at hshort
    rcases hshort with rfl | rfl | rfl | rfl | rfl | rfl | rfl | rfl | rfl
    all_goals exact hletter _ rfl (by decide) fun _ => rfl
  have hlong : quotedChar c = if isControl c then
      if c.toNat < 0x80 then '\\' :: 'x' :: hexPadded 2 c.toNat
      else '\\' :: 'u' :: hexPadded 4 c.toNat
    else [c] := by
    simp only [List.mem_cons, List.not_mem_nil, or_false, not_or] at hshort
    obtain ⟨h₁, h₂, h₃, h₄, h₅, h₆, h₇, h₈, h₉⟩ := hshort
    unfold quotedChar
    rw [if_neg h₁, if_neg h₂, if_neg h₃, if_neg h₄, if_neg h₅, if_neg h₆, if_neg h₇, if_neg h₈,
      if_neg h₉]
  have hdigits (count : Nat) : ∀ x ∈ hexPadded count c.toNat, isDigitIn 16 x = true :=
    fun x hx => isDigitIn_of_mem_hexPadded hx
  by_cases hcontrol : isControl c = true
  · rw [if_pos hcontrol] at hlong
    by_cases hascii : c.toNat < 0x80
    · -- a byte of its own, since the character is one of ASCII
      rw [if_pos hascii] at hlong
      have hpiece : bytePiece? c.toNat = some (.byte (UInt8.ofNat c.toNat)) :=
        if_pos (Nat.lt_trans hascii (by decide))
      refine .escape 'x' _ (.byte (UInt8.ofNat c.toNat)) hlong (by decide) (hdigits 2)
        (fun rest => ?_) ?_
      · rw [List.length_cons, length_hexPadded]
        exact Escape.numeric_hexPadded (Nat.lt_trans hascii (by decide)) hpiece 'x' rest
      · have hone : String.utf8EncodeChar c = [UInt8.ofNat c.toNat] :=
          if_pos (Nat.le_of_lt_succ hascii)
        exact hone.symm
    · -- four digits are enough, since control characters are below `0xA0`
      rw [if_neg hascii] at hlong
      have hsmall : c.toNat < 16 ^ 4 := by
        simp only [isControl, Bool.or_eq_true, Bool.and_eq_true, decide_eq_true_eq] at hcontrol
        omega
      have hpiece : charPiece? c.toNat = some (.char c) := by
        have hvalid : c.toNat.isValidChar := c.valid
        rw [charPiece?, if_pos hvalid, Char.ofNat_toNat]
      refine .escape 'u' _ (.char c) hlong (by decide) (hdigits 4) (fun rest => ?_) rfl
      rw [List.length_cons, length_hexPadded]
      exact Escape.numeric_hexPadded hsmall hpiece 'u' rest
  · rw [if_neg hcontrol] at hlong
    refine .plain hlong fun hmem => hshort ?_
    simp only [List.mem_cons, List.not_mem_nil, or_false] at hmem
    rcases hmem with rfl | rfl | rfl <;> decide

/-! ### Texts -/

namespace QuotedBody

/-- What a quoted character is read as, in front of the rest of a body. -/
theorem read_quotedChar (c : Char) (start : Nat) (rest : List Char) :
    ∃ start', (read '"' start (quotedChar c ++ rest)).length =
        (quotedChar c).length + (read '"' start' rest).length ∧
      (read '"' start (quotedChar c ++ rest)).closed = (read '"' start' rest).closed ∧
      (read '"' start (quotedChar c ++ rest)).faults = (read '"' start' rest).faults := by
  cases quotedForm c with
  | plain hwritten hplain =>
    simp only [List.mem_cons, List.not_mem_nil, or_false, not_or] at hplain
    obtain ⟨hquote, hbackslash, hline⟩ := hplain
    rw [hwritten, List.singleton_append, read, if_neg hline, if_neg hquote, if_neg hbackslash]
    exact ⟨_, rfl, rfl, rfl⟩
  | escape d ds p hwritten hline hdigits hread hbytes =>
    -- the escape is read to its end, so reading goes on in the rest
    have hdrop : (d :: ds ++ rest).drop (d :: ds).length = rest := List.drop_left' rfl
    rw [hwritten, List.cons_append, read, if_neg (by decide), if_neg (by decide), if_pos rfl]
    simp only [hread, hdrop]
    refine ⟨_, ?_, rfl, rfl⟩
    rw [List.length_cons, Nat.add_comm 1]
    rfl

/-- The body of a quoted text is read up to the quote that closes it, without a fault. -/
theorem read_quoted (cs : List Char) (start : Nat) (rest : List Char) :
    (read '"' start (cs.flatMap quotedChar ++ '"' :: rest)).length =
        (cs.flatMap quotedChar).length + 1 ∧
      (read '"' start (cs.flatMap quotedChar ++ '"' :: rest)).closed = true ∧
      (read '"' start (cs.flatMap quotedChar ++ '"' :: rest)).faults = [] := by
  induction cs generalizing start with
  | nil =>
    rw [List.flatMap_nil, List.nil_append, read, if_neg (by decide), if_pos rfl]
    exact ⟨rfl, rfl, rfl⟩
  | cons c cs ih =>
    obtain ⟨start', hlength, hclosed, hfaults⟩ :=
      read_quotedChar c start (cs.flatMap quotedChar ++ '"' :: rest)
    obtain ⟨ihlength, ihclosed, ihfaults⟩ := ih start'
    rw [List.flatMap_cons, List.append_assoc, hlength, hclosed, hfaults, ihlength, ihclosed,
      ihfaults, List.length_append, Nat.add_assoc]
    exact ⟨rfl, rfl, rfl⟩

end QuotedBody

/-- The pieces of a quoted character are one that has its bytes. -/
theorem readPieces_quotedChar (c : Char) (rest : List Char) :
    ∃ p : Piece, p.bytes = String.utf8EncodeChar c ∧
      readPieces '"' (quotedChar c ++ rest) = p :: readPieces '"' rest := by
  cases quotedForm c with
  | plain hwritten hplain =>
    simp only [List.mem_cons, List.not_mem_nil, or_false, not_or] at hplain
    obtain ⟨hquote, hbackslash, hline⟩ := hplain
    refine ⟨.char c, rfl, ?_⟩
    rw [hwritten, List.singleton_append, readPieces, if_neg hline, if_neg hquote, if_neg hbackslash]
  | escape d ds p hwritten hline hdigits hread hbytes =>
    have hdrop : (d :: ds ++ rest).drop (d :: ds).length = rest := List.drop_left' rfl
    refine ⟨p, hbytes, ?_⟩
    rw [hwritten, List.cons_append, readPieces, if_neg (by decide), if_neg (by decide), if_pos rfl,
      hread, hdrop]
    rfl

/-- A quoted text stands for its own bytes. -/
theorem bytes_readPieces_quoted (cs rest : List Char) :
    (readPieces '"' (cs.flatMap quotedChar ++ '"' :: rest)).flatMap Piece.bytes = utf8 cs := by
  induction cs with
  | nil =>
    rw [List.flatMap_nil, List.nil_append, readPieces, if_neg (by decide), if_pos rfl]
    rfl
  | cons c cs ih =>
    obtain ⟨p, hbytes, hpieces⟩ := readPieces_quotedChar c (cs.flatMap quotedChar ++ '"' :: rest)
    rw [List.flatMap_cons, List.append_assoc, hpieces, List.flatMap_cons, hbytes, ih, utf8_cons]

theorem ofUtf8?_utf8 (cs : List Char) : ofUtf8? (utf8 cs) = some (String.ofList cs) := by
  unfold ofUtf8? String.fromUTF8?
  rw [dif_pos (isValidUTF8_utf8 cs)]
  rfl

theorem toList_quote (text : String) :
    (quote text).toList = '"' :: (text.toList.flatMap quotedChar ++ ['"']) := by
  rw [quote, String.toList_ofList]
  rfl

/-- **Quoting is undone by unquoting.** -/
theorem unquote?_quote (text : String) : unquote? (quote text) = some text := by
  obtain ⟨hlength, hclosed, hfaults⟩ := QuotedBody.read_quoted text.toList 1 []
  have hall : (text.toList.flatMap quotedChar ++ ['"']).take
      (QuotedBody.read '"' 1 (text.toList.flatMap quotedChar ++ ['"'])).length =
        text.toList.flatMap quotedChar ++ ['"'] := by
    rw [hlength]
    exact List.take_of_length_le (Nat.le_of_eq List.length_append)
  have hdouble : IsQuote '"' := .inl rfl
  have hread := unquote?_quoted hdouble (text.toList.flatMap quotedChar ++ ['"'])
  dsimp only at hread
  rw [hall, if_pos ⟨hclosed, hfaults, nofun⟩, bytes_readPieces_quoted, ofUtf8?_utf8,
    String.ofList_toList] at hread
  exact hread

/-! ### Tokens -/

/-- A quoted text is a string literal, whatever follows it. -/
theorem scan_quoted (cs rest : List Char) :
    scan '"' (cs.flatMap quotedChar ++ '"' :: rest) =
      ⟨.string, (cs.flatMap quotedChar).length + 1, []⟩ := by
  obtain ⟨hlength, hclosed, hfaults⟩ := QuotedBody.read_quoted cs 1 rest
  have hscan : scan '"' (cs.flatMap quotedChar ++ '"' :: rest) =
      scanString (cs.flatMap quotedChar ++ '"' :: rest) := rfl
  rw [hscan, scanString, hlength, hclosed, hfaults]
  rfl

/-- No newline stands in a quoted text. -/
theorem newline_not_mem_quoted (cs : List Char) : '\n' ∉ cs.flatMap quotedChar := by
  intro hmem
  obtain ⟨c, -, hc⟩ := List.mem_flatMap.1 hmem
  cases quotedForm c with
  | plain hwritten hplain =>
    rw [hwritten, List.mem_singleton] at hc
    exact hplain (hc ▸ by decide)
  | escape d ds p hwritten hline hdigits hread hbytes =>
    rw [hwritten] at hc
    rcases List.mem_cons.1 hc with hc | hc
    · cases hc
    rcases List.mem_cons.1 hc with hc | hc
    · exact hline hc.symm
    · exact absurd (hdigits _ hc) (by decide)

/-- A quoted text is lexed to a single token, in which nothing is wrong, however long it is. -/
theorem lexSource?_quote (base : UInt32) (text : String) :
    ∃ s, lexSource? base (quote text) = some s ∧ s.errors = [] ∧
      s.tokens.map (·.token) = [⟨.string, quote text,
        ⟨base.toNat, (base + (quote text).utf8ByteSize.toUInt32).toNat⟩⟩] := by
  let l : Lexer := ⟨quote text, base⟩
  let body := text.toList.flatMap quotedChar ++ ['"']
  have hsource : l.source.toList = [] ++ '"' :: body := toList_quote text
  have hscan : scan '"' body = ⟨.string, body.length, []⟩ := by
    have hlength : body.length = (text.toList.flatMap quotedChar).length + 1 := List.length_append
    rw [hlength]
    exact scan_quoted text.toList []
  have hsize : byteWidth ('"' :: body) = (quote text).utf8ByteSize := by
    rw [utf8ByteSize_eq, toList_quote]
  have hkind : (scan '"' body).kind ∈ [.int, .string, .illegal] := by
    rw [hscan]
    exact List.mem_cons_of_mem _ List.mem_cons_self
  have htoken := Lexer.token?_anew hsource rfl rfl hkind (by rw [hscan])
  rw [hscan, hsize] at htoken
  have htokens : l.tokens? 0 (quote text).toList =
      some [⟨⟨.string, quote text, l.span 0 (quote text).utf8ByteSize⟩, []⟩] := by
    have hquote : (quote text).toList = '"' :: body := hsource
    have hstart : 0 = byteWidth [] := rfl
    rw [hquote, Lexer.tokens?, if_neg (by decide), hstart, htoken, hscan, List.drop_length,
      Lexer.tokens?]
    rfl
  have hspan : l.span 0 (quote text).utf8ByteSize =
      ⟨base.toNat, (base + (quote text).utf8ByteSize.toUInt32).toNat⟩ := by
    show (⟨(base + 0).toNat, _⟩ : Span) = _
    rw [UInt32.add_zero]
  have hlex : lexSource? base (quote text) = some {
      tokens := [⟨⟨.string, quote text, l.span 0 (quote text).utf8ByteSize⟩, []⟩]
      eof := ⟨.eof, "", l.span (quote text).utf8ByteSize (quote text).utf8ByteSize⟩
      lineStarts := (lineStartsRead 0 (quote text).toList).map (·.toUInt32.toNat) } := by
    unfold lexSource?
    dsimp only
    rw [htokens]
    rfl
  exact ⟨_, hlex, rfl, by rw [← hspan]; rfl⟩

end Idl
