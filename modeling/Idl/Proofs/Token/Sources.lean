/-
Idl/Proofs/Token/Sources.lean

What the lexer says of a source.

As long as all positions of a source are words of 32 bits, the lexer reads it as `scanSource` does, so
nothing of the source is lost (`lexSource?_lossless`), literals are read alike by lexer and decoder
(`literals_agree`), reports and tokens correspond (`errors_correspond`), tokens are local and maximal
(`tokens_local`), and integers have the values that they denote (`integers_valued`).

None of this goes on behind the offset `2 ^ 32`.  Each statement is followed by a source of 4 GB and a
few bytes in which it fails.  No such source is ever registered as a file.
-/
import Idl.Proofs.Token.Lexer
import Idl.Proofs.Token.Locality
import Idl.Proofs.Token.Lossless

namespace Idl

/-- What a source says about its tokens, it says about the tokens that the lexer reads. -/
theorem exists_lexSource? {base : UInt32} {source : String}
    (h : base.toNat + source.utf8ByteSize < positionBound) {P : Scanned → Prop}
    (hscan : P (scanSource base.toNat source)) : ∃ s, lexSource? base source = some s ∧ P s :=
  ⟨_, lexSource?_eq h, hscan⟩

/-! ### Everything is there -/

/-- **Reading tokens loses nothing.**  The tokens of a source of less than 4 GB give its bytes back. -/
theorem lexSource?_lossless (source : String) (h : source.utf8ByteSize < positionBound) :
    ∃ s, lexSource? 0 source = some s ∧ Lossless (bytesOf source) s.allTokens := by
  have hroom : (0 : UInt32).toNat + source.utf8ByteSize < positionBound :=
    (Nat.zero_add _).symm ▸ h
  exact exists_lexSource? hroom (scanSource_lossless source)

/-- A token, a line comment that loses a carriage return, and text that is no token. -/
theorem lexSource?_lossless_comment :
    let source := "a // b\r\n%"
    source.utf8ByteSize < positionBound ∧ ∃ s, lexSource? 0 source = some s ∧
      s.allTokens = [⟨.ident, "a", ⟨0, 1⟩⟩, ⟨.comment, "// b", ⟨2, 7⟩⟩, ⟨.illegal, "%", ⟨8, 9⟩⟩,
        ⟨.eof, "", ⟨9, 9⟩⟩] ∧
      Lossless (bytesOf source) s.allTokens := by
  intro source
  have hsize : source.utf8ByteSize < positionBound := by decide
  obtain ⟨s, hs, hlossless⟩ := lexSource?_lossless source hsize
  have hscan : s = scanSource 0 source := Option.some.inj (hs.symm.trans (lexSource?_eq hsize))
  refine ⟨hsize, s, hs, ?_, hlossless⟩
  rw [hscan]
  with_unfolding_all decide

/-- The integer `1` behind 4 GB of blanks, as the lexer reads it. -/
theorem lexSource?_one : ∃ s, lexSource? 0 (behindBlanks "1") = some s ∧ s.errors = [] ∧
    s.allTokens = [⟨.int, behindBlanks "1", ⟨0, 1⟩⟩, ⟨.eof, "", ⟨1, 1⟩⟩] := by
  have hscan : (scan '1' []).kind = .int ∧ (scan '1' []).more = 0 ∧ (scan '1' []).faults = [] := by
    decide
  obtain ⟨s, hs, herrors, htokens⟩ := @lexSource?_behindBlanks "1" '1' []
    rfl rfl (hscan.1 ▸ by decide) hscan.2.1 hscan.2.2 rfl (by decide)
  rw [hscan.1] at htokens
  exact ⟨s, hs, herrors, htokens⟩

/-- Where offsets start anew, the end of the file is not behind the last byte. -/
theorem lexSource?_not_lossless : ∃ s, lexSource? 0 (behindBlanks "1") = some s ∧
    ¬ Lossless (bytesOf (behindBlanks "1")) s.allTokens := by
  obtain ⟨s, hs, -, htokens⟩ := lexSource?_one
  have hlength : (bytesOf (behindBlanks "1")).length = positionBound + 1 := by
    rw [bytesOf_eq, length_utf8, ← utf8ByteSize_eq, utf8ByteSize_behindBlanks]
    rfl
  refine ⟨s, hs, fun hlossless => ?_⟩
  have hlast := hlossless.last
  rw [htokens, hlength] at hlast
  have hstop : (⟨1, 1⟩ : Span) = ⟨positionBound + 1, positionBound + 1⟩ :=
    congrArg Token.span (Option.some.inj hlast)
  exact absurd hstop (by decide)

/-! ### Literals -/

/-- **Both readers agree on literals.**  A literal of a source whose positions are words stands for
something just where nothing is reported inside of it and the bytes of its characters and escapes form a
text. -/
theorem literals_agree (base : UInt32) (source : String)
    (h : base.toNat + source.utf8ByteSize < positionBound) :
    ∃ s, lexSource? base source = some s ∧
      ∀ t ∈ s.allTokens, t.kind = .string ∨ t.kind = .char →
        ((unquote? t.text).isSome = true ↔
          (∀ e ∈ s.errors, t.span.contains e.span = false) ∧
            (literalBytes t.text).toByteArray.IsValidUTF8) :=
  exists_lexSource? h fun t ht hkind => unquote?_isSome_iff base.toNat source t ht hkind

/-- The escape in this literal is a byte that forms no text, and nothing is reported. -/
theorem literals_agree_strayByte :
    let source := "\"\\377\""
    let t : Token := ⟨.string, source, ⟨1, 7⟩⟩
    (1 : UInt32).toNat + source.utf8ByteSize < positionBound ∧
      ∃ s, lexSource? 1 source = some s ∧ t ∈ s.allTokens ∧ s.errors = [] ∧
        literalBytes t.text = [255] ∧
        ((unquote? t.text).isSome = true ↔
          (∀ e ∈ s.errors, t.span.contains e.span = false) ∧
            (literalBytes t.text).toByteArray.IsValidUTF8) := by
  intro source t
  have hroom : (1 : UInt32).toNat + source.utf8ByteSize < positionBound := by decide
  obtain ⟨s, hs, hagree⟩ := literals_agree 1 source hroom
  have hscan : s = scanSource 1 source := Option.some.inj (hs.symm.trans (lexSource?_eq hroom))
  have ht : t ∈ s.allTokens := by
    rw [hscan]
    with_unfolding_all decide
  have herrors : s.errors = [] := by
    rw [hscan]
    with_unfolding_all decide
  exact ⟨hroom, s, hs, ht, herrors, by with_unfolding_all decide, hagree t ht (.inl rfl)⟩

/-- A text that starts with two blanks is no literal, and nothing is decoded from it. -/
theorem unquote?_blanks {raw : String} {cs : List Char} (h : raw.toList = ' ' :: ' ' :: cs) :
    unquote? raw = none ∧ literalBytes raw = [] := by
  have hquote : ¬ ((' ' = '"' ∨ ' ' = '\'' ∨ ' ' = backQuote) ∧
      (' ' :: cs).getLast? = some ' ') := by
    rintro ⟨hquote, -⟩
    revert hquote
    decide
  constructor
  · unfold unquote?
    rw [h]
    exact if_neg hquote
  · unfold literalBytes
    rw [h]
    dsimp only
    rw [if_neg (by decide), readPieces, if_neg (by decide), if_pos rfl]
    rfl

/-- Where offsets start anew, the text of a literal starts in front of its quote, and stands for
nothing although nothing is reported. -/
theorem literals_disagree : ∃ s t, lexSource? 0 (behindBlanks "\"\"") = some s ∧
    t ∈ s.allTokens ∧ t.kind = .string ∧ s.errors = [] ∧
      (literalBytes t.text).toByteArray.IsValidUTF8 ∧ unquote? t.text = none := by
  have hscan : (scan '"' ['"']).kind = .string ∧ (scan '"' ['"']).more = 1 ∧
      (scan '"' ['"']).faults = [] := by with_unfolding_all decide
  obtain ⟨s, hs, herrors, htokens⟩ := @lexSource?_behindBlanks "\"\"" '"'
    ['"'] rfl rfl (hscan.1 ▸ by decide) hscan.2.1 hscan.2.2 rfl (by decide)
  rw [hscan.1] at htokens
  obtain ⟨hnone, hbytes⟩ := unquote?_blanks (toList_behindBlanks_cons "\"\"")
  refine ⟨s, ⟨.string, behindBlanks "\"\"", ⟨0, "\"\"".utf8ByteSize⟩⟩, hs, ?_, rfl, herrors, ?_, hnone⟩
  · rw [htokens]
    exact List.mem_cons_self
  · rw [hbytes]
    exact isValidUTF8_utf8 []

/-! ### Reports -/

/-- **Reports and tokens correspond.**  Every report of a source whose positions are words covers
something and lies in one token, the reports stand in the order of their tokens, and illegal text has
one report, which covers all of it and says what is wrong with it. -/
theorem errors_correspond (base : UInt32) (source : String)
    (h : base.toNat + source.utf8ByteSize < positionBound) :
    ∃ s, lexSource? base source = some s ∧
      (∀ e ∈ s.errors, e.span.start < e.span.stop ∧
        ∃ t, s.allTokens.filter (fun t => t.span.contains e.span) = [t]) ∧
      s.errors = s.allTokens.flatMap s.errorsIn ∧
      ∀ t ∈ s.allTokens, t.kind = .illegal → ∃ k, s.errorsIn t = [⟨k, t.span⟩] ∧
        ∀ k', IllegalText base.toNat source.toList t.span k' ↔ k' = k :=
  exists_lexSource? h (errors_of_tokens base.toNat source)

/-- A character that starts no token, and a comment that nothing closes. -/
theorem errors_correspond_illegal :
    let source := "x % /* y"
    let character : Token := ⟨.illegal, "%", ⟨3, 4⟩⟩
    let comment : Token := ⟨.illegal, "/* y", ⟨5, 9⟩⟩
    (1 : UInt32).toNat + source.utf8ByteSize < positionBound ∧
      ∃ s, lexSource? 1 source = some s ∧ (character ∈ s.allTokens ∧ comment ∈ s.allTokens) ∧
        s.errors = [⟨.unexpectedCharacter '%', character.span⟩,
          ⟨.unterminatedComment, comment.span⟩] ∧
        ∀ t ∈ [character, comment], ∃ k, s.errorsIn t = [⟨k, t.span⟩] ∧
          ∀ k', IllegalText 1 source.toList t.span k' ↔ k' = k := by
  intro source character comment
  have hroom : (1 : UInt32).toNat + source.utf8ByteSize < positionBound := by decide
  obtain ⟨s, hs, -, -, hillegal⟩ := errors_correspond 1 source hroom
  have hscan : s = scanSource 1 source := Option.some.inj (hs.symm.trans (lexSource?_eq hroom))
  have hmem : character ∈ s.allTokens ∧ comment ∈ s.allTokens := by
    rw [hscan]
    with_unfolding_all decide
  have herrors : s.errors = [⟨.unexpectedCharacter '%', character.span⟩,
      ⟨.unterminatedComment, comment.span⟩] := by
    rw [hscan]
    with_unfolding_all decide
  exact ⟨hroom, s, hs, hmem, herrors, List.forall_mem_cons.2 ⟨hillegal character hmem.1 rfl,
    List.forall_mem_singleton.2 (hillegal comment hmem.2 rfl)⟩⟩

/-- Two illegal characters, between which there are so many blanks that offsets start anew. -/
def farMarks : String :=
  String.ofList ('?' :: (List.replicate (positionBound - 1) ' ' ++ ['?']))

/-- No token starts with a question mark. -/
theorem scan_questionMark (cs : List Char) : scan '?' cs =
    { kind := .illegal, more := 0, faults := [⟨.unexpectedCharacter '?', ⟨0, 1⟩⟩] } := by
  refine scan_illegal fun hstarts => ?_
  cases hstarts with
  | word hc => exact absurd hc (by decide)
  | number hc =>
    rcases hc with hc | ⟨hc, -⟩
    · exact absurd hc (by decide)
    · exact absurd hc (by decide)
  | literal hc => exact absurd hc (by decide)
  | comment hc hnext => exact absurd hc (by decide)
  | mark p hc => exact absurd hc (by cases p <;> decide)

theorem toList_farMarks :
    farMarks.toList = '?' :: (List.replicate (positionBound - 1) ' ' ++ ['?']) :=
  String.toList_ofList

/-- What is read at either mark: the spans are the same. -/
def markRead (text : String) : ScannedToken :=
  ⟨⟨.illegal, text, ⟨0, 1⟩⟩, [⟨.unexpectedCharacter '?', ⟨0, 1⟩⟩]⟩

theorem token?_firstMark : Lexer.token? ⟨farMarks, 0⟩ 0 '?'
    (List.replicate (positionBound - 1) ' ' ++ ['?']) = some (markRead "?") := by
  have htext : Lexer.text? ⟨farMarks, 0⟩ 0 (0 + byteWidth ['?']) = some "?" :=
    @slice?_split _ [] ['?'] _ toList_farMarks
  unfold Lexer.token?
  rw [scan_questionMark]
  dsimp only
  rw [List.take_zero, htext]
  rfl

/-- The last mark stands where offsets start anew. -/
theorem token?_lastMark :
    Lexer.token? ⟨farMarks, 0⟩ positionBound '?' [] = some (markRead farMarks) := by
  have hbefore : byteWidth ('?' :: List.replicate (positionBound - 1) ' ') = positionBound := by
    rw [byteWidth_cons, byteWidth_blanks]
    rfl
  have hsource : farMarks.toList =
      ('?' :: List.replicate (positionBound - 1) ' ') ++ ['?'] := toList_farMarks
  have htoken := @Lexer.token?_anew ⟨farMarks, 0⟩ _ _ [] '?' hsource hbefore rfl
    (by rw [scan_questionMark]; decide) (by rw [scan_questionMark]; rfl)
  rw [scan_questionMark] at htoken
  exact htoken

theorem tokens?_farMarks : Lexer.tokens? ⟨farMarks, 0⟩ 0 farMarks.toList =
    some [markRead "?", markRead farMarks] := by
  have hfirst : 0 + byteWidth ['?'] = 1 := rfl
  have hlast : 1 + (positionBound - 1) = positionBound := by decide
  rw [toList_farMarks, Lexer.tokens?, if_neg (by decide), token?_firstMark, scan_questionMark]
  dsimp only
  rw [List.take_zero, List.drop_zero, hfirst, Lexer.tokens?_blanks, hlast, Lexer.tokens?,
    if_neg (by decide), token?_lastMark, scan_questionMark, List.drop_nil, Lexer.tokens?]
  rfl

theorem utf8ByteSize_farMarks : farMarks.utf8ByteSize = positionBound + 1 := by
  rw [utf8ByteSize_eq, toList_farMarks, byteWidth_cons, byteWidth_append, byteWidth_blanks]
  rfl

/-- Where offsets start anew, a report lies in the spans of two tokens. -/
theorem errors_ambiguous : ∃ s e t u, lexSource? 0 farMarks = some s ∧ e ∈ s.errors ∧
    s.allTokens.filter (fun t => t.span.contains e.span) = [t, u] := by
  have heof : Lexer.span ⟨farMarks, 0⟩ farMarks.utf8ByteSize farMarks.utf8ByteSize = ⟨1, 1⟩ := by
    rw [utf8ByteSize_farMarks, Lexer.span, toUInt32_bound_add]
    rfl
  exact ⟨_, ⟨.unexpectedCharacter '?', ⟨0, 1⟩⟩, _, _,
    lexSource?_of_tokens tokens?_farMarks (by rw [heof]), List.mem_cons_self, rfl⟩

/-! ### Tokens on their own -/

/-- **Tokens are local and maximal.**  The part that a token covers, of a source whose positions are
words, is read alone as one token of the same kind and text.  No letter, digit or underscore follows a
word, and no digit of its base follows an integer. -/
theorem tokens_local (base : UInt32) (source : String)
    (h : base.toNat + source.utf8ByteSize < positionBound) :
    ∃ s, lexSource? base source = some s ∧ ∀ t ∈ s.allTokens, t.kind ≠ .eof →
      ∃ before slice after, Covers base.toNat source.toList t.span before slice after ∧
        (∀ base' : UInt32, base'.toNat + byteWidth slice < positionBound →
          ∃ s', lexSource? base' (String.ofList slice) = some s' ∧ s'.allTokens =
            [{ t with span := ⟨base'.toNat, base'.toNat + byteWidth slice⟩ },
              ⟨.eof, "", Span.ofPos (base'.toNat + byteWidth slice)⟩]) ∧
        (t.kind = .ident ∨ (∃ k, t.kind = .keyword k) →
          ∀ d ∈ after.head?, isLetter d = false ∧ isNumeral d = false ∧ d ≠ '_') ∧
        (t.kind = .int → ∀ d ∈ after.head?, isDigitIn (scanRadix slice) d = false) := by
  refine exists_lexSource? h fun t ht hkind => ?_
  obtain ⟨before, slice, after, hcovers, halone, hword, hint⟩ :=
    token_read_alone base.toNat source t ht hkind
  refine ⟨before, slice, after, hcovers, fun base' hroom => ?_, hword, hint⟩
  have hsize : base'.toNat + (String.ofList slice).utf8ByteSize < positionBound := by
    rw [utf8ByteSize_eq, String.toList_ofList]
    exact hroom
  exact exists_lexSource? hsize (halone base'.toNat)

/-- A literal that its line cuts off behind a backslash. -/
theorem tokens_local_cutOff :
    let source := "\"\\\n0xg"
    let t : Token := ⟨.string, "\"\\", ⟨1, 3⟩⟩
    (1 : UInt32).toNat + source.utf8ByteSize < positionBound ∧
      ∃ s, lexSource? 1 source = some s ∧ t ∈ s.allTokens ∧ t.kind ≠ .eof ∧
        ∃ before slice after, Covers 1 source.toList t.span before slice after ∧
          ∀ base' : UInt32, base'.toNat + byteWidth slice < positionBound →
            ∃ s', lexSource? base' (String.ofList slice) = some s' ∧ s'.allTokens =
              [{ t with span := ⟨base'.toNat, base'.toNat + byteWidth slice⟩ },
                ⟨.eof, "", Span.ofPos (base'.toNat + byteWidth slice)⟩] := by
  intro source t
  have hroom : (1 : UInt32).toNat + source.utf8ByteSize < positionBound := by decide
  obtain ⟨s, hs, hlocal⟩ := tokens_local 1 source hroom
  have hscan : s = scanSource 1 source := Option.some.inj (hs.symm.trans (lexSource?_eq hroom))
  have ht : t ∈ s.allTokens := by
    rw [hscan]
    with_unfolding_all decide
  have hkind : t.kind ≠ .eof := by decide
  obtain ⟨before, slice, after, hcovers, halone, -⟩ := hlocal t ht hkind
  exact ⟨hroom, s, hs, ht, hkind, before, slice, after, hcovers, halone⟩

/-- Where offsets start anew, the span of a token covers something else. -/
theorem tokens_not_local : ∃ s t, lexSource? 0 (behindBlanks "1") = some s ∧
    t ∈ s.allTokens ∧ t.kind = .int ∧ ∀ before slice after,
      Covers 0 (behindBlanks "1").toList t.span before slice after →
        ∃ s', lexSource? 0 (String.ofList slice) = some s' ∧
          s'.allTokens = [⟨.eof, "", ⟨1, 1⟩⟩] := by
  obtain ⟨s, hs, -, htokens⟩ := lexSource?_one
  refine ⟨s, ⟨.int, behindBlanks "1", ⟨0, 1⟩⟩, hs, ?_, rfl, ?_⟩
  · rw [htokens]
    exact List.mem_cons_self
  · rintro before slice after ⟨hsource, hspan⟩
    have hbefore : byteWidth ([] : List Char) = byteWidth before := by
      have hstart : 0 = 0 + byteWidth before := congrArg Span.start hspan
      exact hstart.trans (Nat.zero_add _)
    have hslice : byteWidth [' '] = byteWidth slice := by
      have hstop : 1 = 0 + byteWidth (before ++ slice) := congrArg Span.stop hspan
      rw [byteWidth_append, ← hbefore, byteWidth_nil, Nat.zero_add, Nat.zero_add] at hstop
      exact hstop
    rw [toList_behindBlanks_cons, List.append_assoc] at hsource
    obtain ⟨rfl, hrest⟩ := @append_inj_of_byteWidth [] _ _ _ hsource hbefore
    obtain ⟨rfl, -⟩ := @append_inj_of_byteWidth [' '] _ _ _ hrest hslice
    have hroom : (0 : UInt32).toNat + (String.ofList [' ']).utf8ByteSize < positionBound := by
      decide
    exact exists_lexSource? hroom (by with_unfolding_all decide)

/-! ### Integers -/

/-- **Integer tokens have the value they denote.**  An integer of a source whose positions are words, in
which nothing is reported, denotes one number, and has it as its value, as long as it is below `2 ^ 64`.
One in which something is reported denotes nothing and has no value. -/
theorem integers_valued (base : UInt32) (source : String)
    (h : base.toNat + source.utf8ByteSize < positionBound) :
    ∃ s, lexSource? base source = some s ∧ ∀ t ∈ s.allTokens, t.kind = .int →
      ((∀ e ∈ s.errors, t.span.contains e.span = false) →
        ∃ n, (∀ m, DenotesInt t.text.toList m ↔ m = n) ∧
          (intLiteral? t.text).map UInt64.toNat = if n < 2 ^ 64 then some n else none) ∧
      ((∃ e ∈ s.errors, t.span.contains e.span = true) →
        (∀ m, ¬ DenotesInt t.text.toList m) ∧ intLiteral? t.text = none) :=
  exists_lexSource? h fun t ht hkind => intLiteral?_token base.toNat source t ht hkind

/-- The first integer denotes 31, and behind the zero of the second stands an eight. -/
theorem integers_valued_eight :
    let source := "0X1f 08"
    let hex : Token := ⟨.int, "0X1f", ⟨1, 5⟩⟩
    let octal : Token := ⟨.int, "08", ⟨6, 8⟩⟩
    (1 : UInt32).toNat + source.utf8ByteSize < positionBound ∧
      ∃ s, lexSource? 1 source = some s ∧
        (hex ∈ s.allTokens ∧ hex.kind = .int ∧ octal ∈ s.allTokens ∧ octal.kind = .int) ∧
        (∃ n, (∀ m, DenotesInt hex.text.toList m ↔ m = n) ∧
          (intLiteral? hex.text).map UInt64.toNat = if n < 2 ^ 64 then some n else none) ∧
        (intLiteral? hex.text).map UInt64.toNat = some 31 ∧
        (∀ m, ¬ DenotesInt octal.text.toList m) ∧ intLiteral? octal.text = none := by
  intro source hex octal
  have hroom : (1 : UInt32).toNat + source.utf8ByteSize < positionBound := by decide
  obtain ⟨s, hs, hvalued⟩ := integers_valued 1 source hroom
  have hscan : s = scanSource 1 source := Option.some.inj (hs.symm.trans (lexSource?_eq hroom))
  have hmem : hex ∈ s.allTokens ∧ octal ∈ s.allTokens := by
    rw [hscan]
    with_unfolding_all decide
  have hclear : ∀ e ∈ s.errors, hex.span.contains e.span = false := by
    rw [hscan]
    with_unfolding_all decide
  have herror : ∃ e ∈ s.errors, octal.span.contains e.span = true := by
    rw [hscan]
    with_unfolding_all decide
  exact ⟨hroom, s, hs, ⟨hmem.1, rfl, hmem.2, rfl⟩, (hvalued hex hmem.1 rfl).1 hclear,
    by decide, (hvalued octal hmem.2 rfl).2 herror⟩

/-- Where offsets start anew, the text of an integer starts in front of its digits, and denotes nothing
although nothing is reported. -/
theorem integers_unvalued : ∃ s t, lexSource? 0 (behindBlanks "1") = some s ∧
    t ∈ s.allTokens ∧ t.kind = .int ∧ s.errors = [] ∧
      (∀ m, ¬ DenotesInt t.text.toList m) ∧ intLiteral? t.text = none := by
  obtain ⟨s, hs, herrors, htokens⟩ := lexSource?_one
  have hnone (m : Nat) : ¬ DenotesInt (behindBlanks "1").toList m := by
    rw [toList_behindBlanks_cons]
    intro h
    cases h with
    | decimal hlead h => exact absurd (h.isDigitIn List.mem_cons_self) (by decide)
  have hplus : '+' ∉ (behindBlanks "1").toList := by
    rw [toList_behindBlanks, List.mem_append, List.mem_replicate]
    rintro (⟨-, h⟩ | h)
    · exact absurd h (by decide)
    · exact absurd h (by decide)
  refine ⟨s, ⟨.int, behindBlanks "1", ⟨0, 1⟩⟩, hs, ?_, rfl, herrors, hnone, ?_⟩
  · rw [htokens]
    exact List.mem_cons_self
  · refine Option.eq_none_iff_forall_ne_some.2 fun v hv => ?_
    exact hnone _ ((intLiteral?_eq_some hplus).1 hv)

end Idl
