/-
Idl/Proofs/Token/Lexer.lean

Positions of 32 bits.

A token is taken out of its source where it is spelled (`slice?_split`), and while all positions are words
of 32 bits nothing is wrapped on the way, so that the lexer reads what `scanSource` says
(`lexSource?_eq`).  That is so for every source that is registered as a file (`lexSource?_registered`).

In a longer source the lexer goes astray.  `behindBlanks` is a text behind so many blanks that the
offsets start anew, and `lexSource?_behindBlanks` says what is read there.
-/
import Idl.FileSet
import Idl.Proofs.Token.Integers
import Idl.Proofs.Token.Lines
import Idl.Proofs.Token.Literals
import Idl.Token.Lexer
import Mathlib.Data.String.Basic

namespace Idl

/-! ### Parts of a source -/

theorem utf8Len_eq_byteWidth (cs : List Char) : String.utf8Len cs = byteWidth cs := by
  induction cs with
  | nil => rfl
  | cons c cs ih => rw [String.utf8Len_cons, ih, byteWidth_cons, Nat.add_comm]

/-- The end of a part in front is between characters. -/
theorem isValid_byteWidth {source : String} {before after : List Char}
    (h : source.toList = before ++ after) :
    String.Pos.Raw.isValid source ⟨byteWidth before⟩ = true := by
  rw [String.Pos.Raw.isValid_eq_true_iff, String.Pos.Raw.isValid_iff_exists_append]
  refine ⟨String.ofList before, String.ofList after, ?_, ?_⟩
  · rw [← String.ofList_append, ← h, String.ofList_toList]
  · rw [String.Pos.Raw.ext_iff]
    show _ = (String.ofList before).utf8ByteSize
    rw [utf8ByteSize_eq, String.toList_ofList]

/-- Where a source is split in three, the middle is the part between its offsets. -/
theorem slice?_split {source : String} {before cs after : List Char}
    (h : source.toList = before ++ cs ++ after) :
    slice? source (byteWidth before) (byteWidth (before ++ cs)) = some (String.ofList cs) := by
  have hstart : String.Pos.Raw.isValid source ⟨byteWidth before⟩ = true :=
    isValid_byteWidth (h.trans (List.append_assoc ..))
  have hstop : String.Pos.Raw.isValid source ⟨byteWidth (before ++ cs)⟩ = true :=
    isValid_byteWidth h
  have hle : byteWidth before ≤ byteWidth (before ++ cs) := by
    rw [byteWidth_append]
    exact Nat.le_add_right ..
  have hpart := String.extract_of_valid before cs after
  rw [← h, String.ofList_toList, utf8Len_eq_byteWidth, utf8Len_eq_byteWidth,
    ← byteWidth_append] at hpart
  rw [slice?, if_pos ⟨hle, hstart, hstop⟩, hpart]

/-! ### Offsets as words -/

theorem toUInt32_inj {m n : Nat} (hm : m < positionBound) (hn : n < positionBound) :
    m.toUInt32 = n.toUInt32 ↔ m = n := by
  rw [← UInt32.toNat_inj, toNat_toUInt32 hm, toNat_toUInt32 hn]

namespace Lexer

variable {l : Lexer} {start stop : Nat}

theorem toNat_base_add {n : Nat} (h : l.base.toNat + n < positionBound) :
    (l.base + n.toUInt32).toNat = l.base.toNat + n := by
  have hn : n < positionBound := Nat.lt_of_le_of_lt (Nat.le_add_left ..) h
  rw [UInt32.toNat_add, toNat_toUInt32 hn]
  exact Nat.mod_eq_of_lt h

/-- No span is wrapped that ends at a word. -/
theorem span_eq (hle : start ≤ stop) (h : l.base.toNat + stop < positionBound) :
    l.span start stop = ⟨l.base.toNat + start, l.base.toNat + stop⟩ := by
  have hstart : l.base.toNat + start < positionBound :=
    Nat.lt_of_le_of_lt (Nat.add_le_add_left hle _) h
  rw [span, toNat_base_add hstart, toNat_base_add h]

/-! ### Kinds and faults -/

/-- A word is a keyword by its whole spelling. -/
theorem kindOf_spelling {c : Char} {cs : List Char} {kind : TokenKind}
    (hkind : (scan c cs).kind = kind) :
    kindOf kind (String.ofList (c :: cs.take (scan c cs).more)) = kind := by
  have hword (hscan : scan c cs = scanWord c cs) :
      wordKind (String.ofList (c :: cs.take (scan c cs).more)) = kind := by
    rw [← hkind, hscan]
    show wordKind (String.ofList (c :: cs.take (runLength isIdentContinue cs))) = _
    rw [take_runLength]
    rfl
  cases kindForm hkind with
  | ident hscan => exact hword hscan
  | keyword k hscan => exact hword hscan
  | _ => rfl

theorem isHexadecimal_iff (cs : List Char) : isHexadecimal cs = true ↔ IsHexadecimal cs := by
  unfold isHexadecimal IsHexadecimal IsRadixLetter
  split
  · simp
  · next hne =>
    refine iff_of_false Bool.false_ne_true ?_
    rintro ⟨hzero, x, hx, -⟩
    obtain ⟨tail, rfl⟩ := List.head?_eq_some_iff.1 hzero
    obtain ⟨ds, rfl⟩ := List.head?_eq_some_iff.1 hx
    exact hne x ds rfl

theorem IsRadixLetter.utf8Size_eq {x : Char} (h : IsRadixLetter x) : x.utf8Size = 1 := by
  rcases h with rfl | rfl <;> rfl

/-- A hexadecimal number ends where its prefix ends just if it has no digits. -/
theorem hexadecimal_fault {x : Char} (hx : IsRadixLetter x) (ds : List Char) {n : Nat}
    (hn : n = byteWidth ('0' :: x :: ds.takeWhile (isDigitIn 16)))
    (h : start + n < positionBound) (text : List Char) :
    (scanNumber ('0' :: x :: ds)).faults = ((intFault? start (start + n) ('0' :: x :: ds)
      text).map fun f => ⟨.invalidNumber f, ⟨0, n⟩⟩).toList := by
  have hwidth : n = 2 + byteWidth (ds.takeWhile (isDigitIn 16)) := by
    rw [hn, byteWidth_cons, byteWidth_cons, IsRadixLetter.utf8Size_eq hx, ← Nat.add_assoc]
    rfl
  have hhex : isHexadecimal ('0' :: x :: ds) = true := (isHexadecimal_iff _).2 ⟨rfl, x, rfl, hx⟩
  have hend : (start + n).toUInt32 = (start + 2).toUInt32 ↔ runLength (isDigitIn 16) ds = 0 := by
    have hle := length_le_byteWidth (ds.takeWhile (isDigitIn 16))
    rw [toUInt32_inj h (by omega), runLength, List.length_eq_zero_iff]
    constructor
    · intro heq
      exact List.eq_nil_of_length_eq_zero (by omega)
    · intro hnil
      rw [hnil, byteWidth_nil] at hwidth
      rw [hwidth]
  -- the lexer compares offsets where `scanNumber` counts digits
  rw [scanNumber_hexadecimal hx, intFault?, if_pos hhex]
  dsimp only
  by_cases hnone : runLength (isDigitIn 16) ds = 0
  · rw [if_pos hnone, if_pos (hend.2 hnone)]
    rw [List.length_eq_zero_iff.1 hnone, byteWidth_nil] at hwidth
    have hprefix : byteWidth (('0' :: x :: ds).take 2) = n := by
      rw [hwidth, List.take_succ_cons, List.take_succ_cons, List.take_zero, byteWidth_cons,
        byteWidth_cons, IsRadixLetter.utf8Size_eq hx]
      rfl
    rw [numberFault, hprefix]
    rfl
  · rw [if_neg hnone, if_neg (mt hend.1 hnone)]
    rfl

/-- A number in decimal form that is no octal one has a wrong digit just if its text has. -/
theorem decimal_fault {cs : List Char} (hhex : ¬ IsHexadecimal cs)
    (hkind : (scanNumber cs).kind = .int) {n : Nat} (hn : n = byteWidth (cs.takeWhile isDigit))
    (stop : Nat) : (scanNumber cs).faults = ((intFault? start stop cs
      (cs.takeWhile isDigit)).map fun f => ⟨.invalidNumber f, ⟨0, n⟩⟩).toList := by
  rw [scanNumber_decimal hhex] at hkind
  have hbad : ((decide (1 < runLength isDigit cs) && cs.head? == some '0') &&
      (cs.takeWhile isDigit).any (fun c => c == '8' || c == '9')) = true ↔
        1 < (cs.takeWhile isDigit).length ∧ (cs.takeWhile isDigit).head? = some '0' ∧
          (cs.takeWhile isDigit).any (fun c => c == '8' || c == '9') := by
    -- a number may start with a period, but then it has no digits here
    have hhead (hlt : 1 < (cs.takeWhile isDigit).length) :
        (cs.takeWhile isDigit).head? = cs.head? := by
      cases cs with
      | nil => rfl
      | cons c cs =>
        by_cases hc : isDigit c = true
        · rw [List.takeWhile_cons_of_pos hc]
          rfl
        · rw [List.takeWhile_cons_of_neg hc] at hlt
          cases hlt
    rw [Bool.and_eq_true, Bool.and_eq_true, decide_eq_true_eq, beq_iff_eq, and_assoc]
    exact and_congr_right fun hlt => by rw [hhead hlt]
  rw [scanNumber_decimal hhex, decimal_int hkind, intFault?,
    if_neg (mt (isHexadecimal_iff cs).1 hhex)]
  dsimp only
  by_cases hoctal : ((decide (1 < runLength isDigit cs) && cs.head? == some '0') &&
      (cs.takeWhile isDigit).any (fun c => c == '8' || c == '9')) = true
  · rw [if_pos hoctal, if_pos (hbad.1 hoctal), numberFault, take_runLength, hn]
    rfl
  · rw [if_neg hoctal, if_neg (mt hbad.2 hoctal)]
    rfl

/-- What is wrong with an integer is seen from its text and from where it ends. -/
theorem scan_intFault? {c : Char} {cs : List Char} (hkind : (scan c cs).kind = .int) {n : Nat}
    (hn : n = byteWidth (c :: cs.take (scan c cs).more)) (h : start + n < positionBound) :
    (scan c cs).faults = ((intFault? start (start + n) (c :: cs)
      (c :: cs.take (scan c cs).more)).map fun f => ⟨.invalidNumber f, ⟨0, n⟩⟩).toList := by
  have hscan : scan c cs = scanNumber (c :: cs) := by
    cases kindForm hkind with
    | int hc hscan => exact hscan
  cases intForm hkind with
  | @hexadecimal x ds hc hcs hx htake hdrop hfaults =>
    rw [htake] at hn ⊢
    rw [hscan]
    subst hc hcs
    exact hexadecimal_fault hx ds hn h _
  | decimal hx hc htake hdrop hfaults =>
    have hhex : ¬ IsHexadecimal (c :: cs) := by
      rintro ⟨hzero, x, hmem, hletter⟩
      exact hx x hmem (Option.some.inj hzero) hletter
    have hdigits : c :: cs.take (scan c cs).more = (c :: cs).takeWhile isDigit := by
      rw [htake, List.takeWhile_cons_of_pos hc]
    rw [hscan] at hkind
    rw [hdigits] at hn ⊢
    rw [hscan]
    exact decimal_fault hhex hkind hn _

/-! ### Tokens -/

/-- The faults of a token that ends at a word are where `scan` finds them. -/
theorem faults_eq {c : Char} {cs : List Char}
    (h : l.base.toNat + (start + byteWidth (c :: cs.take (scan c cs).more)) < positionBound) :
    l.faults (scan c cs) start (start + byteWidth (c :: cs.take (scan c cs).more)) (c :: cs)
        (c :: cs.take (scan c cs).more) =
      (scan c cs).faults.map (·.shift (l.base.toNat + start)) := by
  have hstop : start + byteWidth (c :: cs.take (scan c cs).more) < positionBound :=
    Nat.lt_of_le_of_lt (Nat.le_add_left ..) h
  unfold faults
  split
  · next hint =>
    rw [scan_intFault? hint rfl hstop, span_eq (Nat.le_add_right ..) h]
    generalize intFault? _ _ _ _ = fault?
    cases fault? with
    | none => rfl
    | some fault =>
      show _ = [LexError.mk _ ⟨l.base.toNat + start + 0, l.base.toNat + start + _⟩]
      rw [Nat.add_zero, Nat.add_assoc]
      rfl
  · refine List.map_congr_left fun e he => ?_
    obtain ⟨hlt, hle⟩ := scan_faultsInside c cs e he
    have hspan : l.span (start + e.span.start) (start + e.span.stop) =
        ⟨l.base.toNat + (start + e.span.start), l.base.toNat + (start + e.span.stop)⟩ :=
      span_eq (Nat.add_le_add_left (Nat.le_of_lt hlt) _)
        (Nat.lt_of_le_of_lt (Nat.add_le_add_left (Nat.add_le_add_left hle _) _) h)
    rw [hspan, LexError.shift, Nat.add_assoc, Nat.add_assoc]

/-- **One token.**  A token that ends at a word is read as it is spelled. -/
theorem token?_eq {before cs : List Char} {c : Char} (hsource : l.source.toList = before ++ c :: cs)
    (hstart : start = byteWidth before)
    (h : l.base.toNat + l.source.utf8ByteSize < positionBound) :
    l.token? start c cs = some (.read (l.base.toNat + start) c cs) := by
  have hsplit : l.source.toList =
      before ++ (c :: cs.take (scan c cs).more) ++ cs.drop (scan c cs).more := by
    rw [hsource, List.append_assoc, List.cons_append, List.take_append_drop]
  have hstop : l.base.toNat + (start + byteWidth (c :: cs.take (scan c cs).more)) <
      positionBound := by
    rw [utf8ByteSize_eq, hsplit, byteWidth_append, byteWidth_append] at h
    omega
  have hwrap : start.toUInt32.toNat = start := toNat_toUInt32 (by omega)
  have htext : l.text? start (start + byteWidth (c :: cs.take (scan c cs).more)) =
      some (String.ofList (c :: cs.take (scan c cs).more)) := by
    rw [text?, hwrap, hstart, ← byteWidth_append]
    exact slice?_split hsplit
  have hspan := span_eq (l := l) (Nat.le_add_right start _) hstop
  have hfaults := faults_eq hstop
  have hkindOf := @kindOf_spelling c cs _ rfl
  unfold token? ScannedToken.read
  dsimp only
  rw [htext, hspan, ← Nat.add_assoc]
  -- a mark is told by its kind alone, and only other tokens ask for their text
  split
  · next p hkind =>
    have hnone : (scan c cs).faults = [] := by
      cases kindForm hkind with
      | mark p hscan => rw [hscan]
    have hpunct : TokenKind.punct p ≠ .comment := nofun
    rw [hkind, hnone, tokenText_of_ne hpunct]
    rfl
  · have hshown : (if (scan c cs).kind = .comment ∧
          (c :: cs.take (scan c cs).more).take 2 = ['/', '/'] ∧
          (String.ofList (c :: cs.take (scan c cs).more)).toList.getLast? = some '\r' then
        String.ofList (String.ofList (c :: cs.take (scan c cs).more)).toList.dropLast
      else String.ofList (c :: cs.take (scan c cs).more)) =
        String.ofList (tokenText (scan c cs).kind (c :: cs.take (scan c cs).more)) := by
      rw [String.toList_ofList, tokenText, apply_ite String.ofList]
    show some _ = some _
    rw [hshown, hkindOf, String.toList_ofList, hfaults]

theorem tokens?_eq {before cs : List Char} (hsource : l.source.toList = before ++ cs)
    (hstart : start = byteWidth before)
    (h : l.base.toNat + l.source.utf8ByteSize < positionBound) :
    l.tokens? start cs = some (tokensFrom (l.base.toNat + start) cs) := by
  -- by induction along the source, of which `before` is the part that has been read
  fun_induction tokens? l start cs generalizing before with
  | case1 start => rw [tokensFrom]
  | case2 start c cs hc ih =>
    rw [tokensFrom, if_pos hc, Nat.add_assoc]
    refine @ih (before ++ [c]) (by rw [hsource, List.append_assoc]; rfl) ?_
    rw [byteWidth_append, hstart]
    rfl
  | case3 start c cs hc ih =>
    have hrest : l.source.toList =
        before ++ (c :: cs.take (scan c cs).more) ++ cs.drop (scan c cs).more := by
      rw [hsource, List.append_assoc, List.cons_append, List.take_append_drop]
    have hbefore : start + byteWidth (c :: cs.take (scan c cs).more) =
        byteWidth (before ++ (c :: cs.take (scan c cs).more)) := by
      rw [byteWidth_append, hstart]
    rw [tokensFrom, if_neg hc, token?_eq hsource hstart h, ih hrest hbefore, ← Nat.add_assoc]
    rfl

end Lexer

/-- The tokens of a source, and the end of the file where its last offset is. -/
theorem lexSource?_of_tokens {base : UInt32} {source : String} {tokens : List ScannedToken}
    {eof : Token} (htokens : Lexer.tokens? ⟨source, base⟩ 0 source.toList = some tokens)
    (heof : (⟨.eof, "", Lexer.span ⟨source, base⟩ source.utf8ByteSize source.utf8ByteSize⟩ : Token) =
      eof) :
    lexSource? base source =
      some ⟨tokens, eof, (lineStartsRead 0 source.toList).map (·.toUInt32.toNat)⟩ := by
  unfold lexSource?
  dsimp only
  rw [htokens, heof]
  rfl

/-- **Nothing is wrapped in a source that ends at a word.**  The lexer reads what `scanSource` says. -/
theorem lexSource?_eq {base : UInt32} {source : String}
    (h : base.toNat + source.utf8ByteSize < positionBound) :
    lexSource? base source = some (scanSource base.toNat source) := by
  have htokens : Lexer.tokens? ⟨source, base⟩ 0 source.toList =
      some (tokensFrom (base.toNat + 0) source.toList) :=
    Lexer.tokens?_eq (List.nil_append _).symm rfl h
  have heof := Lexer.span_eq (l := ⟨source, base⟩) (Nat.le_refl source.utf8ByteSize) h
  have hlines : (lineStartsRead 0 source.toList).map (·.toUInt32.toNat) =
      lineStartsRead 0 source.toList := by
    rw [lineStartsRead_eq, lineStartsFrom_eq]
    refine lineStartsInBytes_words ?_
    rw [length_utf8, ← utf8ByteSize_eq]
    omega
  rw [lexSource?_of_tokens htokens rfl, heof, hlines, utf8ByteSize_eq]
  rfl

/-- A source that has been registered as a file ends at a word. -/
theorem lexSource?_registered {fs fs' : FileSet} {name : String} {base? : Option Pos}
    {source : String} {id : FileId}
    (h : fs.addFile name base? source.utf8ByteSize = .ok (id, fs')) :
    lexSource? (base?.getD fs.next).toUInt32 source =
      some (scanSource (base?.getD fs.next) source) := by
  unfold FileSet.addFile at h
  dsimp only at h
  split at h
  · cases h
  split at h
  · cases h
  · next hroom =>
    have hbase : (base?.getD fs.next).toUInt32.toNat = base?.getD fs.next :=
      toNat_toUInt32 (by omega)
    rw [lexSource?_eq (by omega), hbase]

/-! ### Sources whose offsets start anew -/

theorem toUInt32_bound_add (n : Nat) : (positionBound + n).toUInt32 = n.toUInt32 :=
  UInt32.toNat_inj.1 (Nat.add_mod_left ..)

/-- The last token of a source, where offsets start, or start anew, has the whole source as its
text. -/
theorem Lexer.token?_anew {l : Lexer} {start : Nat} {before cs : List Char} {c : Char}
    (hsource : l.source.toList = before ++ c :: cs) (hbefore : byteWidth before = start)
    (hstart : start.toUInt32 = 0) (hkind : (scan c cs).kind ∈ [.int, .string, .illegal])
    (hmore : (scan c cs).more = cs.length) :
    l.token? start c cs = some {
      token := ⟨(scan c cs).kind, l.source, l.span 0 (byteWidth (c :: cs))⟩
      faults := l.faults (scan c cs) start (start + byteWidth (c :: cs)) (c :: cs)
        l.source.toList } := by
  have hwhole : l.source.toList = [] ++ l.source.toList ++ [] := by
    rw [List.nil_append, List.append_nil]
  have hstop : start + byteWidth (c :: cs) = byteWidth ([] ++ l.source.toList) := by
    rw [List.nil_append, hsource, byteWidth_append, hbefore]
  -- the text is cut out from the offset that `start` is wrapped to
  have htext : l.text? start (start + byteWidth (c :: cs)) = some l.source := by
    rw [text?, hstart, hstop]
    exact (slice?_split hwhole).trans (congrArg some String.ofList_toList)
  have hspan : l.span start (start + byteWidth (c :: cs)) = l.span 0 (byteWidth (c :: cs)) := by
    have hwrap : (start + byteWidth (c :: cs)).toUInt32 = (byteWidth (c :: cs)).toUInt32 := by
      show UInt32.ofNat _ = UInt32.ofNat _
      rw [UInt32.ofNat_add]
      show start.toUInt32 + _ = _
      rw [hstart, UInt32.zero_add]
    rw [span, hwrap, hstart]
    rfl
  unfold token?
  dsimp only
  rw [hmore, List.take_length, htext, hspan]
  simp only [List.mem_cons, List.not_mem_nil, or_false] at hkind
  rcases hkind with hkind | hkind | hkind <;> rw [hkind] <;> rfl

/-- Blanks are passed over. -/
theorem Lexer.tokens?_blanks (l : Lexer) (start n : Nat) (cs : List Char) :
    l.tokens? start (List.replicate n ' ' ++ cs) = l.tokens? (start + n) cs := by
  induction n generalizing start with
  | zero => rfl
  | succ n ih =>
    rw [List.replicate_succ, List.cons_append, tokens?, if_pos (by rfl), ih, Nat.add_assoc,
      Nat.add_comm n]
    rfl

theorem byteWidth_blanks (n : Nat) : byteWidth (List.replicate n ' ') = n := by
  induction n with
  | zero => rfl
  | succ n ih =>
    rw [List.replicate_succ, byteWidth_cons, ih, Nat.add_comm]
    rfl

/-- A text behind so many blanks that its offsets start anew. -/
def behindBlanks (text : String) : String :=
  String.ofList (List.replicate positionBound ' ' ++ text.toList)

theorem toList_behindBlanks (text : String) :
    (behindBlanks text).toList = List.replicate positionBound ' ' ++ text.toList :=
  String.toList_ofList

theorem toList_behindBlanks_cons (text : String) : (behindBlanks text).toList =
    ' ' :: ' ' :: (List.replicate (positionBound - 2) ' ' ++ text.toList) := by
  have hbound : positionBound = positionBound - 2 + 1 + 1 := by decide
  rw [toList_behindBlanks, hbound, List.replicate_succ, List.replicate_succ, List.cons_append,
    List.cons_append]
  rfl

theorem utf8ByteSize_behindBlanks (text : String) :
    (behindBlanks text).utf8ByteSize = positionBound + text.utf8ByteSize := by
  rw [utf8ByteSize_eq, utf8ByteSize_eq, toList_behindBlanks, byteWidth_append, byteWidth_blanks]

/-- A token without faults has none behind the blanks: a text that starts with them is no octal
number. -/
theorem Lexer.faults_behindBlanks {l : Lexer} {text : String} {c : Char} {cs : List Char}
    (hfaults : (scan c cs).faults = []) (hhex : Lexer.isHexadecimal (c :: cs) = false)
    (start stop : Nat) :
    l.faults (scan c cs) start stop (c :: cs) (behindBlanks text).toList = [] := by
  unfold faults
  split
  · have hoctal : ¬ (1 < (behindBlanks text).toList.length ∧
        (behindBlanks text).toList.head? = some '0' ∧
        (behindBlanks text).toList.any (fun c => c == '8' || c == '9')) := by
      rw [toList_behindBlanks_cons, List.head?_cons]
      exact fun h => absurd h.2.1 (by decide)
    rw [intFault?, hhex, if_neg Bool.false_ne_true, if_neg hoctal]
    rfl
  · rw [hfaults]
    rfl

/-- A token behind the blanks has the span that it has without them, and a text that starts with
blanks. -/
theorem lexSource?_behindBlanks {text : String} {c : Char} {cs : List Char}
    (htext : text.toList = c :: cs) (hc : isSeparator c = false)
    (hkind : (scan c cs).kind ∈ [.int, .string]) (hmore : (scan c cs).more = cs.length)
    (hfaults : (scan c cs).faults = []) (hhex : Lexer.isHexadecimal (c :: cs) = false)
    (hwidth : text.utf8ByteSize < positionBound) :
    ∃ s, lexSource? 0 (behindBlanks text) = some s ∧ s.errors = [] ∧
      s.allTokens = [⟨(scan c cs).kind, behindBlanks text, ⟨0, text.utf8ByteSize⟩⟩,
        ⟨.eof, "", Span.ofPos text.utf8ByteSize⟩] := by
  have hsource : (behindBlanks text).toList = List.replicate positionBound ' ' ++ c :: cs := by
    rw [toList_behindBlanks, htext]
  have hsize : byteWidth (c :: cs) = text.utf8ByteSize := by rw [utf8ByteSize_eq, htext]
  have hspan : Lexer.span ⟨behindBlanks text, 0⟩ 0 text.utf8ByteSize = ⟨0, text.utf8ByteSize⟩ := by
    have h := Lexer.span_eq (l := ⟨behindBlanks text, 0⟩) (Nat.zero_le text.utf8ByteSize)
      ((Nat.zero_add text.utf8ByteSize).symm ▸ hwidth)
    rw [h]
    show (⟨0 + 0, 0 + _⟩ : Span) = _
    rw [Nat.zero_add, Nat.zero_add]
  have htokens : Lexer.tokens? ⟨behindBlanks text, 0⟩ 0 (behindBlanks text).toList =
      some [⟨⟨(scan c cs).kind, behindBlanks text, ⟨0, text.utf8ByteSize⟩⟩, []⟩] := by
    have hkinds : (scan c cs).kind ∈ [.int, .string, .illegal] :=
      List.mem_append_left [TokenKind.illegal] hkind
    have htoken := @Lexer.token?_anew ⟨behindBlanks text, 0⟩ _ _ cs c hsource (byteWidth_blanks _)
      rfl hkinds hmore
    rw [hsize, hspan, Lexer.faults_behindBlanks hfaults hhex] at htoken
    rw [hsource, Lexer.tokens?_blanks, Nat.zero_add, Lexer.tokens?, if_neg (by rw [hc]; decide),
      htoken, hmore, List.drop_length, Lexer.tokens?]
    rfl
  have heof : Lexer.span ⟨behindBlanks text, 0⟩ (behindBlanks text).utf8ByteSize
      (behindBlanks text).utf8ByteSize = Span.ofPos text.utf8ByteSize := by
    rw [utf8ByteSize_behindBlanks, Lexer.span, toUInt32_bound_add]
    exact congrArg (fun s : Span => Span.ofPos s.stop) hspan
  exact ⟨_, lexSource?_of_tokens htokens rfl, rfl, by rw [heof]; rfl⟩

end Idl
