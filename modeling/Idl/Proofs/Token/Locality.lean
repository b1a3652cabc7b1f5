/-
Idl/Proofs/Token/Locality.lean

Tokens on their own.

What a token is does not depend on what stands behind it: read alone, the part of a source that a
token covers is a token of the same kind that takes all of the part (`readsAlone`).  Only the reports
may be others, where a line cuts a literal off behind a backslash.  And a token ends where it has to:
a word or an integer has all the characters that could go on with it (`token_read_alone`).
-/
import Idl.Proofs.Token.Faults
import Idl.Proofs.Token.Integers
import Idl.Proofs.Token.OneLine

namespace Idl

/-! ### Readers -/

/-- The token that starts with `c` is of the same kind when the text behind it is missing, and takes
all that is left. -/
structure ReadsAlone (c : Char) (cs : List Char) : Prop where
  kind : (scan c (cs.take (scan c cs).more)).kind = (scan c cs).kind
  more : (cs.take (scan c cs).more).length ≤ (scan c (cs.take (scan c cs).more)).more

namespace ReadsAlone

variable {c : Char} {cs : List Char}

theorem of_eq (h : scan c (cs.take (scan c cs).more) = scan c cs) : ReadsAlone c cs where
  kind := by rw [h]
  more := by
    rw [h]
    exact List.length_take_le ..

/-- A token that takes all of the text has nothing behind it. -/
theorem of_rest (h : cs.length ≤ (scan c cs).more) : ReadsAlone c cs := by
  refine of_eq ?_
  rw [List.take_of_length_le h]

end ReadsAlone

/-- A body on its own is read to its end: it closes where it did, or its line ends there. -/
theorem QuotedBody.length_take_le {quote : Char} (hquote : IsQuote quote) (start : Nat)
    (cs : List Char) : (cs.take (read quote start cs).length).length ≤
      (read quote start (cs.take (read quote start cs).length)).length := by
  have hline : '\n' ∉ cs.take (read quote start cs).length := read_oneLine hquote start cs
  obtain ⟨taken, htaken⟩ : ∃ taken, cs.take (read quote start cs).length = taken := ⟨_, rfl⟩
  rw [htaken] at hline ⊢
  cases hclosed : (read quote start taken).closed with
  | true =>
    -- a body that closes is the same with the rest of the text behind it, so nothing was left out
    have hcongr : read quote start (taken.take (read quote start taken).length ++
        (taken.drop (read quote start taken).length ++ cs.drop (read quote start cs).length)) =
        read quote start taken := read_congr hquote (.inl hclosed)
    have hwhole : taken ++ cs.drop (read quote start cs).length = cs := by
      rw [← htaken, List.take_append_drop]
    rw [← List.append_assoc, List.take_append_drop, hwhole] at hcongr
    rw [← hcongr, ← htaken]
    exact List.length_take_le ..
  | false =>
    -- an open body ends at a newline or at the end of the text, and it has no newline
    refine List.drop_eq_nil_iff.1 (List.head?_eq_none_iff.1 ?_)
    refine Option.eq_none_iff_forall_not_mem.2 fun c hc => ?_
    obtain rfl := read_open hclosed c hc
    exact hline (List.mem_of_mem_drop (List.mem_of_mem_head? hc))

theorem readsAlone_string (cs : List Char) : ReadsAlone '"' cs where
  kind := rfl
  more := QuotedBody.length_take_le (.inl rfl) 1 cs

theorem readsAlone_char (cs : List Char) : ReadsAlone '\'' cs where
  kind := rfl
  more := QuotedBody.length_take_le (.inr rfl) 1 cs

theorem readsAlone_lineComment (cs : List Char) : ReadsAlone '/' ('/' :: cs) := by
  have hscan (cs : List Char) : scan '/' ('/' :: cs) =
      { kind := .comment, more := runLength (· != '\n') cs + 1 } := by
    have hmore : runLength (· != '\n') ('/' :: cs) = runLength (· != '\n') cs + 1 :=
      congrArg List.length (List.takeWhile_cons_of_pos rfl)
    rw [← hmore]
    rfl
  have hrun : runLength (· != '\n') (cs.takeWhile (· != '\n')) = runLength (· != '\n') cs :=
    congrArg List.length (List.takeWhile_idem ..)
  refine .of_eq ?_
  rw [hscan, List.take_succ_cons, take_runLength, hscan, hrun]

theorem readsAlone_blockComment {cs : List Char} {n : Nat}
    (hclosed : blockCommentLength? 0 cs = some n) : ReadsAlone '/' ('*' :: cs) := by
  have hscan {cs : List Char} (hclosed : blockCommentLength? 0 cs = some n) :
      scan '/' ('*' :: cs) = { kind := .comment, more := 1 + n } := by
    show scanBlockComment ('*' :: cs) = _
    unfold scanBlockComment
    rw [List.drop_one, List.tail_cons, hclosed]
  refine .of_eq ?_
  have htake : ('*' :: cs).take (1 + n) = '*' :: cs.take n := by
    rw [Nat.add_comm, List.take_succ_cons]
  rw [hscan hclosed, htake, hscan (blockCommentLength?_take hclosed)]

theorem readsAlone_comment {c : Char} {cs : List Char} (h : (scan c cs).kind = .comment) :
    ReadsAlone c cs := by
  cases kindForm h with
  | lineComment hc hnext hscan =>
    obtain ⟨cs, rfl⟩ := List.head?_eq_some_iff.1 hnext
    exact hc ▸ readsAlone_lineComment cs
  | blockComment hc hnext hclosed hscan =>
    obtain ⟨cs, rfl⟩ := List.head?_eq_some_iff.1 hnext
    exact hc ▸ readsAlone_blockComment hclosed

/-- A character that starts no token starts none at the end of a text. -/
theorem StartsToken.of_nil {c : Char} (h : StartsToken c []) (cs : List Char) :
    StartsToken c cs := by
  cases h with
  | word hc => exact .word hc
  | number hc =>
    rcases hc with hc | ⟨-, d, hd, -⟩
    · exact .number (.inl hc)
    · cases hd
  | literal hc => exact .literal hc
  | comment hc hnext => rcases hnext with hnext | hnext <;> cases hnext
  | mark p hc => exact .mark p hc

theorem readsAlone_illegal {c : Char} {cs : List Char} (h : (scan c cs).kind = .illegal) :
    ReadsAlone c cs := by
  cases kindForm h with
  | openComment hc hnext hopen hscan => exact .of_rest (Nat.le_of_eq (congrArg Scan.more hscan).symm)
  | other hscan hnone =>
    have hnil : ¬ StartsToken c [] := fun hstarts => hnone (hstarts.of_nil cs)
    refine .of_eq ?_
    rw [hscan, List.take_zero, scan_illegal hnil]

/-- **A token does not need what stands behind it.** -/
theorem readsAlone (c : Char) (cs : List Char) : ReadsAlone c cs := by
  by_cases hcomment : (scan c cs).kind = .comment
  · exact readsAlone_comment hcomment
  by_cases hillegal : (scan c cs).kind = .illegal
  · exact readsAlone_illegal hillegal
  by_cases hstring : c = '"'
  · exact hstring ▸ readsAlone_string cs
  by_cases hchar : c = '\''
  · exact hchar ▸ readsAlone_char cs
  · have hscan := scan_congr_unquoted hcomment hillegal hstring hchar (.nil _)
    rw [List.append_nil] at hscan
    exact .of_eq hscan

/-- The text of a token is read as that token alone. -/
theorem tokensFrom_alone {c : Char} {cs : List Char} (hc : ¬ isSeparator c = true)
    (pos pos' : Pos) :
    (tokensFrom pos' (c :: cs.take (scan c cs).more)).map (·.token) =
      [{ (ScannedToken.read pos c cs).token with
        span := ⟨pos', pos' + byteWidth (c :: cs.take (scan c cs).more)⟩ }] := by
  have halone := readsAlone c cs
  rw [tokensFrom, if_neg hc]
  dsimp only
  rw [List.drop_of_length_le halone.more, tokensFrom, List.map_singleton,
    List.take_of_length_le halone.more, halone.kind]
  rfl

/-! ### What ends a token -/

/-- Only words are identifiers and keywords. -/
theorem scan_word {c : Char} {cs : List Char}
    (h : (scan c cs).kind = .ident ∨ ∃ k, (scan c cs).kind = .keyword k) :
    scan c cs = scanWord c cs := by
  rcases h with h | ⟨k, h⟩
  · cases kindForm h with
    | ident hscan => exact hscan
  · cases kindForm h with
    | keyword k hscan => exact hscan

/-- A word goes on to the last character that can go on with it. -/
theorem word_ends {c : Char} {cs : List Char}
    (h : (scan c cs).kind = .ident ∨ ∃ k, (scan c cs).kind = .keyword k) :
    ∀ d ∈ (cs.drop (scan c cs).more).head?,
      isLetter d = false ∧ isNumeral d = false ∧ d ≠ '_' := by
  intro d hd
  rw [scan_word h] at hd
  have hstop : ¬ isIdentContinue d = true := head?_drop_runLength isIdentContinue cs d hd
  simpa [isIdentContinue, and_assoc] using hstop

/-- The base in which the reader of tokens takes the digits of an integer: 16 behind `0x` or `0X`,
and 10 otherwise. -/
def scanRadix : List Char → Nat
  | '0' :: 'x' :: _ => 16
  | '0' :: 'X' :: _ => 16
  | _ => 10

/-- An integer goes on to its last digit. -/
theorem int_ends {c : Char} {cs : List Char} (h : (scan c cs).kind = .int) :
    ∀ d ∈ (cs.drop (scan c cs).more).head?,
      isDigitIn (scanRadix (c :: cs.take (scan c cs).more)) d = false := by
  intro d hd
  rw [← Bool.not_eq_true]
  cases intForm h with
  | hexadecimal hc hcs hx htake hdrop hfaults =>
    have hradix : scanRadix (c :: cs.take (scan c cs).more) = 16 := by
      rw [htake, hc]
      rcases hx with rfl | rfl <;> rfl
    rw [hdrop, ← drop_runLength] at hd
    rw [hradix]
    exact head?_drop_runLength _ _ d hd
  | decimal hx hc htake hdrop hfaults =>
    have hradix : scanRadix (c :: cs.take (scan c cs).more) = 10 := by
      have hdigit {x : Char} {ds : List Char} (h : c :: cs.takeWhile isDigit = '0' :: x :: ds) :
          isDigit x = true := by
        have hx : x ∈ cs.takeWhile isDigit := (List.cons.inj h).2 ▸ List.mem_cons_self
        exact List.mem_takeWhile_imp hx
      rw [htake]
      unfold scanRadix
      split
      · next h => exact absurd (hdigit h) (by decide)
      · next h => exact absurd (hdigit h) (by decide)
      · rfl
    rw [hdrop, ← drop_runLength] at hd
    rw [hradix]
    exact head?_drop_runLength _ _ d hd

/-! ### Tokens of sources -/

/-- Tokens are local and maximal: the part of a source that a token covers is read alone as one token
of the same kind and text.  No letter, digit or underscore follows a word, and no digit of its
base follows an integer. -/
theorem token_read_alone (base : Pos) (source : String) (t : Token)
    (ht : t ∈ (scanSource base source).allTokens) (hkind : t.kind ≠ .eof) :
    ∃ before slice after, Covers base source.toList t.span before slice after ∧
      (∀ base', (scanSource base' (String.ofList slice)).allTokens =
        [{ t with span := ⟨base', base' + byteWidth slice⟩ },
          ⟨.eof, "", Span.ofPos (base' + byteWidth slice)⟩]) ∧
      (t.kind = .ident ∨ (∃ k, t.kind = .keyword k) →
        ∀ d ∈ after.head?, isLetter d = false ∧ isNumeral d = false ∧ d ≠ '_') ∧
      (t.kind = .int → ∀ d ∈ after.head?, isDigitIn (scanRadix slice) d = false) := by
  obtain ⟨u, hu, rfl⟩ := exists_scanned ht hkind
  obtain ⟨before, c, ds, hc, rfl, hcovers⟩ := exists_covers hu
  refine ⟨before, _, _, hcovers, fun base' => ?_, word_ends, int_ends⟩
  unfold Scanned.allTokens scanSource
  dsimp only
  rw [String.toList_ofList, tokensFrom_alone hc (base + byteWidth before) base']
  rfl

end Idl
