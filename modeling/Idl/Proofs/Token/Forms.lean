/-
Idl/Proofs/Token/Forms.lean

Which reader reads a token.

The first character of a token, and at most one more, decide which reader reads it: `scanForm` says
once which readers there are and what each of them has seen by then.  What is proved of all tokens
goes by these cases, and what is proved of the tokens of one kind by those of `kindForm`.

Most readers take a run of characters, which ends where a character is none of it (`takeWhile_run`).
-/
import Idl.Token.Scan
import Mathlib.Data.List.TakeWhile

namespace Idl

/-! ### Runs -/

/-- A run ends where a character is none of it. -/
theorem head?_drop_runLength (p : Char → Bool) (cs : List Char) :
    ∀ c ∈ (cs.drop (runLength p cs)).head?, ¬ p c = true := by
  induction cs with
  | nil => simp
  | cons c cs ih =>
    by_cases hc : p c = true
    · have hrun : runLength p (c :: cs) = runLength p cs + 1 :=
        congrArg List.length (List.takeWhile_cons_of_pos hc)
      rw [hrun]
      exact ih
    · have hrun : runLength p (c :: cs) = 0 := congrArg List.length (List.takeWhile_cons_of_neg hc)
      intro d hd
      rw [hrun] at hd
      obtain rfl := Option.some.inj hd
      exact hc

/-- What is read of a run that nothing continues is all of it. -/
theorem takeWhile_run {p : Char → Bool} {xs ys : List Char} (hrun : ∀ c ∈ xs, p c = true)
    (hends : ∀ c ∈ ys.head?, ¬ p c = true) : (xs ++ ys).takeWhile p = xs := by
  rw [List.takeWhile_append_of_pos hrun]
  cases ys with
  | nil => rw [List.takeWhile_nil, List.append_nil]
  | cons c ys => rw [List.takeWhile_cons_of_neg (hends c rfl), List.append_nil]

theorem runLength_run {p : Char → Bool} {xs ys : List Char} (hrun : ∀ c ∈ xs, p c = true)
    (hends : ∀ c ∈ ys.head?, ¬ p c = true) : runLength p (xs ++ ys) = xs.length :=
  congrArg List.length (takeWhile_run hrun hends)

theorem take_runLength (p : Char → Bool) (cs : List Char) :
    cs.take (runLength p cs) = cs.takeWhile p :=
  (List.prefix_iff_eq_take.1 (List.takeWhile_prefix p)).symm

theorem drop_runLength (p : Char → Bool) (cs : List Char) :
    cs.drop (runLength p cs) = cs.dropWhile p := by
  have h : cs.takeWhile p ++ cs.drop (runLength p cs) = cs.takeWhile p ++ cs.dropWhile p := by
    rw [List.takeWhile_append_dropWhile, ← take_runLength, List.take_append_drop]
  exact List.append_cancel_left h

/-- A run has no character that does not go on with it. -/
theorem not_mem_run {p : Char → Bool} {d : Char} (hd : ¬ p d = true) (cs : List Char) :
    d ∉ cs.take (runLength p cs) := by
  rw [take_runLength]
  exact fun h => hd (List.mem_takeWhile_imp h)

/-! ### Readers -/

/-- Only a comment loses something of its spelling. -/
theorem tokenText_of_ne {kind : TokenKind} (h : kind ≠ .comment) (cs : List Char) :
    tokenText kind cs = cs := if_neg fun hc => h hc.1

/-- Whether a number starts with `c`. -/
def StartsNumber (c : Char) (cs : List Char) : Prop :=
  isDigit c = true ∨ c = '.' ∧ ∃ d ∈ cs.head?, isDigit d = true

theorem startsNumber_iff (c : Char) (cs : List Char) :
    (isDigit c || (c == '.' && cs.head?.any isDigit)) = true ↔ StartsNumber c cs := by
  rw [Bool.or_eq_true, Bool.and_eq_true, beq_iff_eq, Option.any_eq_true_iff_get]
  unfold StartsNumber
  cases cs.head? <;> simp

/-- A token that means something, or a comment, starts with `c` before the text `cs`. -/
inductive StartsToken (c : Char) (cs : List Char) : Prop
  | word (hc : isIdentStart c = true)
  | number (hc : StartsNumber c cs)
  | literal (hc : c = '"' ∨ c = backQuote ∨ c = '\'')
  | comment (hc : c = '/') (hnext : cs.head? = some '/' ∨ cs.head? = some '*')
  | mark (p : Punct) (hc : Punct.ofChar? c = some p)

/-- The token that starts with `c` before the text `cs` is read by one of the readers. -/
inductive ScanForm (c : Char) (cs : List Char) : Prop
  | word (hc : isIdentStart c = true) (hscan : scan c cs = scanWord c cs)
  | number (hc : StartsNumber c cs) (hscan : scan c cs = scanNumber (c :: cs))
  | string (hc : c = '"') (hscan : scan c cs = scanString cs)
  | rawString (hc : c = backQuote) (hscan : scan c cs = scanRawString cs)
  | char (hc : c = '\'') (hscan : scan c cs = scanChar cs)
  | lineComment (hc : c = '/') (hnext : cs.head? = some '/') (hscan : scan c cs = scanLineComment cs)
  | blockComment (hc : c = '/') (hnext : cs.head? = some '*')
      (hscan : scan c cs = scanBlockComment cs)
  | mark (p : Punct) (hc : Punct.ofChar? c = some p)
      (hscan : scan c cs = { kind := .punct p, more := 0 })
  | other (hscan : scan c cs =
      { kind := .illegal, more := 0, faults := [⟨.unexpectedCharacter c, ⟨0, c.utf8Size⟩⟩] })
      (hnone : ¬ StartsToken c cs)

theorem scanForm (c : Char) (cs : List Char) : ScanForm c cs := by
  have hscan := scan.eq_def c cs
  by_cases hword : isIdentStart c = true
  · exact .word hword (hscan.trans (if_pos hword))
  rw [if_neg hword] at hscan
  by_cases hnumber : (isDigit c || (c == '.' && cs.head?.any isDigit)) = true
  · exact .number ((startsNumber_iff c cs).1 hnumber) (hscan.trans (if_pos hnumber))
  rw [if_neg hnumber] at hscan
  by_cases hstring : c = '"'
  · exact .string hstring (hscan.trans (if_pos hstring))
  rw [if_neg hstring] at hscan
  by_cases hraw : c = backQuote
  · exact .rawString hraw (hscan.trans (if_pos hraw))
  rw [if_neg hraw] at hscan
  by_cases hchar : c = '\''
  · exact .char hchar (hscan.trans (if_pos hchar))
  rw [if_neg hchar] at hscan
  by_cases hline : c = '/' ∧ cs.head? = some '/'
  · exact .lineComment hline.1 hline.2 (hscan.trans (if_pos hline))
  rw [if_neg hline] at hscan
  by_cases hblock : c = '/' ∧ cs.head? = some '*'
  · exact .blockComment hblock.1 hblock.2 (hscan.trans (if_pos hblock))
  rw [if_neg hblock] at hscan
  cases hmark : Punct.ofChar? c with
  | some p =>
    rw [hmark] at hscan
    exact .mark p hmark hscan
  | none =>
    rw [hmark] at hscan
    refine .other hscan fun hstarts => ?_
    cases hstarts with
    | word hc => exact hword hc
    | number hc => exact hnumber ((startsNumber_iff c cs).2 hc)
    | literal hc => exact hc.elim hstring fun hc => hc.elim hraw hchar
    | comment hc hnext =>
      exact hnext.elim (fun hnext => hline ⟨hc, hnext⟩) fun hnext => hblock ⟨hc, hnext⟩
    | mark p hc => rw [hmark] at hc; cases hc

/-- A character that starts no token is illegal on its own. -/
theorem scan_illegal {c : Char} {cs : List Char} (h : ¬ StartsToken c cs) : scan c cs =
    { kind := .illegal, more := 0, faults := [⟨.unexpectedCharacter c, ⟨0, c.utf8Size⟩⟩] } := by
  cases scanForm c cs with
  | word hc hscan => exact absurd (.word hc) h
  | number hc hscan => exact absurd (.number hc) h
  | string hc hscan => exact absurd (.literal (.inl hc)) h
  | rawString hc hscan => exact absurd (.literal (.inr (.inl hc))) h
  | char hc hscan => exact absurd (.literal (.inr (.inr hc))) h
  | lineComment hc hnext hscan => exact absurd (.comment hc (.inl hnext)) h
  | blockComment hc hnext hscan => exact absurd (.comment hc (.inr hnext)) h
  | mark p hc hscan => exact absurd (.mark p hc) h
  | other hscan hnone => exact hscan

/-! ### Kinds -/

theorem scanWord_kind (c : Char) (cs : List Char) :
    (scanWord c cs).kind = .ident ∨ ∃ k, (scanWord c cs).kind = .keyword k := by
  unfold scanWord
  dsimp only
  split
  · exact .inr ⟨_, rfl⟩
  · exact .inl rfl

theorem scanNumber_kind (cs : List Char) :
    (scanNumber cs).kind = .int ∨ (scanNumber cs).kind = .float := by
  have hdecimal (f : Nat → NumberFault → List LexError) :
      (scanNumber.decimal cs f).kind = .int ∨ (scanNumber.decimal cs f).kind = .float := by
    unfold scanNumber.decimal
    dsimp only
    split
    · exact .inl rfl
    · exact .inr rfl
  unfold scanNumber
  dsimp only
  split
  · split
    · exact .inl rfl
    · exact hdecimal _
  · exact hdecimal _

theorem scanRawString_kind (cs : List Char) : (scanRawString cs).kind = .string := by
  unfold scanRawString
  dsimp only
  split
  · rfl
  · rfl

theorem scanBlockComment_kind (cs : List Char) :
    (scanBlockComment cs).kind = .comment ∨ (scanBlockComment cs).kind = .illegal := by
  unfold scanBlockComment
  split
  · exact .inl rfl
  · exact .inr rfl

/-- What the kind of a token says about how it was read. -/
inductive KindForm (c : Char) (cs : List Char) : TokenKind → Prop
  | ident (hscan : scan c cs = scanWord c cs) : KindForm c cs .ident
  | keyword (k : Keyword) (hscan : scan c cs = scanWord c cs) : KindForm c cs (.keyword k)
  | int (hc : StartsNumber c cs) (hscan : scan c cs = scanNumber (c :: cs)) : KindForm c cs .int
  | float (hc : StartsNumber c cs) (hscan : scan c cs = scanNumber (c :: cs)) : KindForm c cs .float
  | string (hc : c = '"') (hscan : scan c cs = scanString cs) : KindForm c cs .string
  | rawString (hc : c = backQuote) (hscan : scan c cs = scanRawString cs) : KindForm c cs .string
  | char (hc : c = '\'') (hscan : scan c cs = scanChar cs) : KindForm c cs .char
  | lineComment (hc : c = '/') (hnext : cs.head? = some '/')
      (hscan : scan c cs = scanLineComment cs) : KindForm c cs .comment
  | blockComment {n : Nat} (hc : c = '/') (hnext : cs.head? = some '*')
      (hclosed : blockCommentLength? 0 (cs.drop 1) = some n)
      (hscan : scan c cs = { kind := .comment, more := 1 + n }) : KindForm c cs .comment
  | openComment (hc : c = '/') (hnext : cs.head? = some '*')
      (hopen : blockCommentLength? 0 (cs.drop 1) = none)
      (hscan : scan c cs =
        { kind := .illegal, more := cs.length
          faults := [⟨.unterminatedComment, ⟨0, 1 + byteWidth cs⟩⟩] }) : KindForm c cs .illegal
  | mark (p : Punct) (hscan : scan c cs = { kind := .punct p, more := 0 }) : KindForm c cs (.punct p)
  | other (hscan : scan c cs =
        { kind := .illegal, more := 0, faults := [⟨.unexpectedCharacter c, ⟨0, c.utf8Size⟩⟩] })
      (hnone : ¬ StartsToken c cs) : KindForm c cs .illegal

theorem kindForm {c : Char} {cs : List Char} {kind : TokenKind} (h : (scan c cs).kind = kind) :
    KindForm c cs kind := by
  subst h
  cases scanForm c cs with
  | word hc hscan =>
    rcases scanWord_kind c cs with hkind | ⟨k, hkind⟩
    · rw [hscan, hkind]
      exact .ident hscan
    · rw [hscan, hkind]
      exact .keyword k hscan
  | number hc hscan =>
    rcases scanNumber_kind (c :: cs) with hkind | hkind
    · rw [hscan, hkind]
      exact .int hc hscan
    · rw [hscan, hkind]
      exact .float hc hscan
  | string hc hscan =>
    rw [hscan]
    exact .string hc hscan
  | rawString hc hscan =>
    rw [hscan, scanRawString_kind]
    exact .rawString hc hscan
  | char hc hscan =>
    rw [hscan]
    exact .char hc hscan
  | lineComment hc hnext hscan =>
    rw [hscan]
    exact .lineComment hc hnext hscan
  | blockComment hc hnext hscan =>
    unfold scanBlockComment at hscan
    cases hlength : blockCommentLength? 0 (cs.drop 1) with
    | some n =>
      rw [hlength] at hscan
      rw [hscan]
      exact .blockComment hc hnext hlength hscan
    | none =>
      rw [hlength] at hscan
      rw [hscan]
      exact .openComment hc hnext hlength hscan
  | mark p hc hscan =>
    rw [hscan]
    exact .mark p hscan
  | other hscan hnone =>
    rw [hscan]
    exact .other hscan hnone

end Idl
