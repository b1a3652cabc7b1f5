/-
Idl/Proofs/Token/Literals.lean

Literals, read twice.

The reader of tokens reads a literal to its end and reports what is wrong with it; `unquote?` finds
later what the literal stands for.  Both cut the body of a literal into the same pieces
(`QuotedBody.pieces?_eq`).  So a literal stands for something just where the reader of tokens has found
nothing wrong inside it and the bytes of its pieces form a text (`unquote?_isSome_iff`).
-/
import Idl.Proofs.Token.Escapes
import Idl.Proofs.Token.Forms
import Mathlib.Data.List.Pairwise

namespace Idl

/-! ### Bodies between quotes -/

/-- The pieces of a literal as the reader of tokens comes by them, up to the closing quote or the end of
the line; escapes that are at fault stand for nothing. -/
def readPieces (quote : Char) : List Char → List Piece
  | [] => []
  | c :: cs =>
    if c = '\n' then []
    else if c = quote then []
    else if c = '\\' then
      (Escape.read quote cs).outcome.toOption.toList ++
        readPieces quote (cs.drop (Escape.read quote cs).width)
    else .char c :: readPieces quote cs
termination_by cs => cs.length
decreasing_by all_goals simp; try omega

/-- A text goes on as before if something is kept of it, or else what comes then goes on so. -/
theorem head?_take_append {n : Nat} {xs rest : List Char}
    (h : 0 < n ∧ 0 < xs.length ∨ rest.head? = (xs.drop n).head?) :
    (xs.take n ++ rest).head? = xs.head? := by
  cases xs with
  | nil =>
    rw [List.take_nil, List.nil_append]
    rcases h with h | h
    · exact absurd h.2 (Nat.lt_irrefl 0)
    · rw [h, List.drop_nil]
  | cons x xs =>
    cases n with
    | zero => exact h.resolve_left fun h => Nat.lt_irrefl 0 h.1
    | succ n => rfl

theorem pieces?_nil (quote : Char) : pieces? quote [] = some [] := by
  rw [pieces?]
  rfl

/-- A body that goes on starts with a piece. -/
theorem pieces?_cons (quote c : Char) (cs : List Char) : pieces? quote (c :: cs) =
    (Piece.read? quote (c :: cs)).bind fun r => (pieces? quote r.2).map (r.1 :: ·) := by
  rw [pieces?, if_neg (by simp)]
  split
  · next p rest h => rw [h]; rfl
  · next h => rw [h]; rfl

/-- The faults of an escape are reported for what it takes. -/
theorem Escape.faults_congr (e : Escape) (start : Nat) {cs ds : List Char}
    (h : ds.take e.width = cs.take e.width) : e.faults start ds = e.faults start cs := by
  unfold Escape.faults
  rw [h]

/-- What an escape of `m` characters and `n` more behind it take of a text. -/
theorem take_escape (c : Char) (cs : List Char) (m n : Nat) :
    (c :: cs).take (1 + m + n) = c :: (cs.take m ++ (cs.drop m).take n) := by
  rw [Nat.add_assoc, Nat.add_comm 1, List.take_succ_cons, List.take_add]

/-- What they leave of it. -/
theorem drop_escape (c : Char) (cs : List Char) (m n : Nat) :
    (c :: cs).drop (1 + m + n) = (cs.drop m).drop n := by
  rw [Nat.add_assoc, Nat.add_comm 1, List.drop_succ_cons, List.drop_drop]

namespace QuotedBody

variable {quote : Char}

/-- A body takes no more characters than there are, and a closed one takes its quote at least. -/
theorem read_length (quote : Char) (start : Nat) (cs : List Char) :
    (read quote start cs).length ≤ cs.length ∧
      ((read quote start cs).closed = true → 0 < (read quote start cs).length) := by
  fun_induction read quote start cs with
  | case1 => exact ⟨Nat.le_refl _, fun h => by cases h⟩
  | case2 => exact ⟨Nat.zero_le _, fun h => by cases h⟩
  | case3 => exact ⟨Nat.succ_le_succ (Nat.zero_le _), fun _ => Nat.one_pos⟩
  | case4 start cs e rest hn hq ih =>
    have hwidth : e.width ≤ cs.length := Escape.read_width quote cs
    have hrest : rest.length ≤ (cs.drop e.width).length := ih.1
    rw [List.length_drop] at hrest
    refine ⟨?_, fun _ => ?_⟩
    · show 1 + e.width + rest.length ≤ cs.length + 1
      omega
    · show 0 < 1 + e.width + rest.length
      omega
  | case5 start c cs hn hq hb rest ih =>
    have hrest : rest.length ≤ cs.length := ih.1
    refine ⟨?_, fun _ => ?_⟩
    · show 1 + rest.length ≤ cs.length + 1
      omega
    · show 0 < 1 + rest.length
      omega

/-- A closed body ends with its quote. -/
theorem read_closed {start : Nat} {cs : List Char} (h : (read quote start cs).closed = true) :
    ∃ inner, cs.take (read quote start cs).length = inner ++ [quote] := by
  fun_induction read quote start cs with
  | case1 => cases h
  | case2 => cases h
  | case3 => exact ⟨[], by simp_all⟩
  | case4 start cs e rest hn hq ih =>
    obtain ⟨inner, hinner⟩ := ih h
    refine ⟨'\\' :: (cs.take e.width ++ inner), ?_⟩
    refine (take_escape '\\' cs e.width rest.length).trans ?_
    rw [hinner, List.cons_append, List.append_assoc]
  | case5 start c cs hn hq hb rest ih =>
    obtain ⟨inner, hinner⟩ := ih h
    refine ⟨c :: inner, ?_⟩
    show (c :: cs).take (1 + rest.length) = _
    rw [Nat.add_comm, List.take_succ_cons, hinner]
    rfl

/-- What is wrong inside a body covers something of it. -/
theorem read_faults (quote : Char) (start : Nat) (cs : List Char) :
    ∀ e ∈ (read quote start cs).faults, start ≤ e.span.start ∧ e.span.start < e.span.stop ∧
      e.span.stop ≤ start + byteWidth (cs.take (read quote start cs).length) := by
  fun_induction read quote start cs with
  | case1 => simp
  | case2 => simp
  | case3 => simp
  | case4 start cs esc rest hn hq ih =>
    have hwidth : byteWidth (('\\' :: cs).take (1 + esc.width + rest.length)) =
        1 + byteWidth (cs.take esc.width) + byteWidth ((cs.drop esc.width).take rest.length) := by
      rw [take_escape, byteWidth_cons, byteWidth_append, ← Nat.add_assoc]
      rfl
    intro e he
    rw [hwidth]
    -- a fault is the one of this escape or lies in the body behind it
    rcases List.mem_append.1 he with he | he
    · unfold Escape.faults at he
      split at he
      · cases he
      · obtain ⟨k, -, rfl⟩ := Option.map_eq_some_iff.1 (Option.mem_toList.1 he)
        dsimp only
        unfold Pos at *
        exact ⟨by omega, by omega, by omega⟩
    · obtain ⟨hstart, hlt, hstop⟩ := ih e he
      have hstop : e.span.stop ≤ start + 1 + byteWidth (cs.take esc.width) +
          byteWidth ((cs.drop esc.width).take rest.length) := hstop
      unfold Pos at *
      exact ⟨by omega, hlt, by omega⟩
  | case5 start c cs hn hq hb rest ih =>
    have hc := c.utf8Size_pos
    intro e he
    obtain ⟨hstart, hlt, hstop⟩ := ih e he
    have hstop : e.span.stop ≤ start + c.utf8Size + byteWidth (cs.take rest.length) := hstop
    show _ ∧ _ ∧ _ ≤ start + byteWidth ((c :: cs).take (1 + rest.length))
    rw [Nat.add_comm 1, List.take_succ_cons, byteWidth_cons]
    unfold Pos at *
    exact ⟨by omega, hlt, by omega⟩

section

variable (hquote : IsQuote quote) {start : Nat} {cs : List Char}
include hquote

/-- A body with nothing wrong in it has as many pieces as characters and escapes. -/
theorem read_units (hclosed : (read quote start cs).closed = true)
    (hfaults : (read quote start cs).faults = []) :
    (readPieces quote cs).length = (read quote start cs).units := by
  fun_induction read quote start cs with
  | case1 => cases hclosed
  | case2 => cases hclosed
  | case3 start cs hn => simp [readPieces, hn]
  | case4 start cs e rest hn hq ih =>
    obtain ⟨he, hrest⟩ := List.append_eq_nil_iff.1 hfaults
    have hcs : cs ≠ [] := by
      rintro rfl
      have hclosed : (read quote (start + 1 + byteWidth (([] : List Char).take e.width))
          (([] : List Char).drop e.width)).closed = true := hclosed
      rw [List.drop_nil, read] at hclosed
      cases hclosed
    obtain ⟨p, hp⟩ := (Escape.faults_eq_nil_iff hquote hcs start).1 he
    rw [readPieces, if_neg hn, if_neg hq, if_pos rfl, hp, List.length_append, ih hclosed hrest]
    rfl
  | case5 start c cs hn hq hb rest ih =>
    rw [readPieces, if_neg hn, if_neg hq, if_neg hb, List.length_cons, ih hclosed hfaults,
      Nat.add_comm]

/-- What is read of a body depends on what it takes and, where it is not closed, on the next
character. -/
theorem read_congr {rest : List Char} (h : (read quote start cs).closed = true ∨
      rest.head? = (cs.drop (read quote start cs).length).head?) :
    read quote start (cs.take (read quote start cs).length ++ rest) = read quote start cs := by
  fun_induction read quote start cs with
  | case1 start =>
    obtain rfl : rest = [] := List.head?_eq_none_iff.1 (h.resolve_left (by simp))
    rw [List.take_nil, List.append_nil, read]
  | case2 start cs =>
    obtain ⟨ds, rfl⟩ := List.head?_eq_some_iff.1 (h.resolve_left (by simp))
    rw [List.take_zero, List.nil_append, read, if_pos rfl]
  | case3 start cs hn =>
    rw [List.take_succ_cons, List.take_zero, List.singleton_append, read, if_neg hn, if_pos rfl]
  | case4 start cs e body hn hq ih =>
    dsimp only at h ⊢
    rw [drop_escape] at h
    -- behind the escape the body goes on as before
    have hhead : ((cs.drop e.width).take body.length ++ rest).head? = (cs.drop e.width).head? := by
      refine head?_take_append (h.imp_left fun hclosed => ?_)
      have hlength : body.length ≤ (cs.drop e.width).length ∧ (body.closed = true → 0 < body.length) :=
        read_length quote _ _
      exact ⟨hlength.2 hclosed, Nat.lt_of_lt_of_le (hlength.2 hclosed) hlength.1⟩
    have hescape : Escape.read quote
        (cs.take e.width ++ ((cs.drop e.width).take body.length ++ rest)) = e :=
      Escape.read_congr hquote hhead
    have hwidth : (cs.take e.width).length = e.width :=
      List.length_take_of_le (Escape.read_width quote cs)
    have hfaults (tail : List Char) : e.faults start (cs.take e.width ++ tail) =
        e.faults start cs := e.faults_congr start (List.take_left' hwidth)
    rw [take_escape, List.cons_append, List.append_assoc, read, if_neg hn, if_neg hq, if_pos rfl]
    dsimp only
    rw [hescape, hfaults, List.take_left' hwidth, List.drop_left' hwidth, ih h]
  | case5 start c cs hn hq hb body ih =>
    have htake : (c :: cs).take (1 + body.length) = c :: cs.take body.length := by
      rw [Nat.add_comm, List.take_succ_cons]
    have hdrop : (c :: cs).drop (1 + body.length) = cs.drop body.length := by
      rw [Nat.add_comm, List.drop_succ_cons]
    dsimp only at h ⊢
    rw [hdrop] at h
    rw [htake, List.cons_append, read, if_neg hn, if_neg hq, if_neg hb, ih h]

/-- An escape that is followed by a part of what follows it in the text is taken off as it was read. -/
theorem pieces?_escape {xs : List Char} (hxs : xs <+: cs.drop (Escape.read quote cs).width) :
    pieces? quote ('\\' :: (cs.take (Escape.read quote cs).width ++ xs)) =
      (Escape.read quote cs).outcome.toOption.bind fun p => (pieces? quote xs).map (p :: ·) := by
  have hplain : ¬ ('\\' = quote ∨ '\\' = '\n') := by
    rcases hquote with rfl | rfl <;> decide
  have hescape : Piece.escape? quote (cs.take (Escape.read quote cs).width ++ xs) =
      (Escape.read quote cs).outcome.toOption.map (·, xs) := by
    refine Piece.escape?_eq hquote fun c hc => ?_
    obtain ⟨ds, hds⟩ := hxs
    obtain ⟨ys, rfl⟩ := List.head?_eq_some_iff.1 hc
    rw [← hds]
    rfl
  rw [pieces?_cons, Piece.read?, if_neg hplain, if_pos rfl, hescape]
  cases (Escape.read quote cs).outcome with
  | ok p => rfl
  | error f => rfl

/-- **Both readers agree on bodies.**  What stands before a last quote is made of the pieces of the body
if the quote closes the body and nothing is wrong in it, and is no body otherwise. -/
theorem pieces?_eq (inner : List Char)
    (h : cs.take (read quote start cs).length = inner ++ [quote]) :
    pieces? quote inner =
      if (read quote start cs).closed = true ∧ (read quote start cs).faults = [] then
        some (readPieces quote cs)
      else none := by
  fun_induction read quote start cs generalizing inner with
  | case1 => cases inner <;> cases h
  | case2 => cases inner <;> cases h
  | case3 start cs hn =>
    obtain rfl : inner = [] := by
      have hlength := congrArg List.length h
      simpa using hlength
    rw [pieces?_nil, if_pos ⟨rfl, rfl⟩, readPieces, if_neg hn, if_pos rfl]
  | case4 start cs e body hn hq ih =>
    have h := (take_escape '\\' cs e.width body.length).symm.trans h
    cases inner with
    | nil => exact absurd (List.cons.inj h).1 hq
    | cons d inner =>
      obtain ⟨rfl, hinner⟩ := List.cons.inj h
      rcases List.eq_nil_or_concat ((cs.drop e.width).take body.length) with hnil | ⟨xs, x, hxs⟩
      · -- the quote belongs to the escape, which the end of the line or of the text cuts off
        have hopen : ¬ body.closed = true := fun hclosed => by
          obtain ⟨ds, hds⟩ := read_closed hclosed
          have hempty : ds ++ [quote] = [] := hds.symm.trans hnil
          cases ds <;> cases hempty
        rw [hnil, List.append_nil] at hinner
        obtain rfl := Escape.read_quote hquote hinner
        rw [pieces?_cons, Piece.read?, if_neg (not_or.2 ⟨hq, hn⟩), if_pos rfl,
          if_neg fun h => hopen h.1]
        rfl
      · rw [hxs, List.concat_eq_append, ← List.append_assoc] at hinner
        obtain ⟨rfl, hx⟩ := List.append_inj' hinner rfl
        obtain rfl := List.head_eq_of_cons_eq hx
        have hbody := ih xs (hxs.trans (List.concat_eq_append ..))
        have hprefix : xs <+: cs.drop e.width := by
          refine List.IsPrefix.trans ?_ (List.take_prefix body.length _)
          rw [hxs, List.concat_eq_append]
          exact List.prefix_append ..
        have hcs : cs ≠ [] := by
          rintro rfl
          rw [List.drop_nil, List.take_nil] at hxs
          cases xs <;> cases hxs
        have hescape : pieces? x ('\\' :: (cs.take e.width ++ xs)) =
            e.outcome.toOption.bind fun p => (pieces? x xs).map (p :: ·) :=
          pieces?_escape hquote hprefix
        have hpieces : readPieces x ('\\' :: cs) =
            e.outcome.toOption.toList ++ readPieces x (cs.drop e.width) := by
          rw [readPieces, if_neg hn, if_neg hq, if_pos rfl]
        have hclean : e.faults start cs = [] ↔ ∃ p, e.outcome = .ok p :=
          Escape.faults_eq_nil_iff hquote hcs start
        rw [hescape, hbody, hpieces]
        dsimp only
        cases houtcome : e.outcome with
        | ok p =>
          rw [hclean.2 ⟨p, houtcome⟩, List.nil_append]
          show Option.map (p :: ·) (ite _ _ _) = _
          split <;> rfl
        | error f =>
          refine (if_neg fun hboth => ?_).symm
          obtain ⟨p, hp⟩ := hclean.1 (List.append_eq_nil_iff.1 hboth.2).1
          rw [houtcome] at hp
          cases hp
  | case5 start c cs hn hq hb body ih =>
    have h : (c :: cs).take (1 + body.length) = inner ++ [quote] := h
    rw [Nat.add_comm, List.take_succ_cons] at h
    cases inner with
    | nil => exact absurd (List.cons.inj h).1 hq
    | cons d inner =>
      obtain ⟨rfl, hinner⟩ := List.cons.inj h
      have hread : Piece.read? quote (c :: inner) = some (.char c, inner) := by
        rw [Piece.read?, if_neg (not_or.2 ⟨hq, hn⟩), if_neg hb]
      rw [pieces?_cons, hread, Option.bind_some, ih inner hinner, readPieces, if_neg hn, if_neg hq,
        if_neg hb]
      split <;> rfl

/-- The characters of a closed body are read on their own as they are read in the text. -/
theorem read_taken (hclosed : (read quote start cs).closed = true) :
    read quote start (cs.take (read quote start cs).length) = read quote start cs := by
  have hcongr : read quote start (cs.take (read quote start cs).length ++ []) =
      read quote start cs := read_congr hquote (.inl hclosed)
  rwa [List.append_nil] at hcongr

end

end QuotedBody

/-! ### Literals -/

/-- The bytes that the characters and escapes of a literal stand for: between back quotes those of all
characters but carriage returns, and between other quotes those of its pieces. -/
def literalBytes (raw : String) : List UInt8 :=
  match raw.toList with
  | [] => []
  | q :: cs =>
    if q = backQuote then utf8 ((cs.takeWhile (· ≠ backQuote)).filter (· ≠ '\r'))
    else (readPieces q cs).flatMap Piece.bytes

/-- The bytes of a text are those of its characters. -/
theorem isValidUTF8_utf8 (cs : List Char) : (utf8 cs).toByteArray.IsValidUTF8 := ⟨cs, rfl⟩

theorem ofUtf8?_isSome (bytes : List UInt8) :
    (ofUtf8? bytes).isSome = true ↔ bytes.toByteArray.IsValidUTF8 := by
  unfold ofUtf8? String.fromUTF8?
  by_cases h : bytes.toByteArray.IsValidUTF8
  · rw [dif_pos h]
    exact iff_of_true rfl h
  · rw [dif_neg h]
    exact iff_of_false Bool.false_ne_true h

section Quoted

variable {quote : Char} (hquote : IsQuote quote) (cs : List Char)
include hquote

/-- What a literal between two quotes stands for. -/
theorem unquote?_quoted :
    let body := QuotedBody.read quote 1 cs
    let ps := readPieces quote (cs.take body.length)
    unquote? (String.ofList (quote :: cs.take body.length)) =
      if body.closed = true ∧ body.faults = [] ∧ (quote = '\'' → body.units = 1) then
        ofUtf8? (ps.flatMap Piece.bytes)
      else none := by
  intro body ps
  have hraw : quote ≠ backQuote := by
    rcases hquote with rfl | rfl <;> decide
  have hmem : quote = '"' ∨ quote = '\'' ∨ quote = backQuote := hquote.imp_right .inl
  unfold unquote?
  rw [String.toList_ofList]
  dsimp only
  -- A body that is cut off may end in a quote all the same, when the quote belongs to an escape; the
  -- pieces tell the two apart.
  by_cases hlast : (cs.take body.length).getLast? = some quote
  · obtain ⟨inner, hinner⟩ := List.getLast?_eq_some_iff.1 hlast
    rw [if_pos ⟨hmem, hlast⟩, hinner, List.dropLast_concat, unquoteBody?, if_neg hraw]
    by_cases hclean : body.closed = true ∧ body.faults = []
    · have htaken : QuotedBody.read quote 1 (cs.take body.length) = body :=
        QuotedBody.read_taken hquote hclean.1
      have htake : (cs.take body.length).take
          (QuotedBody.read quote 1 (cs.take body.length)).length = inner ++ [quote] := by
        rw [htaken, List.take_take, Nat.min_self, hinner]
      have hpieces := QuotedBody.pieces?_eq hquote inner htake
      rw [htaken, if_pos hclean] at hpieces
      have hunits : ps.length = body.units := by
        have hunits := QuotedBody.read_units hquote (by rw [htaken]; exact hclean.1)
          (by rw [htaken]; exact hclean.2)
        rwa [htaken] at hunits
      rw [hpieces, Option.bind_some]
      show (if quote = '\'' ∧ ps.length ≠ 1 then none else ofUtf8? (ps.flatMap Piece.bytes)) = _
      rw [hunits]
      by_cases hone : quote = '\'' → body.units = 1
      · rw [if_neg fun h => h.2 (hone h.1), if_pos ⟨hclean.1, hclean.2, hone⟩]
      · rw [if_pos (Classical.not_imp.1 hone), if_neg fun h => hone h.2.2]
    · have hpieces := QuotedBody.pieces?_eq hquote inner hinner
      rw [hpieces, if_neg hclean, if_neg fun h => hclean ⟨h.1, h.2.1⟩]
      rfl
  · rw [if_neg fun h => hlast h.2]
    refine (if_neg fun h => hlast ?_).symm
    obtain ⟨inner, hinner⟩ := QuotedBody.read_closed h.1
    rw [hinner]
    exact List.getLast?_concat

end Quoted

/-- A run that ends before the text does is followed by the character that ends it. -/
theorem take_runLength_succ {quote : Char} {cs : List Char}
    (h : runLength (· != quote) cs < cs.length) :
    cs.take (runLength (· != quote) cs + 1) = cs.take (runLength (· != quote) cs) ++ [quote] := by
  induction cs with
  | nil => exact absurd h (Nat.not_lt_zero _)
  | cons c cs ih =>
    by_cases hc : c = quote
    · have hrun : runLength (· != quote) (c :: cs) = 0 :=
        congrArg List.length (List.takeWhile_cons_of_neg (by simp [hc]))
      rw [hrun, hc]
      rfl
    · have hrun : runLength (· != quote) (c :: cs) = runLength (· != quote) cs + 1 :=
        congrArg List.length (List.takeWhile_cons_of_pos (p := (· != quote)) (bne_iff_ne.2 hc))
      rw [hrun] at h ⊢
      rw [List.take_succ_cons, List.take_succ_cons, ih (Nat.lt_of_succ_lt_succ h), List.cons_append]

/-- What a literal between back quotes stands for. -/
theorem unquote?_raw (cs : List Char) :
    let length := runLength (· != backQuote) cs
    let more := if length < cs.length then length + 1 else length
    unquote? (String.ofList (backQuote :: cs.take more)) =
      if length < cs.length then
        some (String.ofList ((cs.take length).filter (· ≠ '\r')))
      else none := by
  intro length more
  have htake : cs.take length = cs.takeWhile (· != backQuote) := take_runLength (· != backQuote) cs
  have hnone : backQuote ∉ cs.take length := fun h => by
    rw [htake] at h
    exact bne_iff_ne.1 (List.mem_takeWhile_imp (p := (· != backQuote)) h) rfl
  unfold unquote?
  rw [String.toList_ofList]
  dsimp only
  -- no back quote stands in the run, so only the one that ends the literal can be its last character
  by_cases hlength : length < cs.length
  · have hspelled : cs.take more = cs.take length ++ [backQuote] := by
      rw [show more = length + 1 from if_pos hlength, take_runLength_succ hlength]
    rw [hspelled, List.getLast?_concat, List.dropLast_concat, if_pos ⟨.inr (.inr rfl), rfl⟩,
      if_pos hlength, unquoteBody?, if_pos rfl, if_neg]
    rw [List.contains_iff_mem]
    exact hnone
  · rw [show more = length from if_neg hlength, if_neg hlength]
    exact if_neg fun h => hnone (List.mem_of_getLast? h.2)

/-- Only text between quotes is a literal. -/
theorem scan_literal {c : Char} {cs : List Char}
    (h : (scan c cs).kind = .string ∨ (scan c cs).kind = .char) :
    c = '"' ∧ scan c cs = scanString cs ∨ c = backQuote ∧ scan c cs = scanRawString cs ∨
      c = '\'' ∧ scan c cs = scanChar cs := by
  rcases h with h | h
  · cases kindForm h with
    | string hc hscan => exact .inl ⟨hc, hscan⟩
    | rawString hc hscan => exact .inr (.inl ⟨hc, hscan⟩)
  · cases kindForm h with
    | char hc hscan => exact .inr (.inr ⟨hc, hscan⟩)

/-! ### Faults lie in their tokens -/

/-- Every fault covers something of the token that it is found in. -/
def Scan.FaultsInside (s : Scan) (c : Char) (cs : List Char) : Prop :=
  ∀ e ∈ s.faults, e.span.start < e.span.stop ∧ e.span.stop ≤ byteWidth (c :: cs.take s.more)

/-- A fault that covers the token up to some place in it. -/
theorem Scan.faultsInside_of_start {s : Scan} {c : Char} {cs : List Char}
    (h : ∀ e ∈ s.faults, ∃ n ≤ s.more, e.span = ⟨0, byteWidth (c :: cs.take n)⟩) :
    s.FaultsInside c cs := by
  have hc := c.utf8Size_pos
  intro e he
  obtain ⟨n, hn, hspan⟩ := h e he
  have hprefix : byteWidth (cs.take s.more) =
      byteWidth (cs.take n) + byteWidth ((cs.drop n).take (s.more - n)) := by
    rw [← byteWidth_append, ← List.take_add, Nat.add_sub_cancel' hn]
  rw [hspan, byteWidth_cons, byteWidth_cons, hprefix]
  dsimp only
  unfold Pos at *
  exact ⟨by omega, by omega⟩

theorem scanNumber_faultsInside (c : Char) (cs : List Char) :
    (scanNumber (c :: cs)).FaultsInside c cs := by
  have hdecimal : (scanNumber.decimal (c :: cs) fun length f =>
      [⟨.invalidNumber f, ⟨0, byteWidth ((c :: cs).take length)⟩⟩]).FaultsInside c cs := by
    refine Scan.faultsInside_of_start fun e he => ?_
    unfold scanNumber.decimal at he ⊢
    dsimp only at he ⊢
    split at he
    · next hwhole =>
      rw [if_pos hwhole]
      dsimp only at he ⊢
      split at he
      · next hoctal =>
        refine ⟨_, Nat.le_refl _, ?_⟩
        rw [List.mem_singleton.1 he, ← List.take_succ_cons, Nat.sub_add_cancel]
        simp only [Bool.and_eq_true, decide_eq_true_eq] at hoctal
        exact Nat.le_of_lt hoctal.1.1
      · cases he
    · next hpart =>
      rw [if_neg hpart]
      dsimp only at he ⊢
      split at he
      · refine ⟨_, Nat.le_refl _, ?_⟩
        rw [List.mem_singleton.1 he, ← List.take_succ_cons, Nat.sub_add_cancel]
        omega
      · cases he
  unfold scanNumber
  dsimp only
  split
  · next x ds heq =>
    obtain ⟨rfl, rfl⟩ := List.cons.inj heq
    split
    · refine Scan.faultsInside_of_start fun e he => ?_
      dsimp only at he ⊢
      split at he
      · refine ⟨1, Nat.le_add_right .., ?_⟩
        rw [List.mem_singleton.1 he]
        rfl
      · cases he
    · exact hdecimal
  · exact hdecimal

/-- A token that has no faults. -/
theorem Scan.faultsInside_of_clean {s : Scan} {c : Char} {cs : List Char} (h : s.faults = []) :
    s.FaultsInside c cs := fun e he => by
  rw [h] at he
  cases he

/-- A literal between quotes: what is wrong with it as a whole covers it. -/
theorem Scan.faultsInside_of_body {s : Scan} {c quote : Char} {cs : List Char}
    {own : List LexError} (hc : c.utf8Size = 1)
    (hmore : s.more = (QuotedBody.read quote 1 cs).length)
    (hs : s.faults = (QuotedBody.read quote 1 cs).faults ++ own)
    (hown : ∀ e ∈ own, e.span = ⟨0, 1 + byteWidth (cs.take s.more)⟩) : s.FaultsInside c cs := by
  intro e he
  rw [byteWidth_cons, hc]
  rw [hs] at he
  rcases List.mem_append.1 he with he | he
  · rw [hmore]
    exact (QuotedBody.read_faults quote 1 cs e he).2
  · rw [hown e he]
    exact ⟨Nat.lt_of_lt_of_le Nat.one_pos (Nat.le_add_right ..), Nat.le_refl _⟩

/-- A token that takes the rest of the text: what is wrong with it covers all of it. -/
theorem Scan.faultsInside_of_rest {s : Scan} {c : Char} {cs : List Char} (hc : c.utf8Size = 1)
    (hmore : cs.length ≤ s.more) (hs : ∀ e ∈ s.faults, e.span = ⟨0, 1 + byteWidth cs⟩) :
    s.FaultsInside c cs := by
  refine faultsInside_of_start fun e he => ⟨s.more, Nat.le_refl _, ?_⟩
  rw [hs e he, List.take_of_length_le hmore, byteWidth_cons, hc]

/-- **Faults lie in their tokens.**  Every fault of a token covers something, and nothing outside. -/
theorem scan_faultsInside (c : Char) (cs : List Char) : (scan c cs).FaultsInside c cs := by
  have hown {p : Prop} [Decidable p] {k : LexErrorKind} {n : Nat} :
      ∀ e ∈ if p then [] else [(⟨k, ⟨0, 1 + byteWidth (cs.take n)⟩⟩ : LexError)],
        e.span = ⟨0, 1 + byteWidth (cs.take n)⟩ := by
    intro e he
    split at he
    · cases he
    · rw [List.mem_singleton.1 he]
  cases scanForm c cs with
  | word hc hscan => exact hscan ▸ Scan.faultsInside_of_clean rfl
  | number hc hscan => exact hscan ▸ scanNumber_faultsInside c cs
  | string hc hscan => exact hscan ▸ Scan.faultsInside_of_body (by rw [hc]; rfl) rfl rfl hown
  | rawString hc hscan =>
    rw [hscan]
    unfold scanRawString
    dsimp only
    split
    · exact Scan.faultsInside_of_clean rfl
    · next hlength =>
      exact Scan.faultsInside_of_rest (by rw [hc]; rfl) (Nat.not_lt.1 hlength) (by simp)
  | char hc hscan => exact hscan ▸ Scan.faultsInside_of_body (by rw [hc]; rfl) rfl rfl hown
  | lineComment hc hnext hscan => exact hscan ▸ Scan.faultsInside_of_clean rfl
  | blockComment hc hnext hscan =>
    rw [hscan]
    unfold scanBlockComment
    split
    · exact Scan.faultsInside_of_clean rfl
    · exact Scan.faultsInside_of_rest (by rw [hc]; rfl) (Nat.le_refl _) (by simp)
  | mark p hc hscan => exact hscan ▸ Scan.faultsInside_of_clean rfl
  | other hscan =>
    rw [hscan]
    refine Scan.faultsInside_of_start fun e he => ⟨0, Nat.le_refl _, ?_⟩
    rw [List.mem_singleton.1 he]
    rfl

/-! ### Literals in sources -/

/-- A literal between two quotes stands for something if it is closed, nothing is wrong in it, one
character stands between single quotes, and the bytes form a text. -/
theorem quoted_isSome {quote : Char} (hquote : IsQuote quote) (cs : List Char) :
    let body := QuotedBody.read quote 1 cs
    let raw := String.ofList (quote :: cs.take body.length)
    (unquote? raw).isSome = true ↔
      (body.closed = true ∧ body.faults = [] ∧ (quote = '\'' → body.units = 1)) ∧
        (literalBytes raw).toByteArray.IsValidUTF8 := by
  intro body raw
  have hraw : quote ≠ backQuote := by
    rcases hquote with rfl | rfl <;> decide
  have hbytes : literalBytes raw = (readPieces quote (cs.take body.length)).flatMap Piece.bytes := by
    unfold literalBytes
    rw [String.toList_ofList]
    exact if_neg hraw
  rw [unquote?_quoted hquote cs, hbytes]
  split
  · next h => rw [ofUtf8?_isSome, and_iff_right h]
  · next h => exact iff_of_false Bool.false_ne_true fun hall => h hall.1

/-- Literals that the reader of tokens finds. -/
theorem unquote?_scanned {c : Char} {cs : List Char}
    (h : (scan c cs).kind = .string ∨ (scan c cs).kind = .char) :
    let raw := String.ofList (c :: cs.take (scan c cs).more)
    (unquote? raw).isSome = true ↔
      (scan c cs).faults = [] ∧ (literalBytes raw).toByteArray.IsValidUTF8 := by
  have hfaults {p : Prop} [Decidable p] (xs : List LexError) (e : LexError) :
      xs ++ (if p then [] else [e]) = [] ↔ p ∧ xs = [] := by
    by_cases hp : p <;> simp [hp]
  intro raw
  rcases scan_literal h with ⟨rfl, hscan⟩ | ⟨rfl, hscan⟩ | ⟨rfl, hscan⟩
  · have hquoted := quoted_isSome (.inl rfl) cs
    have hclean : (scanString cs).faults = [] ↔ _ := hfaults _ _
    have hdouble : ¬ '"' = '\'' := by decide
    simp only [raw, hscan]
    rw [hclean]
    refine hquoted.trans (and_congr_left' ?_)
    simp only [hdouble, false_implies, and_true]
  · have hunquote := unquote?_raw cs
    have hvalid : (literalBytes raw).toByteArray.IsValidUTF8 := by
      unfold literalBytes
      rw [String.toList_ofList]
      dsimp only
      rw [if_pos rfl]
      exact isValidUTF8_utf8 _
    rw [and_iff_left hvalid]
    simp only [raw, hscan]
    unfold scanRawString
    dsimp only at hunquote ⊢
    split
    · next hlength =>
      rw [if_pos hlength, if_pos hlength] at hunquote
      rw [hunquote]
      exact iff_of_true rfl rfl
    · next hlength =>
      rw [if_neg hlength, if_neg hlength] at hunquote
      rw [hunquote]
      exact iff_of_false Bool.false_ne_true (List.cons_ne_nil _ _)
  · have hquoted := quoted_isSome (.inr rfl) cs
    have hclean : (scanChar cs).faults = [] ↔ _ := hfaults _ _
    simp only [raw, hscan]
    rw [hclean]
    refine hquoted.trans (and_congr_left' ?_)
    simp only [true_implies, Bool.and_eq_true, beq_iff_eq]
    rw [and_assoc]
    exact and_congr_right' and_comm

/-- The token that starts with `c`, which has the given position. -/
def ScannedToken.read (pos : Pos) (c : Char) (cs : List Char) : ScannedToken :=
  let s := scan c cs
  let spelling := c :: cs.take s.more
  { token := ⟨s.kind, String.ofList (tokenText s.kind spelling), ⟨pos, pos + byteWidth spelling⟩⟩
    faults := s.faults.map (·.shift pos) }

/-- Every token of a text is read where it stands, from a character that separates none. -/
theorem exists_read_at {pos : Pos} {cs : List Char} {t : ScannedToken} (h : t ∈ tokensFrom pos cs) :
    ∃ before c ds, ¬ isSeparator c = true ∧ cs = before ++ c :: ds ∧
      t = .read (pos + byteWidth before) c ds := by
  fun_induction tokensFrom pos cs with
  | case1 => cases h
  | case2 pos c cs hs ih =>
    obtain ⟨before, d, ds, hd, rfl, ht⟩ := ih h
    exact ⟨c :: before, d, ds, hd, rfl, by rw [ht, byteWidth_cons, Nat.add_assoc]⟩
  | case3 pos c cs hs s spelling stop ih =>
    rcases List.mem_cons.1 h with h | h
    · exact ⟨[], c, cs, hs, rfl, h⟩
    · obtain ⟨before, d, ds, hd, hrest, ht⟩ := ih h
      refine ⟨spelling ++ before, d, ds, hd, ?_, ?_⟩
      · rw [List.append_assoc, ← hrest]
        exact congrArg (c :: ·) (List.take_append_drop s.more cs).symm
      · rw [ht, byteWidth_append, ← Nat.add_assoc]

/-- Every token of a text is read at some place of it. -/
theorem exists_read {pos : Pos} {cs : List Char} {t : ScannedToken} (h : t ∈ tokensFrom pos cs) :
    ∃ p c ds, t = .read p c ds := by
  obtain ⟨before, c, ds, -, -, ht⟩ := exists_read_at h
  exact ⟨_, c, ds, ht⟩

/-- Each token of a text ends before the next one starts. -/
theorem tokensFrom_disjoint (pos : Pos) (cs : List Char) :
    (tokensFrom pos cs).Pairwise fun t u => t.token.span.stop ≤ u.token.span.start := by
  fun_induction tokensFrom pos cs with
  | case1 => exact .nil
  | case2 pos c cs hs ih => exact ih
  | case3 pos c cs hs s spelling stop ih =>
    exact List.pairwise_cons.2 ⟨fun t ht => ((tokensFrom_within stop _).1 t ht).start, ih⟩

/-- The faults of a token cover something of it. -/
theorem ScannedToken.read_faults {p : Pos} {c : Char} {ds : List Char} :
    ∀ e ∈ (read p c ds).faults, e.span.start < e.span.stop ∧
      (read p c ds).token.span.contains e.span = true := by
  intro e he
  obtain ⟨f, hf, rfl⟩ := List.mem_map.1 he
  obtain ⟨hlt, hle⟩ := scan_faultsInside c ds f hf
  refine ⟨Nat.add_lt_add_left hlt p, ?_⟩
  simp only [Span.contains, Bool.and_eq_true, decide_eq_true_eq]
  exact ⟨Nat.le_add_right p _, Nat.add_le_add_left hle p⟩

/-- What covers something of a span lies in no other one that ends before it or starts behind it. -/
theorem not_contains_of_apart {s t u : Span} (hlt : s.start < s.stop) (hinside : t.contains s = true)
    (hapart : t.stop ≤ u.start ∨ u.stop ≤ t.start) : ¬ u.contains s = true := by
  intro hin
  simp only [Span.contains, Bool.and_eq_true, decide_eq_true_eq] at hin hinside
  unfold Pos at *
  omega

/-- The faults of a token lie in no token that ends before it or starts behind it. -/
theorem ScannedToken.filter_faults_apart {s : Span} {us : List ScannedToken}
    (hread : ∀ u ∈ us, ∃ p c ds, u = read p c ds)
    (hapart : ∀ u ∈ us, u.token.span.stop ≤ s.start ∨ s.stop ≤ u.token.span.start) :
    (us.flatMap (·.faults)).filter (fun e => s.contains e.span) = [] := by
  refine List.filter_eq_nil_iff.2 fun e he hin => ?_
  obtain ⟨u, hu, he⟩ := List.mem_flatMap.1 he
  have hapart := hapart u hu
  obtain ⟨p, c, ds, rfl⟩ := hread u hu
  obtain ⟨hlt, hinside⟩ := read_faults e he
  exact not_contains_of_apart hlt hinside hapart hin

/-- What a text reports inside of a token is what is wrong with that token. -/
theorem filter_faults {pos : Pos} {cs : List Char} {t : ScannedToken} (h : t ∈ tokensFrom pos cs) :
    ((tokensFrom pos cs).flatMap (·.faults)).filter (fun e => t.token.span.contains e.span) =
      t.faults := by
  have hread (u : ScannedToken) (hu : u ∈ tokensFrom pos cs) := exists_read hu
  have hdisjoint := tokensFrom_disjoint pos cs
  obtain ⟨xs, ys, hsplit⟩ := List.append_of_mem h
  rw [hsplit] at hread hdisjoint ⊢
  obtain ⟨-, hys, hxs⟩ := List.pairwise_append.1 hdisjoint
  have hbefore := ScannedToken.filter_faults_apart (s := t.token.span)
    (fun u hu => hread u (List.mem_append_left _ hu))
    fun u hu => .inl (hxs u hu t List.mem_cons_self)
  have hbehind := ScannedToken.filter_faults_apart (s := t.token.span)
    (fun u hu => hread u (List.mem_append_right _ (List.mem_cons_of_mem t hu)))
    fun u hu => .inr ((List.pairwise_cons.1 hys).1 u hu)
  have hown : t.faults.filter (fun e => t.token.span.contains e.span) = t.faults := by
    obtain ⟨p, c, ds, rfl⟩ := exists_read h
    exact List.filter_eq_self.2 fun e he => (ScannedToken.read_faults e he).2
  rw [List.flatMap_append, List.flatMap_cons, List.filter_append, List.filter_append, hbefore,
    hbehind, hown, List.nil_append, List.append_nil]

theorem faults_eq_nil_iff {pos : Pos} {cs : List Char} {t : ScannedToken}
    (h : t ∈ tokensFrom pos cs) : t.faults = [] ↔
      ∀ e ∈ (tokensFrom pos cs).flatMap (·.faults), t.token.span.contains e.span = false := by
  rw [← filter_faults h, List.filter_eq_nil_iff]
  exact forall₂_congr fun e _ => Bool.not_eq_true _ ▸ Iff.rfl

/-- Every token of a source but the end of the file is read off its text. -/
theorem exists_scanned {base : Pos} {source : String} {t : Token}
    (ht : t ∈ (scanSource base source).allTokens) (hkind : t.kind ≠ .eof) :
    ∃ u ∈ tokensFrom base source.toList, u.token = t := by
  rcases List.mem_append.1 ht with ht | ht
  · exact List.mem_map.1 ht
  · rw [List.mem_singleton.1 ht] at hkind
    exact absurd rfl hkind

/-- Both readers agree on literals: a literal of a source stands for something just where nothing
is reported inside of it and the bytes of its characters and escapes form a text. -/
theorem unquote?_isSome_iff (base : Pos) (source : String) (t : Token)
    (ht : t ∈ (scanSource base source).allTokens) (hkind : t.kind = .string ∨ t.kind = .char) :
    (unquote? t.text).isSome = true ↔
      (∀ e ∈ (scanSource base source).errors, t.span.contains e.span = false) ∧
        (literalBytes t.text).toByteArray.IsValidUTF8 := by
  have hne : t.kind ≠ .eof := by
    rcases hkind with hkind | hkind <;> simp [hkind]
  obtain ⟨u, hu, rfl⟩ := exists_scanned ht hne
  have hfaults : u.faults = [] ↔
      ∀ e ∈ (scanSource base source).errors, u.token.span.contains e.span = false :=
    faults_eq_nil_iff hu
  rw [← hfaults]
  obtain ⟨p, c, ds, rfl⟩ := exists_read hu
  have hscan : (scan c ds).kind = .string ∨ (scan c ds).kind = .char := hkind
  have htext : tokenText (scan c ds).kind (c :: ds.take (scan c ds).more) =
      c :: ds.take (scan c ds).more := by
    refine if_neg fun h => ?_
    rw [h.1] at hscan
    rcases hscan with hscan | hscan <;> cases hscan
  have hnil : (ScannedToken.read p c ds).faults = [] ↔ (scan c ds).faults = [] := List.map_eq_nil_iff
  show (unquote? (String.ofList (tokenText _ _))).isSome = true ↔
    _ ∧ (literalBytes (String.ofList (tokenText _ _))).toByteArray.IsValidUTF8
  rw [htext, hnil]
  exact unquote?_scanned hscan

end Idl
