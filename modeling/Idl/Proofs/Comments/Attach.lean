/-
Idl/Proofs/Comments/Attach.lean

Which comments trail a token and which lead one.

Between two tokens that count for the grammar there may be comments.  Those that go on from the line of
the first token, each where the one before it ends, trail that token, unless something goes on where they
end (`trailingGroup`).  The others fall into groups at blank lines, and the last group leads the second
token if it ends right above it (`leadingGroup`).  Here all lines are those of places in the source: what
the texts of comments say about lines agrees with them (`Grouping.Orderly`).

Main result: whenever parsing has reached a token, the comments that it finds there are those that trail
the token in front and those that lead the token itself (`comments_attached`).
-/
import Idl.Proofs.Comments.Lines
import Idl.Proofs.Syntax.Ending
import Mathlib.Data.List.SplitBy

namespace Idl

/-! ### Comments between tokens -/

/-- The comment that a token is. -/
def Token.comment (t : Token) : Comment := ⟨t.pos, t.text⟩

/-- The comments that some tokens are, as a group. -/
def CommentGroup.ofTokens (cs : List Token) : CommentGroup := ⟨cs.map Token.comment⟩

/-- Of the tokens `ts`, `b` counts for the grammar, and `a` is the last one in front of it that does, if
there is one.  What stands between them does not count: the comments `cs`, and perhaps illegal text. -/
def StandBetween (ts : List Token) (a : Option Token) (cs : List Token) (b : Token) : Prop :=
  ∃ front idle back, ts = front ++ (idle ++ b :: back) ∧ front.getLast? = a ∧ (∀ t ∈ a, ¬ t.IsIdle) ∧
    (∀ t ∈ idle, t.IsIdle) ∧ ¬ b.IsIdle ∧ cs = idle.filter fun t => t.kind = .comment

section Grouping

variable (lineOf : Pos → Nat)

/-- The comments that go on from the line of the token in front of them: the first starts on that line,
and each further one on the line on which the one before it ends. -/
def sameLineRun (a : Option Token) (cs : List Token) : List Token :=
  if ∃ t ∈ a, ∃ c ∈ cs.head?, lineOf c.pos = lineOf t.pos then
    (cs.splitBy fun c d => lineOf d.pos == lineOf c.span.stop).headD []
  else []

/-- Comments in groups: each further one of a group starts at most a line below the end of the one
before it. -/
def blocksOf (cs : List Token) : List (List Token) :=
  cs.splitBy fun c d => decide (lineOf d.pos ≤ lineOf c.span.stop + 1)

/-- The comments that trail the token `a`, if `cs` stand between it and `b`. -/
def trailingGroup (a : Option Token) (cs : List Token) (b : Token) : Option CommentGroup :=
  let run := sameLineRun lineOf a cs
  if ∃ c ∈ run.getLast?, b.kind = .eof ∨ lineOf b.pos ≠ lineOf c.span.stop then some (.ofTokens run)
  else none

/-- The comments that lead the token `b`, if `cs` stand between `a` and it. -/
def leadingGroup (a : Option Token) (cs : List Token) (b : Token) : Option CommentGroup :=
  let rest := cs.drop (sameLineRun lineOf a cs).length
  ((blocksOf lineOf rest).getLast?.filter fun g =>
    g.getLast?.any fun c => lineOf c.span.stop + 1 == lineOf b.pos).map .ofTokens

/-! ### Groups by lines -/

/-- A group is a longest run of comments each of which starts close enough to the one before it. -/
theorem groupLength_run {r : Token → Token → Bool} {gap : Nat} {c : Token} {cs : List Token}
    (h : (c :: cs).IsChain fun x y =>
      r x y = decide (lineOf y.pos ≤ x.comment.endLine lineOf + gap)) :
    let n := groupLength lineOf gap (c.comment.endLine lineOf) (cs.map Token.comment)
    (c :: cs.take n).IsChain (fun x y => r x y = true) ∧
      ∀ x ∈ (c :: cs.take n).getLast?, ∀ y ∈ (cs.drop n).head?, r x y = false := by
  intro n
  -- the group goes on from each comment in it, so `c` is any comment
  induction cs generalizing c with
  | nil => exact ⟨.singleton c, fun x _ y hy => by cases hy⟩
  | cons d ds ih =>
    obtain ⟨hcd, hds⟩ := List.isChain_cons_cons.1 h
    by_cases hle : lineOf d.pos ≤ c.comment.endLine lineOf + gap
    · have hn : n = groupLength lineOf gap (d.comment.endLine lineOf) (ds.map Token.comment) + 1 :=
        (if_pos hle).trans (Nat.add_comm 1 _)
      obtain ⟨hchain, hbreak⟩ := ih hds
      rw [hn, List.take_succ_cons, List.drop_succ_cons, List.getLast?_cons_cons]
      exact ⟨.cons_cons (hcd.trans (decide_eq_true hle)) hchain, hbreak⟩
    · have hn : n = 0 := if_neg hle
      rw [hn]
      refine ⟨.singleton c, fun x hx y hy => ?_⟩
      obtain rfl := Option.some.inj hx
      obtain rfl := Option.some.inj hy
      exact hcd.trans (decide_eq_false hle)

/-- Splitting comments where one is not close enough to the one before it splits off the first group. -/
theorem splitBy_groupLength {r : Token → Token → Bool} {gap : Nat} {c : Token} {cs : List Token}
    (h : (c :: cs).IsChain fun x y =>
      r x y = decide (lineOf y.pos ≤ x.comment.endLine lineOf + gap)) :
    let n := groupLength lineOf gap (c.comment.endLine lineOf) (cs.map Token.comment)
    (c :: cs).splitBy r = (c :: cs.take n) :: (cs.drop n).splitBy r := by
  intro n
  obtain ⟨hchain, hbreak⟩ := groupLength_run lineOf h
  have hfirst : (c :: cs.take n).splitBy r = [c :: cs.take n] :=
    List.splitBy_of_isChain (List.cons_ne_nil c _) hchain
  calc (c :: cs).splitBy r
      = ((c :: cs.take n) ++ cs.drop n).splitBy r := by rw [List.cons_append, List.take_append_drop]
    _ = (c :: cs.take n).splitBy r ++ (cs.drop n).splitBy r := List.splitBy_append hbreak
    _ = (c :: cs.take n) :: (cs.drop n).splitBy r := by rw [hfirst, List.singleton_append]

/-- Comments, and the token `b` behind them, that stand as tokens of a source do: their texts say where
they end, and they come in order. -/
structure Orderly (cs : List Token) (b : Token) : Prop where
  ends : ∀ c ∈ cs, c.comment.endLine lineOf = lineOf c.span.stop
  spans : ∀ c ∈ cs, lineOf c.pos ≤ lineOf c.span.stop
  ordered : (cs ++ [b]).Pairwise fun c d => lineOf c.span.stop ≤ lineOf d.pos

variable {lineOf}

namespace Orderly

variable {cs : List Token} {b : Token}

theorem drop (h : Orderly lineOf cs b) (n : Nat) : Orderly lineOf (cs.drop n) b where
  ends c hc := h.ends c (List.mem_of_mem_drop hc)
  spans c hc := h.spans c (List.mem_of_mem_drop hc)
  ordered := h.ordered.sublist ((List.drop_sublist n cs).append_right [b])

/-- Being close enough is the same by the lines of places and by the texts of comments. -/
theorem chain (h : Orderly lineOf cs b) (gap : Nat) : cs.IsChain fun x y =>
    decide (lineOf y.pos ≤ lineOf x.span.stop + gap) =
      decide (lineOf y.pos ≤ x.comment.endLine lineOf + gap) := by
  have hpairs : cs.Pairwise fun x y => decide (lineOf y.pos ≤ lineOf x.span.stop + gap) =
      decide (lineOf y.pos ≤ x.comment.endLine lineOf + gap) :=
    (List.pairwise_append.1 h.ordered).1.imp_of_mem fun hx _ _ => by rw [h.ends _ hx]
  exact hpairs.isChain

/-- On the line on which the one before it ends a comment starts if it does not start below. -/
theorem chain_same (h : Orderly lineOf cs b) : cs.IsChain fun x y =>
    (lineOf y.pos == lineOf x.span.stop) =
      decide (lineOf y.pos ≤ x.comment.endLine lineOf + 0) := by
  have hpairs : cs.Pairwise fun x y => (lineOf y.pos == lineOf x.span.stop) =
      decide (lineOf y.pos ≤ x.comment.endLine lineOf + 0) := by
    refine (List.pairwise_append.1 h.ordered).1.imp_of_mem fun {x y} hx _ hle => ?_
    rw [h.ends x hx, Bool.eq_iff_iff, beq_iff_eq, decide_eq_true_eq]
    omega
  exact hpairs.isChain

/-- The groups of comments are the groups by lines. -/
theorem commentGroups_eq (h : Orderly lineOf cs b) :
    commentGroups lineOf (cs.map Token.comment) = (blocksOf lineOf cs).map .ofTokens := by
  induction hn : cs.length using Nat.strong_induction_on generalizing cs with
  | _ n ih =>
    cases cs with
    | nil => simp [commentGroups, blocksOf]
    | cons c cs =>
      have hsplit := splitBy_groupLength lineOf (h.chain 1)
      have hlength : (cs.drop (groupLength lineOf 1 (c.comment.endLine lineOf)
          (cs.map Token.comment))).length < n := by
        rw [List.length_drop, ← hn, List.length_cons]
        omega
      have htail : Orderly lineOf cs b := h.drop 1
      have hrest := ih _ hlength (htail.drop _) rfl
      unfold blocksOf at hrest ⊢
      rw [hsplit, List.map_cons, List.map_cons, commentGroups, ← List.map_drop, hrest,
        ← List.map_take]
      rfl

/-- The comments on the line of the token in front are those that go on from it. -/
theorem sameLine_eq (h : Orderly lineOf cs b) {a : Option Token} {line : Nat}
    (hsome : ∀ t ∈ a, lineOf t.pos = line) (hnone : a = none → ∀ c ∈ cs, lineOf c.pos ≠ line) :
    sameLineComments lineOf line (cs.map Token.comment) =
      (sameLineRun lineOf a cs).map Token.comment := by
  cases cs with
  | nil =>
    have hrun : sameLineRun lineOf a [] = [] := ite_self _
    rw [hrun]
    rfl
  | cons c cs =>
    have hiff : (∃ t ∈ a, ∃ d ∈ (c :: cs).head?, lineOf d.pos = lineOf t.pos) ↔
        lineOf c.pos = line := by
      constructor
      · rintro ⟨t, ht, d, hd, hline⟩
        rw [Option.some.inj hd, hline, hsome t ht]
      · intro hline
        cases a with
        | none => exact absurd hline (hnone rfl c List.mem_cons_self)
        | some t => exact ⟨t, rfl, c, rfl, hline.trans (hsome t rfl).symm⟩
    unfold sameLineRun
    rw [List.map_cons, sameLineComments]
    by_cases hline : lineOf c.comment.slash = line
    · rw [if_pos hline, if_pos (hiff.2 hline), splitBy_groupLength lineOf h.chain_same,
        List.headD_cons, List.map_cons, List.map_take]
    · rw [if_neg hline, if_neg (fun hex => hline (hiff.1 hex))]
      rfl

/-- The comments that go on from the line of the token in front come first, and whatever comes behind
them starts below their end. -/
theorem run_split (h : Orderly lineOf cs b) (a : Option Token) :
    ∃ rest, cs = sameLineRun lineOf a cs ++ rest ∧ ∀ c ∈ (sameLineRun lineOf a cs).getLast?,
      ∀ d ∈ rest.head?, lineOf c.span.stop < lineOf d.pos := by
  unfold sameLineRun
  split
  · cases cs with
    | nil => exact ⟨[], rfl, fun c hc => by cases hc⟩
    | cons c cs =>
      obtain ⟨-, hbreak⟩ := groupLength_run lineOf h.chain_same
      rw [splitBy_groupLength lineOf h.chain_same, List.headD_cons]
      refine ⟨_, (congrArg (c :: ·) (List.take_append_drop _ cs)).symm, fun x hx y hy => ?_⟩
      have hle : lineOf x.span.stop ≤ lineOf y.pos := by
        refine (List.pairwise_append.1 (h.ordered.sublist ?_)).2.2 x (List.mem_of_getLast? hx) y
          (List.mem_of_head? hy)
        rw [List.cons_append, List.take_append_drop]
        exact List.sublist_append_left ..
      have hne : (lineOf y.pos == lineOf x.span.stop) = false := hbreak x hx y hy
      exact Nat.lt_of_le_of_ne hle fun heq => by simp [heq] at hne
  · exact ⟨cs, rfl, fun c hc => by cases hc⟩

/-- What is handed to the token `b`: the comments that trail the token in front of it, and those that
lead it. -/
theorem attach_eq (h : Orderly lineOf cs b) {a : Option Token} {line : Nat}
    (hsome : ∀ t ∈ a, lineOf t.pos = line) (hnone : a = none → ∀ c ∈ cs, lineOf c.pos ≠ line) :
    (attachComments lineOf line (cs.map Token.comment) b).trailing = trailingGroup lineOf a cs b ∧
      (attachComments lineOf line (cs.map Token.comment) b).lead = leadingGroup lineOf a cs b := by
  obtain ⟨rest, hrest, hbelow⟩ := h.run_split a
  have hafter {run : List Token} (h : cs = run ++ rest) : cs.drop run.length = rest := by
    rw [h, List.drop_left]
  have hdrop := hafter hrest
  have hrestOrderly : Orderly lineOf rest b := hdrop ▸ h.drop _
  have hsame := h.sameLine_eq hsome hnone
  unfold attachComments
  simp only [hsame, List.length_map, ← List.map_drop, hdrop, hrestOrderly.commentGroups_eq]
  constructor
  · unfold trailingGroup
    dsimp only
    generalize sameLineRun lineOf a cs = run at hbelow hrest
    rcases hlast : run.getLast? with - | c
    · rw [List.getLast?_eq_none_iff.1 hlast]
      simp
    · have hne : run ≠ [] := fun hnil => by rw [hnil] at hlast; cases hlast
      have hmem : c ∈ cs := hrest ▸ List.mem_append_left _ (List.mem_of_getLast? hlast)
      have hend : CommentGroup.endLine lineOf ⟨run.map Token.comment⟩ = lineOf c.span.stop := by
        simp [CommentGroup.endLine, hlast, h.ends c hmem]
      rw [hend]
      -- a comment behind the run is below its end, and so is the token behind that comment
      have hbehind {d : Token} {ds : List Token} (hd : rest = d :: ds) :
          lineOf d.pos ≠ lineOf c.span.stop ∧ lineOf b.pos ≠ lineOf c.span.stop := by
        have hlt := hbelow c hlast d (by rw [hd]; rfl)
        have hspan := hrestOrderly.spans d (by rw [hd]; exact List.mem_cons_self)
        have hle := (List.pairwise_append.1 hrestOrderly.ordered).2.2 d
          (by rw [hd]; exact List.mem_cons_self) b (List.mem_singleton_self b)
        omega
      cases rest with
      | nil => simp [hne, or_comm, CommentGroup.ofTokens]
      | cons d ds =>
        obtain ⟨hd, hb⟩ := hbehind rfl
        have hslash : d.comment.slash = d.pos := rfl
        simp [hne, hslash, hd, hb, CommentGroup.ofTokens]
  · unfold leadingGroup
    dsimp only
    rw [hdrop, List.getLast?_map, Option.filter_map]
    congr 1
    rcases hlast : (blocksOf lineOf rest).getLast? with - | g
    · rfl
    · have hg : g ∈ List.splitBy _ rest := List.mem_of_getLast? hlast
      obtain ⟨c, hc⟩ := Option.ne_none_iff_exists'.1
        (mt List.getLast?_eq_none_iff.1 (List.ne_nil_of_mem_splitBy hg))
      have hmem : c ∈ rest := by
        rw [← List.flatten_splitBy _ rest]
        exact List.mem_flatten.2 ⟨g, hg, List.mem_of_getLast? hc⟩
      have hend : (CommentGroup.ofTokens g).endLine lineOf = lineOf c.span.stop := by
        simp [CommentGroup.endLine, CommentGroup.ofTokens, hc, hrestOrderly.ends c hmem]
      rw [Option.filter_some, Option.filter_some, Function.comp_apply, hend, hc]
      rfl

end Orderly

/-! ### Among the tokens of a file -/

/-- Comments and illegal text go to the token behind them. -/
theorem significantFrom_idle (lineOf : Pos → Nat) (line : Nat) (held : List Comment)
    {idle : List Token} (hidle : ∀ t ∈ idle, t.IsIdle) {b : Token} (hb : ¬ b.IsIdle)
    (back : List Token) : significantFrom lineOf line held (idle ++ b :: back) =
      attachComments lineOf line (held.reverse ++ commentsOf idle) b ::
        significantFrom lineOf (lineOf b.pos) [] back := by
  induction idle generalizing held with
  | nil =>
    rw [List.nil_append, significantFrom, commentsOf, List.filter_nil, List.map_nil, List.append_nil]
    split
    · next hk => exact absurd (.inr hk) hb
    · next hk => exact absurd (.inl hk) hb
    · rfl
  | cons t ts ih =>
    obtain ⟨ht, hts⟩ := List.forall_mem_cons.1 hidle
    rw [List.cons_append, significantFrom]
    rcases ht with hk | hk
    · have hcomments : commentsOf (t :: ts) = t.comment :: commentsOf ts := by
        simp [commentsOf, hk, Token.comment]
      rw [hk]
      dsimp only
      rw [ih _ hts, hcomments, List.reverse_cons, List.append_assoc]
      rfl
    · have hcomments : commentsOf (t :: ts) = commentsOf ts := by simp [commentsOf, hk]
      rw [hk]
      dsimp only
      rw [ih _ hts, hcomments]

/-- What stands behind a token that counts does not depend on what stands in front of it, save for the
line of that token. -/
theorem significantFrom_behind (lineOf : Pos → Nat) (line : Nat) (held : List Comment)
    (front : List Token) {a : Token} (ha : ¬ a.IsIdle) (rest : List Token) :
    ∃ ts x, significantFrom lineOf line held (front ++ a :: rest) =
      ts ++ x :: significantFrom lineOf (lineOf a.pos) [] rest ∧ x.token = a := by
  induction front generalizing line held with
  | nil =>
    refine ⟨[], attachComments lineOf line held.reverse a, ?_, rfl⟩
    have hidle : ∀ t ∈ ([] : List Token), t.IsIdle := nofun
    exact (significantFrom_idle lineOf line held hidle ha rest).trans
      (by rw [commentsOf, List.filter_nil, List.map_nil, List.append_nil]; rfl)
  | cons t front ih =>
    rw [List.cons_append, significantFrom]
    split
    · exact ih line held
    · exact ih line _
    · obtain ⟨ts, x, heq, hx⟩ := ih (lineOf t.pos) []
      exact ⟨_ :: ts, x, congrArg _ heq, hx⟩

/-- The token `b` among the tokens that count. -/
theorem significant_between (lineOf : Pos → Nat) {ts : List Token} {a : Option Token}
    {cs : List Token} {b : Token} (h : StandBetween ts a cs b) :
    ∃ front back, significant lineOf ts = front ++
        attachComments lineOf ((a.map fun t => lineOf t.pos).getD 0) (cs.map Token.comment) b :: back ∧
      (front.map (·.token)).getLast? = a := by
  obtain ⟨front, idle, back, rfl, hlast, ha, hidle, hb, rfl⟩ := h
  unfold significant
  rcases List.eq_nil_or_concat front with rfl | ⟨init, t, rfl⟩
  · obtain rfl : none = a := hlast
    exact ⟨[], _, significantFrom_idle lineOf 0 [] hidle hb back, rfl⟩
  · obtain rfl : some t = a := by rw [← hlast]; simp
    obtain ⟨ts, x, heq, rfl⟩ :=
      significantFrom_behind lineOf 0 [] init (ha t rfl) (idle ++ b :: back)
    rw [List.concat_eq_append, List.append_assoc, List.singleton_append, heq,
      significantFrom_idle lineOf _ [] hidle hb back]
    exact ⟨ts ++ [x], _, by rw [List.append_assoc]; rfl, by simp⟩

end Grouping

/-! ### While a source is parsed -/

namespace Source

variable (s : Source) (files : FileSet) (symbols : SymbolTable)

/-- The state in which the source is parsed behind other files, from its first token on. -/
def startAt : ParseState :=
  let f := s.fileAt files.next
  .start f files.files.size symbols (significant f.lineOf (s.tokensAt files.next))

/-- A source that is not refused is parsed from there. -/
theorem file_startAt {r : ParseResult} (h : parseFile files symbols s.name s.text = .ok r) :
    ∃ groups, r.file = (Parse.file groups (s.startAt files symbols)).1 := by
  rw [parseFile_eq_of] at h
  split at h
  · cases h
  · rw [← Except.ok.inj h]
    exact ⟨_, rfl⟩

theorem startAt_ready (hbegun : files.next ≠ 0) : (s.startAt files symbols).Ready :=
  let f : SourceFile := { name := s.name, base := files.next, size := s.text.utf8ByteSize }
  Idl.start_ready f files.files.size symbols s.text hbegun (utf8ByteSize_eq s.text)

/-- The tokens to parse, with the end of the file, are those that count. -/
theorem left_startAt : (s.startAt files symbols).left ++ [(s.startAt files symbols).eof] =
    significant (s.fileAt files.next).lineOf (s.tokensAt files.next) := by
  have hne : significant (s.fileAt files.next).lineOf (s.tokensAt files.next) ≠ [] :=
    (significant_allTokens _ files.next s.text).2.1
  unfold startAt ParseState.start
  dsimp only
  rw [List.getLastD_eq_getLast?, List.getLast?_eq_some_getLast hne, Option.getD_some]
  exact List.dropLast_append_getLast hne

variable {base : Pos}

/-- What stands between two tokens of a source stands as tokens of a source do. -/
theorem orderly (hbase : base ≠ 0) {a : Option Token} {cs : List Token} {b : Token}
    (h : StandBetween (s.tokensAt base) a cs b) : Orderly (s.fileAt base).lineOf cs b := by
  obtain ⟨front, idle, back, hts, -, -, -, -, rfl⟩ := h
  have hsub : (idle.filter (fun t => t.kind = .comment) ++ [b]).Sublist (s.tokensAt base) := by
    rw [hts]
    refine List.Sublist.trans ?_ (List.sublist_append_right front _)
    exact List.filter_sublist.append (List.singleton_sublist.2 List.mem_cons_self)
  have hmem {c : Token} (hc : c ∈ idle.filter fun t => t.kind = .comment) :
      c ∈ s.tokensAt base := hsub.subset (List.mem_append_left _ hc)
  constructor
  · intro c hc
    exact s.endLine_comment hbase (hmem hc) (of_decide_eq_true (List.mem_filter.1 hc).2)
  · intro c hc
    obtain ⟨hstart, hspan, hstop⟩ := s.within_tokensAt base (hmem hc)
    exact s.lineOf_mono hbase hstart hspan hstop
  · exact (s.lines_ordered hbase).sublist hsub

/-- No token of a source is on line 0. -/
theorem lineOf_token (hbase : base ≠ 0) {t : Token} (ht : t ∈ s.tokensAt base) :
    (s.fileAt base).lineOf t.pos ≠ 0 := by
  obtain ⟨hstart, hspan, hstop⟩ := s.within_tokensAt base ht
  obtain ⟨n, hn⟩ := Nat.exists_eq_add_of_le hstart
  have hle : n ≤ (bytesOf s.text).length := by
    rw [s.length_bytesOf]
    unfold Pos at *
    omega
  rw [hn, s.lineOf_fileAt hbase hle]
  omega

/-- Among the tokens to parse is every one that counts, behind the one in front of it, with the comments
that stand between them: those that trail the one in front, and those that lead it. -/
theorem attached (hbegun : files.next ≠ 0) {a : Option Token} {cs : List Token} {b : Token}
    (h : StandBetween (s.tokensAt files.next) a cs b) : ∃ front y back,
      (s.startAt files symbols).left ++ [(s.startAt files symbols).eof] = front ++ y :: back ∧
      (front.map (·.token)).getLast? = a ∧ y.token = b ∧
      y.trailing = trailingGroup (s.fileAt files.next).lineOf a cs b ∧
      y.lead = leadingGroup (s.fileAt files.next).lineOf a cs b := by
  obtain ⟨front, back, htokens, hlast⟩ := significant_between (s.fileAt files.next).lineOf h
  -- in front of the first token the line is 0, on which no comment stands
  have hfirst : a = none → ∀ c ∈ cs, (s.fileAt files.next).lineOf c.pos ≠
      (a.map fun t => (s.fileAt files.next).lineOf t.pos).getD 0 := by
    rintro rfl c hc
    obtain ⟨front, idle, back, hts, -, -, -, -, rfl⟩ := h
    refine s.lineOf_token hbegun ?_
    rw [hts]
    exact List.mem_append_right _ (List.mem_append_left _ (List.mem_filter.1 hc).1)
  have hline : ∀ t ∈ a, (s.fileAt files.next).lineOf t.pos =
      (a.map fun t => (s.fileAt files.next).lineOf t.pos).getD 0 := by
    rintro t rfl
    rfl
  obtain ⟨htrailing, hleading⟩ := (s.orderly hbegun h).attach_eq hline hfirst
  exact ⟨front, _, back, (s.left_startAt files symbols).trans htokens, hlast, rfl, htrailing, hleading⟩

end Source

/-- A list is split at an element in one way only, if no two elements have the same key. -/
theorem split_unique {α β : Type} {key : α → β} {xs ys xs' ys' : List α} {x x' : α}
    (hnodup : ((xs ++ x :: ys).map key).Nodup) (heq : xs ++ x :: ys = xs' ++ x' :: ys')
    (hkey : key x = key x') : xs = xs' ∧ ys = ys' := by
  have hlength : xs.length = xs'.length := by
    have hmap := congrArg (List.map key) heq
    rw [List.map_append, List.map_append, List.map_cons, List.map_cons, hkey] at hmap
    rw [List.map_append, List.map_cons, hkey] at hnodup
    have hfront : key x' ∉ xs.map key := fun h =>
      (List.nodup_append.1 hnodup).2.2 _ h _ List.mem_cons_self rfl
    have hback : key x' ∉ ys.map key := (List.nodup_cons.1 (List.nodup_append.1 hnodup).2.1).1
    have hsplit := (List.append_cons_inj_of_notMem hfront hback).1 hmap
    simpa using congrArg List.length hsplit.1
  obtain ⟨hxs, hcons⟩ := List.append_inj heq hlength
  exact ⟨hxs, (List.cons.inj hcons).2⟩

theorem headD_of_concat {α : Type} {xs : List α} {x y : α} {ys : List α}
    (h : xs ++ [x] = y :: ys) : xs.headD x = y := by
  cases xs with
  | nil => exact (List.cons.inj h).1
  | cons z zs => exact (List.cons.inj h).1

/-- Parsing from `s` on has got to `t`, right behind the token `x`, and the comments that lead the next
one are not taken yet. -/
structure ParseState.RightBehind (s : ParseState) (x : SignificantToken) (t : ParseState) : Prop where
  left : x :: t.left <:+ s.left
  eof : t.eof = s.eof
  lead : t.lead = t.current.lead

/-- Where parsing gets to behind a token, the next one of those to parse is the current one. -/
theorem ParseState.RightBehind.current {s t : ParseState} {x : SignificantToken}
    (h : s.RightBehind x t) (hs : s.Ready) {front back : List SignificantToken}
    {y : SignificantToken} (hleft : s.left ++ [s.eof] = front ++ y :: back)
    (hlast : (front.map (·.token)).getLast? = some x.token) : t.current = y := by
  obtain ⟨pre, hpre⟩ := h.left
  obtain ⟨init, z, rfl, hz⟩ : ∃ init z, front = init ++ [z] ∧ z.token = x.token := by
    rcases List.eq_nil_or_concat front with rfl | ⟨init, z, rfl⟩
    · cases hlast
    · exact ⟨init, z, List.concat_eq_append, by simpa using hlast⟩
  -- tokens start at places of their own, so there is one place at which to split them behind `x`
  have hnodup : ((s.left ++ [s.eof]).map (·.token.pos)).Nodup := by
    have hpos : (s.tokens.map Token.pos).Nodup :=
      List.pairwise_map.2 (hs.increasing.imp fun h => Nat.ne_of_lt h)
    have htokens : s.tokens = (s.left ++ [s.eof]).map (·.token) := by
      rw [List.map_append]
      rfl
    rwa [htokens, List.map_map] at hpos
  have heq : pre ++ x :: (t.left ++ [s.eof]) = init ++ z :: (y :: back) := by
    rw [← List.cons_append, ← List.append_assoc, hpre, hleft, List.append_assoc]
    rfl
  rw [← hpre, List.append_assoc, List.cons_append] at hnodup
  have hrest := (split_unique hnodup heq (congrArg Token.pos hz.symm)).2
  show t.left.headD t.eof = y
  rw [h.eof]
  exact headD_of_concat hrest

/-- Parsing from `s` on gets to `t`: right behind the token `a`, or at its start. -/
inductive ParseState.Reaches (s : ParseState) : Option Token → ParseState → Prop
  | start : Reaches s none s
  | behind {tr : Trace} {u : ParseState} {x : SignificantToken} {rest : List SignificantToken}
    (r : Run s tr u) (h : u.left = x :: rest) : Reaches s (some x.token) (Parse.advance u).2

/-- Where parsing gets to, the next one of the tokens to parse is the current one, and its comments are
found there. -/
theorem ParseState.Reaches.current {s t : ParseState} {a : Option Token} (h : s.Reaches a t)
    (hs : s.Ready) (hlead : s.lead = s.current.lead) {front back : List SignificantToken}
    {y : SignificantToken} (hleft : s.left ++ [s.eof] = front ++ y :: back)
    (hlast : (front.map (·.token)).getLast? = a) : t.current = y ∧ t.lead = y.lead := by
  cases h with
  | start =>
    obtain rfl : front = [] := by simpa using hlast
    have hcurrent : s.current = y := headD_of_concat hleft
    exact ⟨hcurrent, hlead.trans (congrArg _ hcurrent)⟩
  | @behind tr u x rest r h =>
    have hbehind : s.RightBehind x (Parse.advance u).2 := by
      rw [Parse.advance_of_left h]
      exact ⟨h ▸ r.left_suffix, r.frame.2.2.2, rfl⟩
    have hcurrent := hbehind.current hs hleft hlast
    exact ⟨hcurrent, hbehind.lead.trans (congrArg _ hcurrent)⟩

/-- All tokens in front of those that are to be left can be taken. -/
theorem exists_run_left {s : ParseState} {taken rest : List SignificantToken}
    (h : s.left = taken ++ rest) : ∃ tr u, Run s tr u ∧ u.left = rest := by
  induction taken generalizing s with
  | nil => exact ⟨[], s, .nil s, h⟩
  | cons x taken ih =>
    obtain ⟨tr, u, r, hu⟩ := ih (s := s.took (taken ++ rest)) rfl
    exact ⟨_, u, .cons (.take h) r, hu⟩

/-- Parsing can get to every token. -/
theorem ParseState.exists_reaches {s : ParseState} {front back : List SignificantToken}
    {y : SignificantToken} (hleft : s.left ++ [s.eof] = front ++ y :: back) :
    ∃ t, s.Reaches (front.map (·.token)).getLast? t := by
  rcases List.eq_nil_or_concat front with rfl | ⟨init, z, rfl⟩
  · exact ⟨s, .start⟩
  · have hsplit : s.left = init ++ z :: (y :: back).dropLast := by
      have hdrop := congrArg List.dropLast hleft
      rw [List.dropLast_concat, List.concat_eq_append, List.append_assoc,
        List.dropLast_append_of_ne_nil (List.append_ne_nil_of_left_ne_nil (List.cons_ne_nil z []) _),
        List.dropLast_append_of_ne_nil (List.cons_ne_nil y back)] at hdrop
      exact hdrop
    obtain ⟨tr, u, r, hu⟩ := exists_run_left hsplit
    rw [List.concat_eq_append, List.map_append, List.map_singleton, List.getLast?_concat]
    exact ⟨_, .behind r hu⟩

/-- **Comments are attached by lines.**  Let the comments `cs` stand between the token `a` of a source and
the next one that counts, `b`; or in front of the first one, if `a` is none.  Parsing starts with the
first token and gets to `b`, and whenever it has got there, the comments found as trailing `a` are those
that go on from the line on which `a` starts, unless `b` goes on where they end, and those found as
leading `b` are the last group of the others, if that ends right above `b`. -/
theorem comments_attached (files : FileSet) (symbols : SymbolTable) (s : Source)
    (hbegun : files.next ≠ 0) :
    (∀ r, parseFile files symbols s.name s.text = .ok r →
      ∃ groups, r.file = (Parse.file groups (s.startAt files symbols)).1) ∧
    ∀ {a : Option Token} {cs : List Token} {b : Token}, StandBetween (s.tokensAt files.next) a cs b →
      (∃ t, (s.startAt files symbols).Reaches a t) ∧
      ∀ t, (s.startAt files symbols).Reaches a t → t.current.token = b ∧
        (Parse.trailing t).1 = trailingGroup (s.fileAt files.next).lineOf a cs b ∧
        t.lead = leadingGroup (s.fileAt files.next).lineOf a cs b := by
  refine ⟨fun r hr => s.file_startAt files symbols hr, ?_⟩
  intro a cs b hbetween
  obtain ⟨front, y, back, hleft, hlast, hy, htrailing, hleading⟩ :=
    s.attached files symbols hbegun hbetween
  refine ⟨hlast ▸ ParseState.exists_reaches hleft, fun t hreached => ?_⟩
  obtain ⟨hcurrent, hlead⟩ :=
    hreached.current (s.startAt_ready files symbols hbegun) rfl hleft hlast
  refine ⟨(congrArg SignificantToken.token hcurrent).trans hy, ?_, hlead.trans hleading⟩
  show t.current.trailing = _
  rw [hcurrent, htrailing]

/-- A source with comments that trail, comments that lead and comments that do neither, and with illegal
text between them. -/
def richlyCommented : Source := ⟨"a.mid", String.intercalate "\n"
  ["package p /* one", "two */ ? // three", "", "// far", "", "// near", "/* right above */",
    "struct S \x7b\x7d"]⟩

theorem comments_attached_richly :
    let name : Token := ⟨.ident, "p", ⟨9, 10⟩⟩
    let comments : List Token := [⟨.comment, "/* one\ntwo */", ⟨11, 24⟩⟩,
      ⟨.comment, "// three", ⟨27, 35⟩⟩, ⟨.comment, "// far", ⟨37, 43⟩⟩,
      ⟨.comment, "// near", ⟨45, 52⟩⟩, ⟨.comment, "/* right above */", ⟨53, 70⟩⟩]
    let behind : Token := ⟨.keyword .struct, "struct", ⟨71, 77⟩⟩
    FileSet.next {} ≠ 0 ∧
      StandBetween (richlyCommented.tokensAt (FileSet.next {})) (some name) comments behind ∧
      ∃ t, (richlyCommented.startAt {} {}).Reaches (some name) t ∧ t.current.token = behind ∧
        (Parse.trailing t).1 = some ⟨[⟨11, "/* one\ntwo */"⟩, ⟨27, "// three"⟩]⟩ ∧
        t.lead = some ⟨[⟨45, "// near"⟩, ⟨53, "/* right above */"⟩]⟩ := by
  intro name comments behind
  have hbegun : FileSet.next {} ≠ 0 := by decide
  have hbetween : StandBetween (richlyCommented.tokensAt (FileSet.next {})) (some name) comments
      behind := by
    let tokens := richlyCommented.tokensAt (FileSet.next {})
    exact ⟨tokens.take 2, (tokens.drop 2).take 6, tokens.drop 9, by decide +kernel⟩
  obtain ⟨⟨t, ht⟩, h⟩ := (comments_attached {} {} richlyCommented hbegun).2 hbetween
  obtain ⟨hcurrent, htrailing, hlead⟩ := h t ht
  refine ⟨hbegun, hbetween, t, ht, hcurrent, ?_, ?_⟩
  · rw [htrailing]
    decide +kernel
  · rw [hlead]
    decide +kernel

end Idl
