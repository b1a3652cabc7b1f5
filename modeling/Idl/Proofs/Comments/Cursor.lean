/-
Idl/Proofs/Comments/Cursor.lean

The tokens of a file read through a cursor.

The state of parsing holds the tokens that count and that are left.  Here the same tokens are read in
place: a cursor is an index into all tokens of a file, comments and illegal text among them, and to move
it on means to skip illegal text and to gather comments in groups (`Cursor.advance`).

From an index at which no illegal text stands, the cursor gathers the comments up to the next token that
counts (`Ahead`), and hands them out as `attachComments` does (`Ahead.collect`).  So a move leads from
one token that counts to the next (`Stands.advance`), and after as many moves as tokens were taken the
cursor is where parsing is (`Source.at_run`).

Main result: whatever parsing does, the cursor rests on a token that counts, never moves backwards, and
stays only at the end of the file (`cursor_rests`).
-/
import Idl.Proofs.Comments.Attach
import Idl.Proofs.Token.Lossless

namespace Idl

/-! ### The cursor -/

/-- Where parsing stands among all tokens of a file. -/
structure Cursor where
  /-- The place of the current token. -/
  index : Nat
  /-- The comments that lead the current token. -/
  lead : Option CommentGroup
  /-- The comments that trail the token before. -/
  trailing : Option CommentGroup
  /-- The groups of comments up to the current token. -/
  groups : List CommentGroup

namespace Cursor

section Moves

variable (lineOf : Pos → Nat) (ts : List Token)

/-- The token at an index, or the last one if the index is too large. -/
def tokenAt (i : Nat) : Token := ts.getD (min i (ts.length - 1)) ⟨.eof, "", .ofPos 0⟩

/-- Skips illegal text, but no last token. -/
def skipIllegal (i : Nat) : Nat :=
  if i + 1 < ts.length ∧ (tokenAt ts i).kind = .illegal then skipIllegal (i + 1) else i
termination_by ts.length - i

/-- Moves one token on, unless the end of the file is reached, and skips illegal text. -/
def next (i : Nat) : Nat := skipIllegal ts (if (tokenAt ts i).kind = .eof then i else i + 1)

/-- Adds comments to a group that ends on `endLine` as long as each starts at most `gap` lines below the
end of the one before it.  Answers with the group, the line on which it ends and the index behind it. -/
def consumeGroup (gap endLine : Nat) (cs : List Comment) (i : Nat) : CommentGroup × Nat × Nat :=
  let t := tokenAt ts i
  if t.kind = .comment ∧ lineOf t.pos ≤ endLine + gap then
    let j := next ts i
    -- at a comment, which is no last token, the index always grows
    if ts.length - j < ts.length - i then
      consumeGroup gap (t.comment.endLine lineOf) (cs ++ [t.comment]) j
    else (⟨cs ++ [t.comment]⟩, t.comment.endLine lineOf, j)
  else (⟨cs⟩, endLine, i)
termination_by ts.length - i

/-- Gathers groups as long as there are comments.  Answers with all groups, the last one with the line on
which it ends, and the index behind it. -/
def consumeGroups (groups : List CommentGroup) (last : Option (CommentGroup × Nat)) (i : Nat) :
    List CommentGroup × Option (CommentGroup × Nat) × Nat :=
  let t := tokenAt ts i
  if t.kind = .comment then
    let (g, endLine, j) := consumeGroup lineOf ts 1 (lineOf t.pos) [] i
    if ts.length - j < ts.length - i then consumeGroups (groups ++ [g]) (some (g, endLine)) j
    else (groups ++ [g], some (g, endLine), j)
  else (groups, last, i)
termination_by ts.length - i

/-- Gathers the group on the line `prevLine`, on which the token before starts, if there is one.  It
trails that token, unless something other than the end of the file follows on the line on which it ends.
Answers with all groups, the one that trails, and the index behind it. -/
def consumeTrailing (prevLine : Nat) (groups : List CommentGroup) (i : Nat) :
    List CommentGroup × Option CommentGroup × Nat :=
  let t := tokenAt ts i
  if t.kind = .comment ∧ lineOf t.pos = prevLine then
    let (g, endLine, j) := consumeGroup lineOf ts 0 (lineOf t.pos) [] i
    let trails := lineOf (tokenAt ts j).pos ≠ endLine ∨ (tokenAt ts j).kind = .eof
    (groups ++ [g], if trails then some g else none, j)
  else (groups, none, i)

/-- Gathers the comments from an index on.  The last group leads the token behind it if it ends on the
line above. -/
def collect (prevLine : Nat) (groups : List CommentGroup) (i : Nat) : Cursor :=
  let (groups, trailing, i) := consumeTrailing lineOf ts prevLine groups i
  let (groups, last, i) := consumeGroups lineOf ts groups none i
  { index := i
    lead := (last.filter fun g => g.2 + 1 == lineOf (tokenAt ts i).pos).map (·.1)
    trailing, groups }

/-- The cursor at the first token.  No token precedes it, and no line is 0. -/
def start : Cursor := collect lineOf ts 0 [] (skipIllegal ts 0)

/-- Moves the cursor on to the next token. -/
def advance (c : Cursor) : Cursor :=
  collect lineOf ts (lineOf (tokenAt ts c.index).pos) c.groups (next ts c.index)

/-- The cursor after some moves. -/
def after (n : Nat) : Cursor := (advance lineOf ts)^[n] (start lineOf ts)

end Moves

end Cursor

/-! ### What is ahead -/

/-- At an index there is no illegal text, and from there on there are the comments `cs`, and then the
token `b` and the tokens `back`. -/
structure Ahead (ts : List Token) (i : Nat) (cs : List Comment) (b : Token) (back : List Token) :
    Prop where
  counts : ¬ b.IsIdle
  tokens : ∃ idle, ts.drop i = idle ++ b :: back ∧ (∀ t ∈ idle, t.IsIdle) ∧
    (∀ t ∈ idle.head?, t.kind ≠ .illegal) ∧ commentsOf idle = cs

/-- The line of the next comment, or of the token behind the comments if there is none. -/
def lineAhead (lineOf : Pos → Nat) (b : Token) : List Comment → Nat
  | [] => lineOf b.pos
  | c :: _ => lineOf c.slash

theorem commentsOf_cons_comment {t : Token} (h : t.kind = .comment) (ts : List Token) :
    commentsOf (t :: ts) = t.comment :: commentsOf ts := by
  simp [commentsOf, h, Token.comment]

theorem commentsOf_cons_illegal {t : Token} (h : t.kind = .illegal) (ts : List Token) :
    commentsOf (t :: ts) = commentsOf ts := by
  simp [commentsOf, h]

section Ahead

open Cursor

variable {ts : List Token} {i : Nat} {b : Token} {back : List Token}

theorem lt_length_of_drop {t : Token} {rest : List Token} (h : ts.drop i = t :: rest) :
    i < ts.length := by
  refine Nat.lt_of_not_le fun hle => ?_
  rw [List.drop_eq_nil_iff.2 hle] at h
  cases h

theorem drop_succ_of_drop {t : Token} {rest : List Token} (h : ts.drop i = t :: rest) :
    ts.drop (i + 1) = rest := by
  rw [← List.drop_drop, h, List.drop_one, List.tail_cons]

theorem tokenAt_of_drop {t : Token} {rest : List Token} (h : ts.drop i = t :: rest) :
    tokenAt ts i = t := by
  have hlt := lt_length_of_drop h
  have hget : ts[i]? = some t := by rw [← List.head?_drop, h, List.head?_cons]
  unfold tokenAt
  rw [Nat.min_eq_left (by omega), List.getD_eq_getElem?_getD, hget, Option.getD_some]

/-- Skipping stops at a comment, or at a token that counts. -/
theorem ahead_skipIllegal (hb : ¬ b.IsIdle) {idle : List Token} (hidle : ∀ t ∈ idle, t.IsIdle)
    (h : ts.drop i = idle ++ b :: back) :
    Ahead ts (skipIllegal ts i) (commentsOf idle) b back ∧ i ≤ skipIllegal ts i := by
  induction idle generalizing i with
  | nil =>
    have hlegal : (tokenAt ts i).kind ≠ .illegal := by
      rw [tokenAt_of_drop h]
      exact fun hk => hb (.inr hk)
    rw [skipIllegal, if_neg fun hi => hlegal hi.2]
    exact ⟨⟨hb, [], h, hidle, nofun, rfl⟩, Nat.le_refl i⟩
  | cons t idle ih =>
    obtain ⟨ht, hrest⟩ := List.forall_mem_cons.1 hidle
    have hnext := drop_succ_of_drop h
    by_cases hk : t.kind = .illegal
    · have hlt : i + 1 < ts.length := by
        refine Nat.lt_of_not_le fun hle => ?_
        rw [List.drop_eq_nil_iff.2 hle] at hnext
        exact List.append_ne_nil_of_right_ne_nil idle (List.cons_ne_nil b back) hnext.symm
      rw [skipIllegal, if_pos ⟨hlt, by rw [tokenAt_of_drop h, hk]⟩, commentsOf_cons_illegal hk]
      obtain ⟨hahead, hle⟩ := ih hrest hnext
      exact ⟨hahead, by omega⟩
    · rw [skipIllegal, if_neg fun hi => hk (tokenAt_of_drop h ▸ hi.2)]
      exact ⟨⟨hb, t :: idle, h, hidle, fun u hu => Option.some.inj hu ▸ hk, rfl⟩, Nat.le_refl i⟩

/-- Behind a token the cursor moves on to what is ahead. -/
theorem ahead_next (hb : ¬ b.IsIdle) {t : Token} (ht : t.kind ≠ .eof) {idle : List Token}
    (hidle : ∀ t ∈ idle, t.IsIdle) (h : ts.drop i = t :: (idle ++ b :: back)) :
    Ahead ts (next ts i) (commentsOf idle) b back ∧ i < next ts i := by
  obtain ⟨hahead, hle⟩ := ahead_skipIllegal hb hidle (drop_succ_of_drop h)
  unfold next
  rw [if_neg (by rwa [tokenAt_of_drop h])]
  exact ⟨hahead, hle⟩

namespace Ahead

/-- Where no comment is ahead, the token is reached. -/
theorem drop_eq (h : Ahead ts i [] b back) : ts.drop i = b :: back := by
  obtain ⟨-, idle, hdrop, hidle, hlegal, hcomments⟩ := h
  cases idle with
  | nil => exact hdrop
  | cons t idle =>
    have hk : t.kind = .comment := (hidle t List.mem_cons_self).resolve_right (hlegal t rfl)
    rw [commentsOf_cons_comment hk] at hcomments
    cases hcomments

theorem tokenAt_eq (h : Ahead ts i [] b back) : tokenAt ts i = b := tokenAt_of_drop h.drop_eq

/-- Where no comment is ahead, there is none. -/
theorem kind_ne (h : Ahead ts i [] b back) : (tokenAt ts i).kind ≠ .comment := by
  rw [h.tokenAt_eq]
  exact fun hk => h.counts (.inl hk)

/-- A comment is the current token, and behind it are the others. -/
theorem cons {c : Comment} {cs : List Comment} (h : Ahead ts i (c :: cs) b back) :
    (tokenAt ts i).kind = .comment ∧ (tokenAt ts i).comment = c ∧
      Ahead ts (next ts i) cs b back ∧ ts.length - next ts i < ts.length - i := by
  obtain ⟨hb, idle, hdrop, hidle, hlegal, hcomments⟩ := h
  cases idle with
  | nil => cases hcomments
  | cons t idle =>
    obtain ⟨ht, hrest⟩ := List.forall_mem_cons.1 hidle
    have hk : t.kind = .comment := ht.resolve_right (hlegal t rfl)
    rw [commentsOf_cons_comment hk] at hcomments
    obtain ⟨hc, hcs⟩ := List.cons.inj hcomments
    obtain ⟨hahead, hlt⟩ := ahead_next hb (by rw [hk]; decide) hrest hdrop
    have hlength := lt_length_of_drop hdrop
    rw [tokenAt_of_drop hdrop]
    exact ⟨hk, hc, hcs ▸ hahead, by omega⟩

variable (lineOf : Pos → Nat)

theorem line_eq {c : Comment} {cs : List Comment} (h : Ahead ts i (c :: cs) b back) :
    lineOf (tokenAt ts i).pos = lineOf c.slash := by
  rw [← h.cons.2.1]
  rfl

/-- A group takes as many comments as belong to it. -/
theorem consumeGroup {cs : List Comment} (h : Ahead ts i cs b back) (gap endLine : Nat)
    (acc : List Comment) :
    let n := groupLength lineOf gap endLine cs
    ∃ j, Cursor.consumeGroup lineOf ts gap endLine acc i = (⟨acc ++ cs.take n⟩,
        ((cs.take n).getLast?.map (·.endLine lineOf)).getD endLine, j) ∧
      Ahead ts j (cs.drop n) b back ∧ i ≤ j := by
  induction cs generalizing i endLine acc with
  | nil =>
    rw [Cursor.consumeGroup]
    dsimp only
    rw [if_neg fun hc => h.kind_ne hc.1, List.take_nil, List.append_nil]
    exact ⟨i, rfl, h, Nat.le_refl i⟩
  | cons c cs ih =>
    obtain ⟨hk, hc, hahead, hlt⟩ := h.cons
    have hline := h.line_eq lineOf
    rw [Cursor.consumeGroup]
    dsimp only
    by_cases hle : lineOf c.slash ≤ endLine + gap
    · have hn : groupLength lineOf gap endLine (c :: cs) =
          groupLength lineOf gap (c.endLine lineOf) cs + 1 :=
        (if_pos hle).trans (Nat.add_comm 1 _)
      rw [if_pos ⟨hk, hline ▸ hle⟩, if_pos hlt, hc, hn, List.take_succ_cons, List.drop_succ_cons]
      obtain ⟨j, heq, hrest, hij⟩ := ih hahead (c.endLine lineOf) (acc ++ [c])
      refine ⟨j, heq.trans ?_, hrest, by omega⟩
      rw [List.append_assoc, List.singleton_append, List.getLast?_cons]
      cases (cs.take _).getLast? <;> rfl
    · have hn : groupLength lineOf gap endLine (c :: cs) = 0 := if_neg hle
      rw [if_neg fun hi => hle (hline ▸ hi.2), hn, List.take_zero, List.append_nil]
      exact ⟨i, rfl, h, Nat.le_refl i⟩

/-- A group that begins with the comment ahead. -/
theorem consumeGroup_cons {c : Comment} {cs : List Comment} (h : Ahead ts i (c :: cs) b back)
    (gap : Nat) :
    let n := groupLength lineOf gap (c.endLine lineOf) cs
    ∃ j, Cursor.consumeGroup lineOf ts gap (lineOf c.slash) [] i =
        (⟨c :: cs.take n⟩, CommentGroup.endLine lineOf ⟨c :: cs.take n⟩, j) ∧
      Ahead ts j (cs.drop n) b back ∧ ts.length - j < ts.length - i := by
  obtain ⟨hk, hc, hahead, hlt⟩ := h.cons
  have hline := h.line_eq lineOf
  obtain ⟨j, heq, hrest, hij⟩ :=
    hahead.consumeGroup lineOf gap (c.endLine lineOf) [c]
  refine ⟨j, ?_, hrest, by omega⟩
  rw [Cursor.consumeGroup]
  dsimp only
  rw [if_pos ⟨hk, hline ▸ Nat.le_add_right _ gap⟩, if_pos hlt, hc, List.nil_append, heq]
  unfold CommentGroup.endLine
  rw [List.singleton_append, List.getLast?_cons]
  cases (cs.take _).getLast? <;> rfl

/-- The groups are those at blank lines. -/
theorem consumeGroups {cs : List Comment} (h : Ahead ts i cs b back) (seen : List CommentGroup)
    (last : Option (CommentGroup × Nat)) :
    ∃ j, Cursor.consumeGroups lineOf ts seen last i = (seen ++ commentGroups lineOf cs,
        ((commentGroups lineOf cs).getLast?.map fun g => (g, g.endLine lineOf)).or last, j) ∧
      Ahead ts j [] b back ∧ i ≤ j := by
  fun_induction commentGroups lineOf cs generalizing i seen last with
  | case1 =>
    rw [Cursor.consumeGroups]
    dsimp only
    rw [if_neg h.kind_ne, List.append_nil]
    exact ⟨i, rfl, h, Nat.le_refl i⟩
  | case2 c cs n =>
    rename_i ih
    obtain ⟨hk, hc, -, -⟩ := h.cons
    have hline := h.line_eq lineOf
    obtain ⟨j, heq, hrest, hlt⟩ := h.consumeGroup_cons lineOf 1
    obtain ⟨k, hgroups, hdone, hjk⟩ := ih hrest (seen ++ [_]) (some (_, CommentGroup.endLine lineOf _))
    rw [Cursor.consumeGroups]
    dsimp only
    rw [if_pos hk, hline, heq]
    dsimp only
    rw [if_pos hlt]
    refine ⟨k, hgroups.trans ?_, hdone, by omega⟩
    rw [List.append_assoc, List.singleton_append, List.getLast?_cons]
    cases (commentGroups lineOf _).getLast? <;> rfl

/-- The cursor is on the line of what is ahead. -/
theorem follows_iff {cs : List Comment} (h : Ahead ts i cs b back) (line : Nat) :
    (lineOf (tokenAt ts i).pos ≠ line ∨ (tokenAt ts i).kind = .eof) ↔
      (lineAhead lineOf b cs ≠ line ∨ (cs = [] ∧ b.kind = .eof)) := by
  cases cs with
  | nil => simp [h.tokenAt_eq, lineAhead]
  | cons c cs =>
    obtain ⟨hk, -, -, -⟩ := h.cons
    simp [hk, h.line_eq lineOf, lineAhead]

/-- The group that is gathered first is that of the comments on the line of the token before. -/
theorem consumeTrailing {cs : List Comment} (h : Ahead ts i cs b back) (prevLine : Nat)
    (seen : List CommentGroup) :
    let same := sameLineComments lineOf prevLine cs
    ∃ j, Cursor.consumeTrailing lineOf ts prevLine seen i =
        (if same = [] then seen else seen ++ [⟨same⟩],
          (attachComments lineOf prevLine cs b).trailing, j) ∧
      Ahead ts j (cs.drop same.length) b back ∧ i ≤ j := by
  intro same
  have hattach : (attachComments lineOf prevLine cs b).trailing = if same ≠ [] ∧
      (lineAhead lineOf b (cs.drop same.length) ≠ CommentGroup.endLine lineOf ⟨same⟩ ∨
        (cs.drop same.length = [] ∧ b.kind = .eof)) then some ⟨same⟩ else none := rfl
  rw [hattach]
  unfold Cursor.consumeTrailing
  dsimp only
  cases cs with
  | nil =>
    rw [if_neg fun hc => h.kind_ne hc.1]
    exact ⟨i, rfl, h, Nat.le_refl i⟩
  | cons c cs =>
    obtain ⟨hk, hc, -, -⟩ := h.cons
    have hline := h.line_eq lineOf
    by_cases hsame : lineOf c.slash = prevLine
    · obtain ⟨j, heq, hrest, hlt⟩ := h.consumeGroup_cons lineOf 0
      have hgroup : same = c :: cs.take (groupLength lineOf 0 (c.endLine lineOf) cs) := if_pos hsame
      have hne : same ≠ [] := hgroup ▸ List.cons_ne_nil _ _
      have hdrop : (c :: cs).drop same.length =
          cs.drop (groupLength lineOf 0 (c.endLine lineOf) cs) := by
        rw [hgroup, List.length_cons, List.drop_succ_cons, List.length_take, List.drop_eq_drop_iff]
        omega
      rw [if_pos ⟨hk, hline.trans hsame⟩, hline, heq, hdrop, if_neg hne, ← hgroup]
      refine ⟨j, ?_, hrest, by omega⟩
      simp only [hrest.follows_iff lineOf, hne, ne_eq, not_false_eq_true, true_and]
    · have hgroup : same = [] := if_neg hsame
      rw [if_neg fun hi => hsame (hline ▸ hi.2), hgroup]
      exact ⟨i, rfl, h, Nat.le_refl i⟩

theorem collect {cs : List Comment} (h : Ahead ts i cs b back) (prevLine : Nat)
    (seen : List CommentGroup) :
    let x := attachComments lineOf prevLine cs b
    ∃ j, Cursor.collect lineOf ts prevLine seen i = ⟨j, x.lead, x.trailing, seen ++ x.groups⟩ ∧
      ts.drop j = b :: back ∧ i ≤ j := by
  intro x
  obtain ⟨j, htrailing, hrest, hij⟩ := h.consumeTrailing lineOf prevLine seen
  obtain ⟨k, hgroups, hdone, hjk⟩ := hrest.consumeGroups lineOf
    (if sameLineComments lineOf prevLine cs = [] then seen
      else seen ++ [⟨sameLineComments lineOf prevLine cs⟩]) none
  unfold Cursor.collect
  rw [htrailing]
  dsimp only
  rw [hgroups]
  refine ⟨k, ?_, hdone.drop_eq, by omega⟩
  have hgroups : (if sameLineComments lineOf prevLine cs = [] then seen
      else seen ++ [⟨sameLineComments lineOf prevLine cs⟩]) ++
        commentGroups lineOf (cs.drop (sameLineComments lineOf prevLine cs).length) =
      seen ++ x.groups := by
    show _ = seen ++ if sameLineComments lineOf prevLine cs = [] then _ else _
    split
    · rfl
    · exact List.append_assoc ..
  dsimp only
  rw [hdone.tokenAt_eq, hgroups, Option.or_none, Option.filter_map, Option.map_map]
  congr 1
  exact Option.map_id'

end Ahead

end Ahead

/-! ### Where the cursor rests -/

/-- The first token that counts, and what stands in front of it. -/
theorem exists_idle {lineOf : Pos → Nat} {line : Nat} {ts : List Token} {x : SignificantToken}
    {behind : List SignificantToken} (h : significantFrom lineOf line [] ts = x :: behind) :
    ∃ idle b back, ts = idle ++ b :: back ∧ (∀ t ∈ idle, t.IsIdle) ∧ ¬ b.IsIdle ∧
      x = attachComments lineOf line (commentsOf idle) b ∧
      behind = significantFrom lineOf (lineOf b.pos) [] back := by
  have hidle : ∀ t ∈ ts.takeWhile fun t => decide t.IsIdle, t.IsIdle := fun t ht => by
    simpa using List.mem_takeWhile_imp ht
  cases hrest : ts.dropWhile fun t => decide t.IsIdle with
  | nil =>
    -- if nothing counts, there is no significant token
    have hall : ∀ t ∈ ts, t.IsIdle := fun t ht => by
      simpa using List.dropWhile_eq_nil_iff.1 hrest t ht
    have htokens := significantFrom_token lineOf line [] ts
    rw [h, List.filter_eq_nil_iff.2 fun t ht => ?_] at htokens
    · cases htokens
    · rcases hall t ht with hk | hk <;> simp [hk]
  | cons b back =>
    have hts : ts = (ts.takeWhile fun t => decide t.IsIdle) ++ b :: back := by
      rw [← hrest, List.takeWhile_append_dropWhile]
    have hb : ¬ b.IsIdle := by
      have hhead := List.head?_dropWhile_not (fun t => decide t.IsIdle) ts
      rw [hrest] at hhead
      simpa using hhead
    rw [hts, significantFrom_idle lineOf line [] hidle hb] at h
    obtain ⟨rfl, rfl⟩ := List.cons.inj h
    exact ⟨_, b, back, hts, hidle, hb, rfl, rfl⟩

/-! ### Where the cursor stands -/

/-- At an index stands a token that counts, `x`, and behind it are the others. -/
structure Stands (lineOf : Pos → Nat) (ts : List Token) (i : Nat) (x : SignificantToken)
    (behind : List SignificantToken) : Prop where
  counts : ¬ x.token.IsIdle
  tokens : ∃ back, ts.drop i = x.token :: back ∧
    significantFrom lineOf (lineOf x.token.pos) [] back = behind

/-- The cursor stands at the token `x` with its comments, and has gathered all up to there. -/
structure Cursor.At (lineOf : Pos → Nat) (ts : List Token) (c : Cursor) (x : SignificantToken)
    (behind : List SignificantToken) : Prop where
  stands : Stands lineOf ts c.index x behind
  lead : c.lead = x.lead
  trailing : c.trailing = x.trailing
  groups : c.groups ++ behind.flatMap (·.groups) = (significant lineOf ts).flatMap (·.groups)

section Standing

variable {lineOf : Pos → Nat} {ts : List Token} {c : Cursor} {x y : SignificantToken}
  {behind : List SignificantToken}

/-- At first the cursor stands at the first token that counts. -/
theorem Cursor.at_start (h : significant lineOf ts = x :: behind) :
    At lineOf ts (start lineOf ts) x behind := by
  obtain ⟨idle, b, back, hts, hidle, hb, rfl, rfl⟩ := exists_idle h
  obtain ⟨hahead, -⟩ := ahead_skipIllegal (i := 0) hb hidle hts
  obtain ⟨j, hcollect, hdrop, -⟩ := hahead.collect lineOf 0 []
  unfold start
  rw [hcollect]
  refine ⟨⟨hb, back, hdrop, rfl⟩, rfl, rfl, ?_⟩
  rw [h]
  rfl

namespace Stands

/-- From a token other than the end of the file the cursor moves forwards, to the next token that
counts, and gathers the comments in front of it. -/
theorem advance (h : Stands lineOf ts c.index x (y :: behind)) (hx : x.token.kind ≠ .eof) :
    ∃ j, c.advance lineOf ts = ⟨j, y.lead, y.trailing, c.groups ++ y.groups⟩ ∧
      Stands lineOf ts j y behind ∧ c.index < j := by
  obtain ⟨-, back, hdrop, hback⟩ := h
  obtain ⟨idle, b, back', rfl, hidle, hb, rfl, rfl⟩ := exists_idle hback
  obtain ⟨hahead, hlt⟩ := ahead_next hb hx hidle hdrop
  obtain ⟨j, hcollect, hdrop', hle⟩ :=
    hahead.collect lineOf (lineOf x.token.pos) c.groups
  unfold Cursor.advance
  rw [tokenAt_of_drop hdrop]
  exact ⟨j, hcollect, ⟨hb, back', hdrop', rfl⟩, Nat.lt_of_lt_of_le hlt hle⟩

/-- At the end of the file the cursor stays. -/
theorem advance_eof (h : Stands lineOf ts c.index x behind) (hx : x.token.kind = .eof) :
    (c.advance lineOf ts).index = c.index := by
  obtain ⟨hcounts, back, hdrop, -⟩ := h
  have hstay : Cursor.next ts c.index = c.index := by
    have hlegal : (Cursor.tokenAt ts c.index).kind ≠ .illegal := by
      rw [tokenAt_of_drop hdrop, hx]
      decide
    unfold Cursor.next
    rw [tokenAt_of_drop hdrop, if_pos hx, Cursor.skipIllegal, if_neg fun hi => hlegal hi.2]
  have hahead : Ahead ts c.index [] x.token back := ⟨hcounts, [], hdrop, nofun, nofun, rfl⟩
  obtain ⟨j, hcollect, hdrop', -⟩ :=
    hahead.collect lineOf (lineOf (Cursor.tokenAt ts c.index).pos) c.groups
  unfold Cursor.advance
  rw [hstay, hcollect]
  have hlength := congrArg List.length (hdrop'.trans hdrop.symm)
  have hlt := lt_length_of_drop hdrop
  rw [List.length_drop, List.length_drop] at hlength
  show j = c.index
  omega

end Stands

/-- One move takes the cursor from token to token. -/
theorem Cursor.At.advance (h : At lineOf ts c x (y :: behind)) (hx : x.token.kind ≠ .eof) :
    At lineOf ts (c.advance lineOf ts) y behind := by
  obtain ⟨j, hmove, hstands, -⟩ := h.stands.advance hx
  rw [hmove]
  refine ⟨hstands, rfl, rfl, ?_⟩
  rw [← h.groups, List.flatMap_cons, List.append_assoc]

end Standing

/-! ### Moving the cursor -/

/-- The end of the file comes last, and nowhere else. -/
def EndsOnce (xs : List SignificantToken) : Prop :=
  ∀ (x : SignificantToken) (behind : List SignificantToken), x :: behind <:+ xs →
    (x.token.kind = .eof ↔ behind = [])

/-- A token in front of another one is not the end of the file. -/
theorem EndsOnce.kind_ne {xs : List SignificantToken} (h : EndsOnce xs) {x y : SignificantToken}
    {behind : List SignificantToken} (hsuffix : x :: y :: behind <:+ xs) : x.token.kind ≠ .eof :=
  fun hx => List.cons_ne_nil y behind ((h x _ hsuffix).1 hx)

theorem endsOnce_of_tokens {xs : List SignificantToken} {front : List Token} {eof : Token}
    (h : xs.map (·.token) = front ++ [eof]) (hfront : ∀ t ∈ front, t.kind ≠ .eof)
    (heof : eof.kind = .eof) : EndsOnce xs := by
  rintro x behind ⟨pre, rfl⟩
  rw [List.map_append, List.map_cons] at h
  rcases List.eq_nil_or_concat behind with rfl | ⟨init, y, rfl⟩
  · obtain ⟨-, hx⟩ := List.append_inj' h rfl
    exact ⟨fun _ => rfl, fun _ => (List.cons.inj hx).1 ▸ heof⟩
  · have hmem : x.token ∈ front := by
      rw [List.concat_eq_append, List.map_append, ← List.cons_append, ← List.append_assoc] at h
      obtain ⟨rfl, -⟩ := List.append_inj' h rfl
      exact List.mem_append_right _ List.mem_cons_self
    exact ⟨fun hx => absurd hx (hfront _ hmem), fun hnil => by simp at hnil⟩

namespace Cursor

variable {lineOf : Pos → Nat} {ts : List Token}

theorem after_succ (n : Nat) : after lineOf ts (n + 1) = (after lineOf ts n).advance lineOf ts :=
  Function.iterate_succ_apply' ..

/-- After as many moves as there are tokens in front of it, the cursor is at a token. -/
theorem at_after (hends : EndsOnce (significant lineOf ts)) {n : Nat} {x : SignificantToken}
    {behind : List SignificantToken} (h : (significant lineOf ts).drop n = x :: behind) :
    At lineOf ts (after lineOf ts n) x behind := by
  induction n generalizing x behind with
  | zero => exact at_start h
  | succ n ih =>
    rw [← List.drop_drop, List.drop_one] at h
    cases hn : (significant lineOf ts).drop n with
    | nil =>
      rw [hn] at h
      cases h
    | cons w rest =>
      obtain rfl : rest = x :: behind := by rwa [hn] at h
      rw [after_succ]
      exact (ih hn).advance (hends.kind_ne (hn ▸ List.drop_suffix n _))

/-- However far the cursor is moved, it stands at a token that counts. -/
theorem stands_after (hne : significant lineOf ts ≠ []) (hends : EndsOnce (significant lineOf ts))
    (n : Nat) : ∃ x behind, x :: behind <:+ significant lineOf ts ∧
      Stands lineOf ts (after lineOf ts n).index x behind := by
  induction n with
  | zero =>
    obtain ⟨x, behind, h⟩ := List.exists_cons_of_ne_nil hne
    exact ⟨x, behind, h ▸ List.suffix_refl _, (at_start h).stands⟩
  | succ n ih =>
    obtain ⟨x, behind, hsuffix, hstands⟩ := ih
    rw [after_succ]
    cases behind with
    | nil => exact ⟨x, [], hsuffix, by rwa [hstands.advance_eof ((hends _ _ hsuffix).2 rfl)]⟩
    | cons y behind =>
      obtain ⟨j, hmove, hnext, -⟩ := hstands.advance (hends.kind_ne hsuffix)
      rw [hmove]
      exact ⟨y, behind, (List.suffix_cons x _).trans hsuffix, hnext⟩

/-- A move takes the cursor forwards, or it stays at the end of the file. -/
theorem index_after_succ (hends : EndsOnce (significant lineOf ts)) {n : Nat}
    {x : SignificantToken} {behind : List SignificantToken}
    (hsuffix : x :: behind <:+ significant lineOf ts)
    (h : Stands lineOf ts (after lineOf ts n).index x behind) :
    (after lineOf ts n).index ≤ (after lineOf ts (n + 1)).index ∧
      ((after lineOf ts (n + 1)).index = (after lineOf ts n).index ↔ x.token.kind = .eof) := by
  rw [after_succ]
  cases behind with
  | nil =>
    have hx := (hends _ _ hsuffix).2 rfl
    rw [h.advance_eof hx]
    exact ⟨Nat.le_refl _, iff_of_true rfl hx⟩
  | cons y behind =>
    have hx := hends.kind_ne hsuffix
    obtain ⟨j, hmove, -, hlt⟩ := h.advance hx
    rw [hmove]
    exact ⟨Nat.le_of_lt hlt, iff_of_false (Nat.ne_of_gt hlt) hx⟩

end Cursor

/-! ### While a source is parsed -/

/-- The cursor rests on the token `t`, which is neither a comment nor illegal text. -/
structure Cursor.Rests (ts : List Token) (c : Cursor) (t : Token) : Prop where
  valid : c.index < ts.length
  token : ts[c.index]? = some t
  comment : t.kind ≠ .comment
  legal : t.kind ≠ .illegal

/-- The cursor rests on the current token of a state and has the same comments for it. -/
structure Cursor.Tracks (ts : List Token) (c : Cursor) (t : ParseState) : Prop where
  rests : c.Rests ts t.current.token
  lead : c.lead = t.current.lead
  trailing : c.trailing = (Parse.trailing t).1

theorem Stands.rests {lineOf : Pos → Nat} {ts : List Token} {c : Cursor} {x : SignificantToken}
    {behind : List SignificantToken} (h : Stands lineOf ts c.index x behind) :
    c.Rests ts x.token := by
  obtain ⟨hcounts, back, hdrop, -⟩ := h
  have htoken : ts[c.index]? = some x.token := by rw [← List.head?_drop, hdrop, List.head?_cons]
  exact ⟨lt_length_of_drop hdrop, htoken, fun hk => hcounts (.inl hk), fun hk => hcounts (.inr hk)⟩

/-- A run leaves the tokens behind those that it takes. -/
theorem Run.left_eq_drop {s t : ParseState} {tr : Trace} (r : Run s tr t) :
    (s.left ++ [s.eof]).drop (Trace.tokens tr).length = t.left ++ [t.eof] := by
  obtain ⟨pre, hpre⟩ := r.left_suffix
  have hlength : pre.length = (Trace.tokens tr).length := by
    have htokens := congrArg List.length r.tokens
    simp only [ParseState.tokens, ← hpre, List.length_append, List.length_map,
      List.length_singleton] at htokens
    omega
  rw [← hlength, ← hpre, r.frame.2.2.2, List.append_assoc, List.drop_left]

theorem ParseState.left_eq_cons (t : ParseState) :
    ∃ behind, t.left ++ [t.eof] = t.current :: behind := by
  unfold current
  cases t.left with
  | nil => exact ⟨[], rfl⟩
  | cons x rest => exact ⟨rest ++ [t.eof], rfl⟩

namespace Source

variable (s : Source) (files : FileSet) (symbols : SymbolTable)

theorem significant_endsOnce (base : Pos) (lineOf : Pos → Nat) :
    EndsOnce (significant lineOf (s.tokensAt base)) := by
  have htokens := (significant_allTokens lineOf base s.text).1
  rw [Scanned.allTokens, List.filter_append] at htokens
  refine endsOnce_of_tokens htokens (fun t ht => ?_) rfl
  obtain ⟨u, hu, rfl⟩ := List.mem_map.1 (List.mem_filter.1 ht).1
  exact ((tokensFrom_within base s.text.toList).1 u hu).kind

/-- After as many moves as a run has taken tokens, the cursor is where the run is. -/
theorem at_run {t : ParseState} {tr : Trace} (r : Run (s.startAt files symbols) tr t) :
    let lineOf := (s.fileAt files.next).lineOf
    let ts := s.tokensAt files.next
    ∃ behind, t.left ++ [t.eof] = t.current :: behind ∧
      (Cursor.after lineOf ts (Trace.tokens tr).length).At lineOf ts t.current behind := by
  obtain ⟨behind, hleft⟩ := t.left_eq_cons
  refine ⟨behind, hleft, Cursor.at_after (s.significant_endsOnce _ _) ?_⟩
  rw [← s.left_startAt files symbols, r.left_eq_drop, hleft]

/-- A source that is not refused is parsed in one run, which takes all of its tokens, and at whose end the
cursor has gathered the comments of the file. -/
theorem gathers (hbegun : files.next ≠ 0) {r : ParseResult}
    (h : parseFile files symbols s.name s.text = .ok r) :
    let start := s.startAt files symbols
    let cursor := Cursor.after (s.fileAt files.next).lineOf (s.tokensAt files.next)
    ∃ tr t, Run start tr t ∧ t.left = [] ∧
      r.file.comments = (cursor (Trace.tokens tr).length).groups ∧
      r.file = (Parse.file r.file.comments start).1 ∧
      Parse.settlePending t = (r.file.unresolved, (Parse.file r.file.comments start).2) := by
  intro start cursor
  have hready := s.startAt_ready files symbols hbegun
  rw [parseFile_eq_of] at h
  split at h
  · cases h
  generalize hgroups : (significant _ _).flatMap (·.groups) = groups at h
  obtain rfl := Except.ok.inj h
  have htold : Told start.declIndex start {} start := ⟨hready, rfl, [], .nil start, .nil⟩
  obtain ⟨-, i, t, ht, hsettle⟩ := Parse.file_told groups start htold
  obtain ⟨tr, run, -⟩ := ht.run
  have hleft : t.left = [] :=
    show (Parse.settlePending t).2.left = [] from hsettle ▸ Parse.file_left groups start hready
  obtain ⟨behind, hcons, hat⟩ := s.at_run files symbols run
  rw [hleft] at hcons
  obtain rfl : [] = behind := (List.cons.inj hcons).2
  have hall := hat.groups
  rw [List.flatMap_nil, List.append_nil] at hall
  exact ⟨tr, t, run, hleft, hgroups.symm.trans hall.symm, rfl, hsettle⟩

/-- To take the current token is to move the cursor on. -/
theorem rests_advance (hbegun : files.next ≠ 0) {t : ParseState} {tr : Trace}
    (r : Run (s.startAt files symbols) tr t) :
    let cursor := Cursor.after (s.fileAt files.next).lineOf (s.tokensAt files.next)
    (Parse.advance t).1 = t.current.token ∧
      (cursor ((Trace.tokens tr).length + 1)).Rests (s.tokensAt files.next)
        (Parse.advance t).2.current.token := by
  intro cursor
  cases hleft : t.left with
  | nil =>
    -- the end of the file is not taken, and the cursor stays there
    have hcurrent : t.current = t.eof := by rw [ParseState.current, hleft, List.headD_nil]
    have heof : t.current.token.kind = .eof :=
      hcurrent ▸ (r.ready (s.startAt_ready files symbols hbegun)).eof
    obtain ⟨behind, -, hat⟩ := s.at_run files symbols r
    have hstay := hat.stands
    rw [← hstay.advance_eof heof, ← Cursor.after_succ] at hstay
    rw [Parse.advance_of_nil hleft]
    exact ⟨congrArg SignificantToken.token hcurrent.symm, hstay.rests⟩
  | cons x rest =>
    have hcurrent : t.current = x := by rw [ParseState.current, hleft, List.headD_cons]
    obtain ⟨behind, -, hat⟩ := s.at_run files symbols (r.append (Step.take hleft).run)
    have hlength : (Trace.tokens (tr ++ [.take x.token])).length = (Trace.tokens tr).length + 1 := by
      rw [Trace.tokens, List.filterMap_append, List.length_append]
      rfl
    rw [hlength] at hat
    rw [Parse.advance_of_left hleft]
    exact ⟨congrArg SignificantToken.token hcurrent.symm, hat.stands.rests⟩

end Source

/-- **The cursor rests on tokens that count.**  However far it is moved, the cursor is at one of the
tokens of the source, at no comment and at no illegal text; it never moves backwards, and stays only at
the end of the file.  Wherever parsing is, it looks at the token on which the cursor rests after as many
moves as tokens were taken, and to take that token is to move the cursor on.  Parsing a source is one
run, at whose end the cursor has gathered the comments of the file. -/
theorem cursor_rests (files : FileSet) (symbols : SymbolTable) (s : Source)
    (hbegun : files.next ≠ 0) :
    let ts := s.tokensAt files.next
    let start := s.startAt files symbols
    let cursor := Cursor.after (s.fileAt files.next).lineOf ts
    (∀ n, ∃ t, (cursor n).Rests ts t ∧ (cursor n).index ≤ (cursor (n + 1)).index ∧
      ((cursor (n + 1)).index = (cursor n).index ↔ t.kind = .eof)) ∧
    (∀ tr t, Run start tr t → (cursor (Trace.tokens tr).length).Tracks ts t ∧
      (Parse.advance t).1 = t.current.token ∧
      (cursor ((Trace.tokens tr).length + 1)).Rests ts (Parse.advance t).2.current.token) ∧
    ∀ r, parseFile files symbols s.name s.text = .ok r →
      ∃ tr t, Run start tr t ∧ t.left = [] ∧
        r.file.comments = (cursor (Trace.tokens tr).length).groups ∧
        r.file = (Parse.file r.file.comments start).1 ∧
        Parse.settlePending t = (r.file.unresolved, (Parse.file r.file.comments start).2) := by
  intro ts start cursor
  have hends := s.significant_endsOnce files.next (s.fileAt files.next).lineOf
  have hne := (significant_allTokens (s.fileAt files.next).lineOf files.next s.text).2.1
  refine ⟨fun n => ?_, fun tr t run => ?_, fun r hr => ?_⟩
  · obtain ⟨x, behind, hsuffix, hstands⟩ := Cursor.stands_after hne hends n
    exact ⟨x.token, hstands.rests, Cursor.index_after_succ hends hsuffix hstands⟩
  · obtain ⟨behind, -, hat⟩ := s.at_run files symbols run
    exact ⟨⟨hat.stands.rests, hat.lead, hat.trailing⟩, s.rests_advance files symbols hbegun run⟩
  · exact s.gathers files symbols hbegun hr

/-- Between the name of the package and the bean behind it are six tokens that the cursor passes. -/
theorem cursor_rests_richly :
    let ts := richlyCommented.tokensAt (FileSet.next {})
    let cursor := Cursor.after (richlyCommented.fileAt (FileSet.next {})).lineOf ts
    FileSet.next {} ≠ 0 ∧ (cursor 1).index = 1 ∧ (cursor 2).index = 8 ∧
      (cursor 2).Rests ts ⟨.keyword .struct, "struct", ⟨71, 77⟩⟩ := by
  intro ts cursor
  have hbegun : FileSet.next {} ≠ 0 := by decide
  have hindex : (cursor 2).index = 8 := by decide +kernel
  obtain ⟨t, hrests, -⟩ := (cursor_rests {} {} richlyCommented hbegun).1 2
  have htoken : ts[8]? = some ⟨.keyword .struct, "struct", ⟨71, 77⟩⟩ := by decide +kernel
  obtain rfl : t = _ := Option.some.inj ((hindex ▸ hrests.token).symm.trans htoken)
  exact ⟨hbegun, by decide +kernel, hindex, hrests⟩

end Idl
