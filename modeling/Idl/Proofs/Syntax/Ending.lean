/-
Idl/Proofs/Syntax/Ending.lean

Parsing comes to an end, and looks at nothing outside the source on its way.

The tokens of a source are cut from its text between two characters (`Token.CutFrom`), and its
comments come out in groups, each in one of them.  Wherever a run has got to, the current token is
one of the tokens of the file, and so is the one behind it, if there is one
(`ParseState.LooksInto`).  Together with the loops, each of which is left, that is the main result
(`parseFile_ends`): a source for which there are positions left is read to its end.
-/
import Idl.Proofs.Syntax.Progress

namespace Idl

/-! ### Tokens cut from a text -/

/-- A token is cut from the text `cs`, which starts at `base`: it stands between two characters of
it and says what stands there. -/
def Token.CutFrom (base : Pos) (cs : List Char) (t : Token) : Prop :=
  ∃ before spelling after, cs = before ++ spelling ++ after ∧
    t.span = ⟨base + byteWidth before, base + byteWidth (before ++ spelling)⟩ ∧
    t.text = String.ofList (tokenText t.kind spelling)

/-- Text in front moves the token, but does not change it. -/
theorem Token.CutFrom.behind {base : Pos} (front : List Char) {cs : List Char} {t : Token}
    (h : t.CutFrom (base + byteWidth front) cs) : t.CutFrom base (front ++ cs) := by
  obtain ⟨before, spelling, after, rfl, hspan, htext⟩ := h
  refine ⟨front ++ before, spelling, after, by simp only [List.append_assoc], ?_, htext⟩
  rw [hspan]
  simp only [byteWidth_append, Nat.add_assoc]

theorem tokensFrom_cut (pos : Pos) (cs : List Char) :
    ∀ t ∈ tokensFrom pos cs, t.token.CutFrom pos cs := by
  fun_induction tokensFrom pos cs with
  | case1 pos => simp
  | case2 pos c cs hs ih => exact fun t ht => Token.CutFrom.behind [c] (ih t ht)
  | case3 pos c cs hs s spelling stop ih =>
    have hcs : c :: cs = spelling ++ cs.drop s.more := by
      rw [List.cons_append, List.take_append_drop]
    intro t ht
    rcases List.mem_cons.1 ht with rfl | ht
    · exact ⟨[], spelling, cs.drop s.more, hcs, rfl, rfl⟩
    · rw [hcs]
      exact Token.CutFrom.behind spelling (ih t ht)

/-- The end of the file is cut from the end of the text, where nothing stands. -/
theorem allTokens_cut (base : Pos) (source : String) :
    ∀ t ∈ (scanSource base source).allTokens, t.CutFrom base source.toList := by
  intro t ht
  rcases List.mem_append.1 ht with ht | ht
  · obtain ⟨u, hu, rfl⟩ := List.mem_map.1 ht
    exact tokensFrom_cut base source.toList u hu
  · rw [List.mem_singleton.1 ht]
    exact ⟨source.toList, [], [], by simp, by simp [Span.ofPos, scanSource], rfl⟩

/-! ### What stands between quotes -/

/-- The body of a literal is what stands between its first character and its last one, both of
which are one byte wide. -/
theorem quoted_body {q : Char} {cs : List Char} (hq : q = '"' ∨ q = '\'' ∨ q = backQuote)
    (hlast : cs.getLast? = some q) : q.utf8Size = 1 ∧ q :: cs = [q] ++ cs.dropLast ++ [q] := by
  refine ⟨by rcases hq with rfl | rfl | rfl <;> rfl, ?_⟩
  obtain ⟨ds, rfl⟩ := List.getLast?_eq_some_iff.1 hlast
  simp

theorem leadingDigits_length (radix count : Nat) (cs : List Char) :
    (leadingDigits radix count cs).length ≤ cs.length := by
  fun_induction leadingDigits radix count cs with
  | case1 => exact Nat.zero_le _
  | case2 => exact Nat.zero_le _
  | case3 count c cs d h ih => simpa using ih
  | case4 => exact Nat.zero_le _

/-- An escape takes no more characters than there are. -/
theorem Escape.read_width (quote : Char) (cs : List Char) :
    (Escape.read quote cs).width ≤ cs.length := by
  have hnumeric (name : Char) (lead radix count : Nat) (piece? : Nat → Option Piece)
      (ds : List Char) (h : lead ≤ ds.length) :
      (Escape.numeric name lead radix count piece? ds).width ≤ ds.length := by
    have hdigits := leadingDigits_length radix count (ds.drop lead)
    rw [List.length_drop] at hdigits
    show lead + _ ≤ _
    omega
  unfold Escape.read
  split
  · exact Nat.le_refl _
  · next c cs =>
    have hone : 1 ≤ (c :: cs).length := Nat.succ_pos _
    split
    · exact hone
    split
    · exact hone
    split
    · exact hnumeric _ _ _ _ _ _ (Nat.zero_le _)
    split
    · exact hnumeric _ _ _ _ _ _ hone
    split
    · exact hnumeric _ _ _ _ _ _ hone
    split
    · exact hnumeric _ _ _ _ _ _ hone
    · exact Nat.zero_le _

/-! ### Comments in groups -/

section Grouping

variable (lineOf : Pos → Nat)

/-- Every comment is in one group, and no group is empty. -/
theorem commentGroups_comments (cs : List Comment) :
    (commentGroups lineOf cs).flatMap (·.comments) = cs ∧
      ∀ g ∈ commentGroups lineOf cs, g.comments ≠ [] := by
  fun_induction commentGroups lineOf cs with
  | case1 => simp
  | case2 c cs n ih =>
    refine ⟨?_, fun g hg => ?_⟩
    · rw [List.flatMap_cons, ih.1, List.cons_append, List.take_append_drop]
    · rcases List.mem_cons.1 hg with rfl | hg
      · exact List.cons_ne_nil _ _
      · exact ih.2 g hg

theorem sameLineComments_prefix (prevLine : Nat) (cs : List Comment) :
    sameLineComments lineOf prevLine cs <+: cs := by
  cases cs with
  | nil => exact List.prefix_refl _
  | cons c cs =>
    simp only [sameLineComments]
    split
    · exact (List.prefix_cons_inj c).2 (List.take_prefix _ _)
    · exact List.nil_prefix

/-- A token gets the comments in front of it, in groups. -/
theorem attachComments_comments (prevLine : Nat) (cs : List Comment) (next : Token) :
    (attachComments lineOf prevLine cs next).groups.flatMap (·.comments) = cs ∧
      ∀ g ∈ (attachComments lineOf prevLine cs next).groups, g.comments ≠ [] := by
  obtain ⟨rest, hrest⟩ := sameLineComments_prefix lineOf prevLine cs
  have hafter {same : List Comment} (h : same ++ rest = cs) : cs.drop same.length = rest := by
    rw [← h, List.drop_left]
  have hdrop := hafter hrest
  obtain ⟨hflat, hne⟩ := commentGroups_comments lineOf rest
  simp only [attachComments, hdrop]
  split
  · next hnil =>
    rw [hnil, List.nil_append] at hrest
    exact ⟨hflat.trans hrest, hne⟩
  · next hsame =>
    refine ⟨by rw [List.flatMap_cons, hflat, hrest], fun g hg => ?_⟩
    rcases List.mem_cons.1 hg with rfl | hg
    · exact hsame
    · exact hne g hg

/-- The comments among tokens. -/
def commentsOf (ts : List Token) : List Comment :=
  (ts.filter fun t => t.kind = .comment).map fun t => ⟨t.pos, t.text⟩

/-- All comments up to the end of a file are handed to tokens, in groups. -/
theorem significantFrom_comments (prevLine : Nat) (held : List Comment) (ts : List Token)
    {eof : Token} (heof : eof.kind = .eof) :
    ((significantFrom lineOf prevLine held (ts ++ [eof])).flatMap (·.groups)).flatMap
        (·.comments) = held.reverse ++ commentsOf ts ∧
      ∀ g ∈ (significantFrom lineOf prevLine held (ts ++ [eof])).flatMap (·.groups),
        g.comments ≠ [] := by
  induction ts generalizing prevLine held with
  | nil =>
    have hattach := attachComments_comments lineOf prevLine held.reverse eof
    simpa [significantFrom, heof, commentsOf] using hattach
  | cons t ts ih =>
    rw [List.cons_append]
    unfold significantFrom
    split
    · next h =>
      have hcomments : commentsOf (t :: ts) = commentsOf ts := by simp [commentsOf, h]
      rw [hcomments]
      exact ih prevLine held
    · next h =>
      have hcomments : commentsOf (t :: ts) = ⟨t.pos, t.text⟩ :: commentsOf ts := by
        simp [commentsOf, h]
      obtain ⟨hflat, hne⟩ := ih prevLine (⟨t.pos, t.text⟩ :: held)
      refine ⟨?_, hne⟩
      rw [hflat, hcomments, List.reverse_cons, List.append_assoc]
      rfl
    · next h =>
      have hcomments : commentsOf (t :: ts) = commentsOf ts := by
        unfold commentsOf
        rw [List.filter_cons_of_neg (by simpa using h)]
      obtain ⟨hflat, hne⟩ := attachComments_comments lineOf prevLine held.reverse t
      obtain ⟨hflat', hne'⟩ := ih (lineOf t.pos) []
      rw [List.flatMap_cons, List.flatMap_append, hflat, hflat', hcomments]
      refine ⟨rfl, fun g hg => ?_⟩
      rcases List.mem_append.1 hg with hg | hg
      · exact hne g hg
      · exact hne' g hg

end Grouping

/-! ### Tokens that are looked at -/

/-- The index of the current token among the tokens `ts`, which end with those of the state. -/
def ParseState.cursor (ts : List Token) (s : ParseState) : Nat := ts.length - s.tokens.length

/-- The state looks at tokens among `ts` only: the current one is among them, and the one behind it
is, too, unless the current one is the last. -/
structure ParseState.LooksInto (ts : List Token) (s : ParseState) : Prop where
  inRange : s.cursor ts < ts.length
  current : ts[s.cursor ts]? = some s.current.token
  rest : ts.drop (s.cursor ts) = s.tokens
  next : (Parse.nextKind s).1 =
    ((ts.drop (s.cursor ts + 1)).head?.map (·.kind)).getD .eof

theorem ParseState.tokens_cons (s : ParseState) :
    s.tokens = s.current.token :: s.tokens.tail := by
  unfold tokens current
  cases s.left with
  | nil => rfl
  | cons t rest => rfl

theorem ParseState.Ready.nextKind {s : ParseState} (hs : s.Ready) :
    (Parse.nextKind s).1 = (s.tokens.tail.head?.map (·.kind)).getD .eof := by
  unfold Parse.nextKind ParseState.tokens
  cases s.left with
  | nil => exact hs.eof
  | cons t rest =>
    cases rest with
    | nil => rfl
    | cons u rest => rfl

theorem looksInto_of_suffix {s : ParseState} {ts : List Token} (hs : s.Ready)
    (h : s.tokens <:+ ts) : s.LooksInto ts := by
  have hcons := s.tokens_cons
  have hdrop : ts.drop (s.cursor ts) = s.tokens := (List.suffix_iff_eq_drop.1 h).symm
  have hcurrent : ts[s.cursor ts]? = some s.current.token := by
    rw [← List.head?_drop, hdrop, hcons]
    rfl
  refine ⟨?_, hcurrent, hdrop, ?_⟩
  · exact (List.getElem?_eq_some_iff.1 hcurrent).1
  · rw [← List.tail_drop, hdrop]
    exact hs.nextKind

/-- Wherever a run gets to, only tokens are looked at that were there at its start. -/
theorem Run.looksInto {s t : ParseState} {tr : Trace} (r : Run s tr t) (hs : s.Ready) :
    t.LooksInto s.tokens := by
  refine looksInto_of_suffix (r.ready hs) ⟨Trace.tokens tr, ?_⟩
  exact r.tokens.symm

/-! ### From a source to its parse -/

/-- How a text at `base` is parsed: from the state `start`, with its comments in `groups`. -/
structure ParsedFrom (base : Pos) (text : String) (groups : List CommentGroup) (start : ParseState)
    (r : ParseResult) : Prop where
  ready : start.Ready
  tokens : start.tokens = (scanSource base text).allTokens.filter fun t =>
    t.kind ≠ .illegal ∧ t.kind ≠ .comment
  diagnostics : start.diagnostics = #[]
  comments : groups.flatMap (·.comments) = commentsOf (scanSource base text).allTokens
  nonempty : ∀ g ∈ groups, g.comments ≠ []
  file : r.file = (Parse.file groups start).1
  reported : r.diagnostics = (scanSource base text).errors.map (·.toDiagnostic) ++
    (Parse.file groups start).2.diagnostics.toList

/-- The significant tokens of a text, of which the end of the file is one, get all its comments. -/
theorem significant_allTokens (lineOf : Pos → Nat) (base : Pos) (text : String) :
    let scanned := (scanSource base text).allTokens
    let tokens := significant lineOf scanned
    (tokens.map (·.token) = scanned.filter fun t => t.kind ≠ .illegal ∧ t.kind ≠ .comment) ∧
      tokens ≠ [] ∧ (tokens.flatMap (·.groups)).flatMap (·.comments) = commentsOf scanned ∧
      ∀ g ∈ tokens.flatMap (·.groups), g.comments ≠ [] := by
  intro scanned tokens
  have hkind : (scanSource base text).eof.kind = .eof := rfl
  have htokens : tokens.map (·.token) =
      scanned.filter fun t => t.kind ≠ .illegal ∧ t.kind ≠ .comment := significantFrom_token ..
  have hcomments : commentsOf scanned =
      commentsOf ((scanSource base text).tokens.map (·.token)) := by
    unfold commentsOf
    rw [show scanned = (scanSource base text).tokens.map (·.token) ++ [(scanSource base text).eof]
      from rfl, List.filter_append, List.filter_cons_of_neg (by simp [hkind]), List.filter_nil,
      List.append_nil]
  have hgroups := significantFrom_comments lineOf 0 []
    ((scanSource base text).tokens.map (·.token)) hkind
  refine ⟨htokens, fun hnil => ?_, hgroups.1.trans hcomments.symm, hgroups.2⟩
  have heof : (scanSource base text).eof ∈ tokens.map (·.token) := by
    rw [htokens, List.mem_filter]
    exact ⟨List.mem_append_right _ (List.mem_singleton_self _), rfl⟩
  rw [hnil] at heof
  exact List.not_mem_nil heof

/-- A source for which there are positions left is parsed. -/
theorem parseFile_parsed (files : FileSet) (symbols : SymbolTable) (name text : String)
    (hnext : files.next ≠ 0) (hroom : files.next + text.utf8ByteSize + 1 < positionBound) :
    ∃ r groups start, parseFile files symbols name text = .ok r ∧
      ParsedFrom files.next text groups start r := by
  let f : SourceFile := { name, base := files.next, size := text.utf8ByteSize }
  have hready := start_ready f files.files.size symbols text hnext (utf8ByteSize_eq text)
  obtain ⟨htokens, hne, hflat, hgroups⟩ :=
    significant_allTokens (f.scan text).2.lineOf files.next text
  have hstart := ParseState.tokens_start (f.scan text).2 files.files.size symbols _ hne
  have hread := (parseFile_eq_of files symbols name text).trans (if_neg (Nat.not_le.2 hroom))
  exact ⟨_, _, _, hread, hready, hstart.trans htokens, rfl, hflat, hgroups, rfl, rfl⟩

/-! ### The end -/

/-- Each loop of the parser is left, wherever parsing can go on from. -/
structure Parse.LoopsEnd : Prop where
  imports : Ends (moreDecls (check (.keyword .imp)) (Decl.imports <$> specGroup importSpec ()))
  decls : Ends (moreDecls (not <$> atEnd) decl)
  importGroup : Ends (moreSpecs importSpec)
  constGroup : Ends (moreSpecs constSpec)
  members : ∀ kind scope, Ends (moreMembers kind scope)
  params : Ends param
  names : Ends moreIdents
  options : Ends moreOptions
  skipping : Ends skipStep
  /-- Grouping comments takes all of them, at least one for each group. -/
  comments : ∀ (lineOf : Pos → Nat) (cs : List Comment),
    (commentGroups lineOf cs).flatMap (·.comments) = cs ∧
      ∀ g ∈ commentGroups lineOf cs, g.comments ≠ []

theorem Parse.loops_end : LoopsEnd where
  imports := imports_ends
  decls := decls_ends
  importGroup := moreSpecs_ends importSpec_keeps
  constGroup := moreSpecs_ends constSpec_keeps
  members := moreMembers_ends
  params := param_ends
  names := moreIdents_ends
  options := moreOptions_ends
  skipping := skipStep_ends
  comments := commentGroups_comments

/-- What stands between quotes is cut out of a literal between two characters, and escapes are cut
out of that. -/
structure QuotesFit : Prop where
  body : ∀ (q : Char) (cs : List Char), q = '"' ∨ q = '\'' ∨ q = backQuote →
    cs.getLast? = some q → q.utf8Size = 1 ∧ q :: cs = [q] ++ cs.dropLast ++ [q]
  escape : ∀ (quote : Char) (cs : List Char), (Escape.read quote cs).width ≤ cs.length

/-- A text at `base` has been read, from its tokens on to what comes of it. -/
structure ReadToEnd (base : Pos) (text : String) (scanned : List Token) (start finish : ParseState)
    (file : File) : Prop where
  cut : ∀ t ∈ scanned, t.CutFrom base text.toList
  tokens : start.tokens = scanned.filter fun t => t.kind ≠ .illegal ∧ t.kind ≠ .comment
  comments : file.comments.flatMap (·.comments) = commentsOf scanned
  groups : ∀ g ∈ file.comments, g.comments ≠ []
  parsed : Parse.file file.comments start = (file, finish)
  run : ∃ tr u, Run start tr u ∧ Parse.settlePending u = (file.unresolved, finish)
  looks : ∀ {tr u}, Run start tr u → u.LooksInto start.tokens
  left : finish.left = []
  current : finish.current.token.kind = .eof

theorem ParsedFrom.readToEnd {base : Pos} {text : String} {groups : List CommentGroup}
    {start : ParseState} {r : ParseResult} (h : ParsedFrom base text groups start r) :
    ReadToEnd base text (scanSource base text).allTokens start (Parse.file groups start).2
      r.file := by
  have htold : Told start.declIndex start {} start := ⟨h.ready, rfl, [], .nil start, .nil⟩
  obtain ⟨-, i, u, hu, hsettle⟩ := Parse.file_told groups start htold
  obtain ⟨tr, run, -⟩ := hu.run
  have hleft := Parse.file_left groups start h.ready
  have heof : (Parse.file groups start).2.eof = start.eof :=
    (congrArg ParseState.eof (congrArg Prod.snd hsettle)).symm.trans run.frame.2.2.2
  have hcomments : r.file.comments = groups := by
    rw [h.file]
    rfl
  rw [← h.file] at hsettle
  refine
    { cut := allTokens_cut base text
      tokens := h.tokens
      comments := hcomments ▸ h.comments
      groups := hcomments ▸ h.nonempty
      parsed := by rw [hcomments, h.file, Prod.mk.eta]
      run := ⟨tr, u, run, hsettle⟩
      looks := fun run => run.looksInto h.ready
      left := hleft
      current := ?_ }
  unfold ParseState.current
  rw [hleft, heof]
  exact h.ready.eof

/-- A source for which there are positions left is read to its end: every loop on the way is left,
every token, comment and body of a literal is cut from the text between two characters, and only
tokens of the source are looked at. -/
theorem parseFile_ends : Parse.LoopsEnd ∧ QuotesFit ∧
    ∀ (files : FileSet) (symbols : SymbolTable) (name text : String), files.next ≠ 0 →
      files.next + text.utf8ByteSize + 1 < positionBound →
      ∃ r scanned start finish, parseFile files symbols name text = .ok r ∧
        ReadToEnd files.next text scanned start finish r.file := by
  refine ⟨Parse.loops_end, ⟨fun q cs => quoted_body, Escape.read_width⟩, ?_⟩
  intro files symbols name text hnext hroom
  obtain ⟨r, groups, start, hread, h⟩ := parseFile_parsed files symbols name text hnext hroom
  exact ⟨r, _, start, _, hread, h.readToEnd⟩

/-- A source in which every construct breaks off. -/
theorem parseFile_ends_broken : ∃ r scanned start finish,
    parseFile {} {} "broken" "service S \x7b f(map<, /* ? */ 'x struct import" = .ok r ∧
      ReadToEnd 1 "service S \x7b f(map<, /* ? */ 'x struct import" scanned start finish r.file :=
  parseFile_ends.2.2 {} {} "broken" _ (by decide) (by decide)

end Idl
