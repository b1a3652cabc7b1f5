/-
Idl/Proofs/Comments/Trailing.lean

Comments behind the fields of structs and protocols.

A field with a tag ends with the tag, or with the semicolon behind it (`EndsField`).  The comments that
trail that token become the comment of the field, and those that lead the token behind it the doc of the
next member (`Parse.member?_ends`).  A comment on the line on which the field ends therefore trails the
field, if it is the last thing on its line (`Orderly.run_eq`) and if the field ends with a token that
starts on that line, too: which token a comment trails is told by the line on which the token starts, and
a tag can span lines.

Main result: what becomes of the comments behind a field (`trailing_comments`); behind a tag that spans
lines they are lost for the field (`trailing_comments_astray`).
-/
import Idl.Proofs.Comments.Attach
import Idl.Proofs.Syntax.Members

namespace Idl

/-! ### The ends of fields -/

/-- A token that ends an item: a semicolon, or a comma that is taken in its place. -/
def Token.EndsItem (t : Token) : Prop := t.kind = .punct .semicolon ∨ t.kind = .punct .comma

instance (t : Token) : Decidable t.EndsItem := inferInstanceAs (Decidable (_ ∨ _))

/-- Among the tokens `ts`, the field whose tag is the token `tag` ends with the token `a`: with what ends
the item behind the tag, or else with the tag. -/
def EndsField (ts : List Token) (tag a : Token) : Prop :=
  ∃ cs b, StandBetween ts (some tag) cs b ∧ a = if b.EndsItem then b else tag

namespace Parse

variable {s₀ : ParseState} {x : SignificantToken}

/-! ### Steps beside the tokens -/

/-- A step that has nothing to do with the tokens to come. -/
def Beside {α : Type} (m : Parse α) : Prop :=
  ∀ s, (m s).2.left = s.left ∧ (m s).2.eof = s.eof ∧ (m s).2.lead = s.lead

namespace Beside

variable {α β : Type} {m : Parse α} {f : α → Parse β}

protected theorem bind (hm : Beside m) (hf : ∀ a, Beside (f a)) : Beside (m >>= f) := by
  intro s
  obtain ⟨hleft, heof, hlead⟩ := hm s
  obtain ⟨hleft', heof', hlead'⟩ := hf (m s).1 (m s).2
  exact ⟨hleft'.trans hleft, heof'.trans heof, hlead'.trans hlead⟩

protected theorem pure (a : α) : Beside (pure a) := fun _ => ⟨rfl, rfl, rfl⟩

protected theorem forM {xs : List α} {f : α → Parse PUnit} (hf : ∀ a, Beside (f a)) :
    Beside (xs.forM f) := by
  induction xs with
  | nil => exact .pure _
  | cons x xs ih => exact (hf x).bind fun _ => ih

/-- Where parsing has got to is the same behind such a step. -/
theorem rightBehind (hm : Beside m) {s : ParseState} (h : s₀.RightBehind x s) :
    s₀.RightBehind x (m s).2 := by
  obtain ⟨hleft, heof, hlead⟩ := hm s
  refine ⟨hleft ▸ h.left, heof.trans h.eof, hlead.trans (h.lead.trans ?_)⟩
  unfold ParseState.current
  rw [hleft, heof]

end Beside

theorem declare_beside (i : Ident) (kind : ObjectKind) (origin : Origin) (data : Option Int)
    (scope : ScopeId) : Beside (declare i kind origin data scope) := by
  intro s
  rw [declare_snd]
  exact ⟨rfl, rfl, rfl⟩

theorem resolveIdent_beside (i : Ident) : Beside (resolveIdent i) := by
  intro s
  rw [resolveIdent_snd]
  split
  · exact ⟨rfl, rfl, rfl⟩
  · split <;> exact ⟨rfl, rfl, rfl⟩

theorem resolveTypeExpr_beside (t : TypeExpr) : Beside (resolveTypeExpr t) := by
  induction t with
  | bad => exact .pure _
  | basic => exact .pure _
  | named qualifier name =>
    cases qualifier with
    | none => exact resolveIdent_beside name
    | some q => exact fun _ => ⟨rfl, rfl, rfl⟩
  | array pos elem size closing ih =>
    refine ih.bind fun _ => ?_
    cases size with
    | ident i => exact resolveIdent_beside i
    | _ => exact .pure _
  | vector pos elem closing ih => exact ih
  | map pos key value closing ihk ihv => exact ihk.bind fun _ => ihv

/-! ### The end of a field -/

/-- The current token is taken. -/
theorem advance_rightBehind {s : ParseState} (h : After s₀ s) (hkind : s.current.token.kind ≠ .eof) :
    (advance s).1 = s.current.token ∧ s₀.RightBehind s.current (advance s).2 := by
  obtain ⟨rest, hleft⟩ := left_of_kind (h.behind.ready h.start) hkind
  rw [advance_of_left hleft]
  exact ⟨rfl, hleft ▸ h.behind.left, h.behind.eof, rfl⟩

/-- A string literal that is taken is the token behind which parsing is then. -/
theorem string?_ends : Leads (After s₀) string? fun tag t => After s₀ t ∧ ∀ l ∈ tag,
    ∃ x, s₀.RightBehind x t ∧ x.token.kind = .string ∧ l = ⟨x.token.pos, .string, x.token.text⟩ := by
  refine .check fun b => .ite (fun hb => ?_) fun _ => .pure fun s hs => ⟨hs.1, nofun⟩
  rintro s ⟨hs, hkind⟩
  have hkind := beq_iff_eq.1 (hkind.trans hb)
  obtain ⟨htaken, hbehind⟩ := advance_rightBehind hs (by rw [hkind]; decide)
  refine ⟨advance_passes.leads (After.lasting s₀) s hs, fun l hl => ⟨s.current, hbehind, hkind, ?_⟩⟩
  obtain rfl : (⟨(advance s).1.pos, .string, (advance s).1.text⟩ : Lit) = l := Option.some.inj hl
  rw [htaken]

/-- Parsing has got behind the end of a field whose tag is `x`: behind what ends the item, if that is the
next token, and else behind the tag. -/
def PastField (s₀ : ParseState) (x : SignificantToken) (t : ParseState) : Prop :=
  ∃ v, s₀.RightBehind x v ∧ s₀.RightBehind (if v.current.token.EndsItem then v.current else x) t

theorem endOfItem_ends :
    Leads (fun s => After s₀ s ∧ s₀.RightBehind x s) endOfItem fun _ => PastField s₀ x := by
  have hpast {s t : ParseState} (hx : s₀.RightBehind x s) (hends : s.current.token.EndsItem)
      (ht : s₀.RightBehind s.current t) : PastField s₀ x t := ⟨s, hx, by rwa [if_pos hends]⟩
  refine .kind fun k => ?_
  split
  · rintro s ⟨⟨hs, hx⟩, hcomma⟩
    -- the report leaves the tokens alone
    let reported := (reportExpected (TokenKind.punct .semicolon).name s).2
    have hreported : After s₀ reported :=
      (After.lasting s₀).behind s _ hs ⟨List.suffix_refl _, rfl, rfl⟩
    have hkind : reported.current.token.kind = .punct .comma := hcomma
    exact hpast hx (.inr hcomma) (advance_rightBehind hreported (by rw [hkind]; decide)).2
  · rintro s ⟨⟨hs, hx⟩, hsemicolon⟩
    exact hpast hx (.inl hsemicolon) (advance_rightBehind hs (by rw [hsemicolon]; decide)).2
  · next hcomma hsemicolon =>
    refine .pure fun s hs => ⟨s, hs.1.2, ?_⟩
    rw [if_neg fun h => h.elim (fun h => hsemicolon (hs.2.symm.trans h))
      fun h => hcomma (hs.2.symm.trans h)]
    exact hs.1.2

/-- What is known behind a member with a tag: parsing has got past the end of it, and its comment is
found there. -/
def TagEnds (s₀ : ParseState) (m : Member) (t : ParseState) : Prop :=
  ∀ l ∈ m.tag, ∃ x, x.token.kind = .string ∧ l = ⟨x.token.pos, .string, x.token.text⟩ ∧
    PastField s₀ x t ∧ m.comment = t.current.trailing

theorem field_ends (scope : ScopeId) (i : Nat) : Leads (After s₀) (field scope i) (TagEnds s₀) := by
  have hlasting := After.lasting s₀
  refine takeLead_passes.skip hlasting fun doc => ?_
  refine fieldOptions_passes.skip hlasting fun options => ?_
  refine typeAndNames_passes.skip hlasting fun p => string?_ends.bind fun tag => ?_
  cases tag with
  | none => exact fun s hs l hl => by cases hl
  | some l =>
    rintro s ⟨hs, hl⟩
    obtain ⟨x, hx, hkind, rfl⟩ := hl l rfl
    let ended := (endOfItem s).2
    have hended : PastField s₀ x ended := endOfItem_ends s ⟨hs, hx⟩
    let origin : Origin := .field ended.fileId ended.declIndex i
    have hbeside : Beside (do
        p.2.forM fun name => declare name .var origin none scope
        resolveTypeExpr p.1) :=
      .bind (.forM fun name => declare_beside name .var origin none scope) fun _ =>
        resolveTypeExpr_beside p.1
    intro l hl
    obtain rfl := Option.some.inj hl
    obtain ⟨v, hv, hend⟩ := hended
    -- the comment is read before names are declared, where the same token is the current one
    obtain ⟨hleft, heof, -⟩ := hbeside ended
    refine ⟨x, hkind, rfl, ⟨v, hv, hbeside.rightBehind hend⟩, ?_⟩
    show ended.current.trailing = _
    unfold ParseState.current
    rw [← hleft, ← heof]
    rfl

theorem member?_ends (kind : BeanKind) (scope : ScopeId) (i : Nat) :
    Leads (After s₀) (member? kind scope i) fun r t => ∀ m ∈ r, TagEnds s₀ m t := by
  have hsome {m : Parse Member} (h : Leads (After s₀) m (TagEnds s₀)) :
      Leads (After s₀) (some <$> m) fun r t => ∀ m ∈ r, TagEnds s₀ m t :=
    .map fun s hs => by simpa using h s hs
  have huntagged {m : Parse Member} (h : ∀ s, (m s).1.tag = none) :
      Leads (After s₀) m (TagEnds s₀) := fun s _ l hl => by
    rw [h s] at hl
    cases hl
  refine .current fun t => .forget ?_
  split
  case h_1 => exact hsome (huntagged fun _ => rfl)
  case h_2 => exact hsome (huntagged fun _ => rfl)
  case h_11 => exact .pure (by simp)
  all_goals exact hsome (field_ends scope i)

/-- The doc of a member is what leads its first token. -/
theorem member?_doc (kind : BeanKind) (scope : ScopeId) (i : Nat) (doc : Option CommentGroup) :
    Leads (fun s => s.lead = doc) (member? kind scope i) fun r _ => ∀ m ∈ r, m.doc = doc := by
  have hsome {m : Parse Member} (h : ∀ s, (m s).1.doc = s.lead) :
      Leads (fun s => s.lead = doc) (some <$> m) fun r _ => ∀ m ∈ r, m.doc = doc := by
    rintro s rfl x hx
    exact Option.some.inj hx ▸ h s
  refine .current fun t => .forget ?_
  split
  case h_1 => exact hsome fun _ => rfl
  case h_2 => exact hsome fun _ => rfl
  case h_11 => exact .pure (by simp)
  all_goals exact hsome fun _ => rfl

end Parse

/-! ### Comments on the line on which a token ends -/

/-- The comment `c` starts on the line on which the token `a` ends, and whatever comes behind the comment,
`back` or else `b`, starts below the line on which it ends. -/
structure ClosesLine (lineOf : Pos → Nat) (a c : Token) (back : List Token) (b : Token) : Prop where
  line : lineOf c.pos = lineOf a.span.stop
  next : ∀ t ∈ (back ++ [b]).head?, lineOf c.span.stop < lineOf t.pos

/-- The token `a` stands in front of the comments `cs` and the token `b` as tokens of a source do. -/
structure OrderlyBehind (lineOf : Pos → Nat) (a : Token) (cs : List Token) (b : Token) : Prop
    extends Orderly lineOf cs b where
  span : lineOf a.pos ≤ lineOf a.span.stop
  behind : ∀ t ∈ cs ++ [b], lineOf a.span.stop ≤ lineOf t.pos

namespace OrderlyBehind

variable {lineOf : Pos → Nat} {a b c : Token} {front back cs : List Token}

/-- Everything behind a comment that closes its line is below it. -/
theorem below (h : OrderlyBehind lineOf a (front ++ c :: back) b) (hc : ClosesLine lineOf a c back b)
    {t : Token} (ht : t ∈ back ++ [b]) : lineOf c.span.stop < lineOf t.pos := by
  cases back with
  | nil =>
    rw [List.mem_singleton.1 ht]
    exact hc.next b rfl
  | cons d back =>
    have hlt := hc.next d rfl
    rcases List.mem_cons.1 ht with rfl | ht
    · exact hlt
    · have hspan := h.spans d (by simp)
      have hordered := h.ordered
      rw [List.append_assoc] at hordered
      obtain ⟨-, hbehind⟩ := List.pairwise_cons.1 (List.pairwise_append.1 hordered).2.1
      have hle := (List.pairwise_cons.1 hbehind).1 t ht
      omega

/-- If `a` stays on its line, the comments up to one that closes the line go on from that line. -/
theorem run_eq (h : OrderlyBehind lineOf a (front ++ c :: back) b)
    (hline : lineOf a.pos = lineOf a.span.stop) (hc : ClosesLine lineOf a c back b) :
    sameLineRun lineOf (some a) (front ++ c :: back) = front ++ [c] := by
  have hsplit : front ++ c :: back = front ++ [c] ++ back := by simp
  have hordered := h.ordered
  rw [hsplit, List.append_assoc] at hordered
  obtain ⟨hrun, -, -⟩ := List.pairwise_append.1 hordered
  -- whatever stands in front of `c` starts and ends on its line
  have hmem {d : Token} (hd : d ∈ front ++ [c]) : d ∈ front ++ c :: back := by
    rw [hsplit]
    exact List.mem_append_left _ hd
  have hstart {d : Token} (hd : d ∈ front ++ [c]) : lineOf d.pos = lineOf c.pos := by
    have hle := h.behind d (List.mem_append_left _ (hmem hd))
    have hspan := h.spans d (hmem hd)
    have hline := hc.line
    rcases List.mem_append.1 hd with hfront | hlast
    · have hend := (List.pairwise_append.1 hrun).2.2 d hfront c (List.mem_singleton_self c)
      omega
    · rw [List.mem_singleton.1 hlast]
  have hchain : (front ++ [c]).IsChain fun x y => (lineOf y.pos == lineOf x.span.stop) = true := by
    refine (hrun.imp_of_mem fun {x y} hx hy hle => ?_).isChain
    have hspan := h.spans x (hmem hx)
    have hxstart := hstart hx
    have hystart := hstart hy
    rw [beq_iff_eq]
    omega
  have hbreak : ∀ x ∈ (front ++ [c]).getLast?, ∀ y ∈ back.head?,
      (lineOf y.pos == lineOf x.span.stop) = false := by
    intro x hx y hy
    obtain rfl : c = x := by simpa using hx
    have hlt := h.below hc (List.mem_append_left [b] (List.mem_of_head? hy))
    exact beq_false_of_ne (Nat.ne_of_gt hlt)
  have hfirst : ∃ t ∈ some a, ∃ d ∈ (front ++ [c] ++ back).head?, lineOf d.pos = lineOf t.pos := by
    obtain ⟨d, ds, hd⟩ := List.exists_cons_of_ne_nil (List.append_ne_nil_of_right_ne_nil front
      (List.cons_ne_nil c []))
    refine ⟨a, rfl, d, by rw [hd]; rfl, ?_⟩
    rw [hstart (hd ▸ List.mem_cons_self), hc.line, hline]
  unfold sameLineRun
  rw [hsplit, if_pos hfirst, List.splitBy_append hbreak,
    List.splitBy_of_isChain (List.append_ne_nil_of_right_ne_nil front (List.cons_ne_nil c [])) hchain]
  rfl

/-- A comment that closes the line ends the comments that trail the token. -/
theorem trailingGroup_eq (h : OrderlyBehind lineOf a (front ++ c :: back) b)
    (hline : lineOf a.pos = lineOf a.span.stop) (hc : ClosesLine lineOf a c back b) :
    trailingGroup lineOf (some a) (front ++ c :: back) b = some (.ofTokens (front ++ [c])) := by
  have hb := h.below hc (List.mem_append_right back (List.mem_singleton_self b))
  unfold trailingGroup
  rw [h.run_eq hline hc]
  exact if_pos ⟨c, List.getLast?_concat, .inr (Nat.ne_of_gt hb)⟩

/-- A comment that closes the line does not lead the next token. -/
theorem not_mem_leadingGroup (h : OrderlyBehind lineOf a (front ++ c :: back) b)
    (hline : lineOf a.pos = lineOf a.span.stop) (hc : ClosesLine lineOf a c back b) :
    ∀ g ∈ leadingGroup lineOf (some a) (front ++ c :: back) b, c.comment ∉ g.comments := by
  intro g hg hmem
  have hrest : (front ++ c :: back).drop (front ++ [c]).length = back := by
    rw [List.append_cons front c back, List.drop_left]
  simp only [leadingGroup, h.run_eq hline hc, hrest] at hg
  obtain ⟨block, hblock, rfl⟩ := Option.map_eq_some_iff.1 hg
  have hblock := List.mem_of_getLast? (Option.filter_eq_some_iff.1 hblock).1
  obtain ⟨d, hd, hdc⟩ := List.mem_map.1 hmem
  have hback : d ∈ back := by
    rw [← List.flatten_splitBy _ back]
    exact List.mem_flatten.2 ⟨block, hblock, hd⟩
  have hbelow := h.below hc (List.mem_append_left [b] hback)
  have hspan := h.spans c (List.mem_append_right front List.mem_cons_self)
  have hpos : d.pos = c.pos := congrArg Comment.slash hdc
  rw [hpos] at hbelow
  omega

/-- Behind a token that spans lines no comments go on from the line on which it starts. -/
theorem trailingGroup_eq_none (h : OrderlyBehind lineOf a cs b)
    (hline : lineOf a.pos ≠ lineOf a.span.stop) : trailingGroup lineOf (some a) cs b = none := by
  have hrun : sameLineRun lineOf (some a) cs = [] := by
    refine if_neg ?_
    rintro ⟨t, ht, c, hc, heq⟩
    obtain rfl := Option.some.inj ht
    have hspan := h.span
    have hle := h.behind c (List.mem_append_left _ (List.mem_of_head? hc))
    omega
  unfold trailingGroup
  rw [hrun]
  exact if_neg (by simp)

end OrderlyBehind

namespace Source

variable (s : Source) {base : Pos}

theorem orderlyBehind (hbase : base ≠ 0) {a b : Token} {cs : List Token}
    (h : StandBetween (s.tokensAt base) (some a) cs b) :
    OrderlyBehind (s.fileAt base).lineOf a cs b := by
  have horderly := s.orderly hbase h
  obtain ⟨front, idle, back, hts, hlast, -, -, -, rfl⟩ := h
  obtain ⟨init, rfl⟩ := List.getLast?_eq_some_iff.1 hlast
  have hsub : (a :: (idle.filter (fun t => t.kind = .comment) ++ [b])).Sublist (s.tokensAt base) := by
    rw [hts, List.append_assoc]
    refine List.Sublist.trans ?_ (List.sublist_append_right init _)
    refine .cons_cons a (List.filter_sublist.append ?_)
    exact List.singleton_sublist.2 List.mem_cons_self
  obtain ⟨hstart, hspan, hstop⟩ := s.within_tokensAt base (hsub.subset List.mem_cons_self)
  exact ⟨horderly, s.lineOf_mono hbase hstart hspan hstop,
    (List.pairwise_cons.1 ((s.lines_ordered hbase).sublist hsub)).1⟩

/-- The tokens to parse are tokens of the source. -/
theorem mem_tokensAt (files : FileSet) (symbols : SymbolTable) {x : SignificantToken}
    (hx : x ∈ (s.startAt files symbols).left) : x.token ∈ s.tokensAt files.next := by
  have hmem := List.mem_append_left [(s.startAt files symbols).eof] hx
  rw [s.left_startAt files symbols] at hmem
  have htoken := List.mem_map_of_mem (f := (·.token)) hmem
  unfold significant at htoken
  rw [significantFrom_token] at htoken
  exact (List.mem_filter.1 htoken).1

/-- Where parsing gets to behind a token are the comments behind it. -/
theorem rightBehind_attached (files : FileSet) (symbols : SymbolTable) (hbegun : files.next ≠ 0)
    {x : SignificantToken} {t : ParseState} (hx : (s.startAt files symbols).RightBehind x t)
    {cs : List Token} {b : Token} (h : StandBetween (s.tokensAt files.next) (some x.token) cs b) :
    t.current.token = b ∧
      t.current.trailing = trailingGroup (s.fileAt files.next).lineOf (some x.token) cs b ∧
      t.lead = leadingGroup (s.fileAt files.next).lineOf (some x.token) cs b := by
  obtain ⟨front, y, back, hleft, hlast, hy, htrailing, hleading⟩ := s.attached files symbols hbegun h
  have hcurrent := hx.current (s.startAt_ready files symbols hbegun) hleft hlast
  rw [hx.lead, hcurrent]
  exact ⟨hy, htrailing, hleading⟩

/-- While a bean is parsed, its member with a tag is taken up to its end, where its comment and the doc of
the next member are. -/
theorem tagged_taken (files : FileSet) (symbols : SymbolTable) (hbegun : files.next ≠ 0)
    {r : ParseResult} (hr : parseFile files symbols s.name s.text = .ok r) {bean : Bean}
    (hbean : Decl.bean bean ∈ r.file.decls) {before after : List Member} {m : Member}
    (hmembers : bean.body.members = before ++ m :: after) {l : Lit} (htag : m.tag = some l) :
    ∃ x t, x.token.kind = .string ∧ l = ⟨x.token.pos, .string, x.token.text⟩ ∧
      Parse.PastField (s.startAt files symbols) x t ∧ m.comment = t.current.trailing ∧
      ∀ n ∈ after.head?, n.doc = t.lead := by
  have hready := s.startAt_ready files symbols hbegun
  obtain ⟨groups, hfile⟩ := s.file_startAt files symbols hr
  rw [hfile] at hbean
  obtain ⟨u, u', hu, hu'⟩ :=
    (Parse.file_beans groups hready).members (List.mem_filterMap.2 ⟨_, hbean, rfl⟩)
  rw [hmembers] at hu'
  obtain ⟨v, t, scope, i, hv, -, hm, hafter⟩ := hu'.split
  have hends := Parse.member?_ends bean.kind scope i v ⟨hready, hu.trans hv⟩
  rw [hm] at hends
  obtain ⟨x, hkind, hl, hpast, hcomment⟩ := hends m rfl l htag
  refine ⟨x, t, hkind, hl, hpast, hcomment, fun n hn => ?_⟩
  cases hafter with
  | nil => cases hn
  | @cons _ _ _ scope i _ _ hready hnext hrest =>
    obtain rfl := Option.some.inj hn
    have hdoc := Parse.member?_doc bean.kind scope i _ t rfl
    rw [hnext] at hdoc
    exact hdoc _ rfl

end Source

/-- Behind a token that counts there is a next one, at the latest the last of all tokens. -/
theorem exists_standBetween {ts : List Token} {a z : Token} (h : a ∈ ts) (ha : ¬ a.IsIdle)
    (hz : ¬ z.IsIdle) : ∃ cs b, StandBetween (ts ++ [z]) (some a) cs b := by
  obtain ⟨front, rest, rfl⟩ := List.append_of_mem h
  obtain ⟨idle, b, back, hrest, hidle, hb⟩ : ∃ idle b back, rest ++ [z] = idle ++ b :: back ∧
      (∀ t ∈ idle, t.IsIdle) ∧ ¬ b.IsIdle := by
    induction rest with
    | nil => exact ⟨[], z, [], rfl, nofun, hz⟩
    | cons t rest ih =>
      by_cases ht : t.IsIdle
      · obtain ⟨idle, b, back, hrest, hidle, hb⟩ := ih (by simp)
        exact ⟨t :: idle, b, back, congrArg (t :: ·) hrest, List.forall_mem_cons.2 ⟨ht, hidle⟩, hb⟩
      · exact ⟨[], t, rest ++ [z], rfl, nofun, ht⟩
  refine ⟨_, b, front ++ [a], idle, back, ?_, List.getLast?_concat, ?_, hidle, hb, rfl⟩
  · rw [List.append_assoc, List.append_assoc, ← hrest]
    rfl
  · rintro t ht
    exact Option.some.inj ht ▸ ha

/-- **Comments behind fields.**  In a bean of a file, let a field with a tag end with the token `a`, and
let a comment start on the line on which `a` ends, with nothing more on the line on which the comment
ends.  If the tag stays on its line, or if the field ends with a semicolon, then the comment ends those
that trail the field, and it is not among those that lead the next member.  If the field ends with a tag
that spans lines, then no comment trails the field. -/
theorem trailing_comments (files : FileSet) (symbols : SymbolTable) (s : Source)
    (hbegun : files.next ≠ 0) {r : ParseResult}
    (hr : parseFile files symbols s.name s.text = .ok r) {bean : Bean}
    (hbean : Decl.bean bean ∈ r.file.decls) {before after : List Member} {m : Member}
    (hmembers : bean.body.members = before ++ m :: after) {l : Lit} (htag : m.tag = some l) :
    let lineOf := (s.fileAt files.next).lineOf
    let tokens := s.tokensAt files.next
    ∃ tag ∈ tokens, tag.kind = .string ∧ l = ⟨tag.pos, .string, tag.text⟩ ∧
      (∃ a, EndsField tokens tag a) ∧ ∀ a, EndsField tokens tag a →
        ∀ front c back b, StandBetween tokens (some a) (front ++ c :: back) b →
          ClosesLine lineOf a c back b →
            ((a = tag → lineOf tag.pos = lineOf tag.span.stop) →
              m.comment = some (.ofTokens (front ++ [c])) ∧
              ∀ n ∈ after.head?, ∀ g ∈ n.doc, c.comment ∉ g.comments) ∧
            (a = tag → lineOf tag.pos ≠ lineOf tag.span.stop → m.comment = none) := by
  intro lineOf tokens
  obtain ⟨x, t, hkind, hl, ⟨w, hw, hend⟩, hcomment, hdoc⟩ :=
    s.tagged_taken files symbols hbegun hr hbean hmembers htag
  have hx : x.token ∈ tokens := s.mem_tokensAt files symbols (hw.left.subset List.mem_cons_self)
  have hnext : ∃ cs b, StandBetween tokens (some x.token) cs b := by
    rcases List.mem_append.1 hx with hx | hx
    · exact exists_standBetween hx (not_or.2 ⟨by simp [hkind], by simp [hkind]⟩)
        (not_or.2 ⟨nofun, nofun⟩)
    · rw [List.mem_singleton.1 hx] at hkind
      cases hkind
  refine ⟨x.token, hx, hkind, hl, ?_, ?_⟩
  · obtain ⟨cs, b, h⟩ := hnext
    exact ⟨_, cs, b, h, rfl⟩
  rintro a ⟨cs, b', hb', ha⟩ front c back b hbetween hcloses
  -- parsing gets behind the token with which the field ends
  obtain ⟨hcurrent, -⟩ := s.rightBehind_attached files symbols hbegun hw hb'
  obtain ⟨y, hy, rfl⟩ : ∃ y, (s.startAt files symbols).RightBehind y t ∧ y.token = a := by
    refine ⟨_, hend, ?_⟩
    rw [ha, ← hcurrent]
    exact apply_ite SignificantToken.token _ _ _
  -- and finds there what trails it and what leads the next token
  obtain ⟨-, htrailing, hleading⟩ := s.rightBehind_attached files symbols hbegun hy hbetween
  have horderly := s.orderlyBehind hbegun hbetween
  rw [hcomment, htrailing]
  refine ⟨fun hline => ?_, fun htag hline => horderly.trailingGroup_eq_none (htag ▸ hline)⟩
  -- a semicolon stays on its line, and the tag does if it ends the field
  have hstays : lineOf y.token.pos = lineOf y.token.span.stop := by
    by_cases hitem : b'.EndsItem
    · rw [if_pos hitem] at ha
      obtain ⟨front, idle, back, hts, -⟩ := hb'
      have hmem : b' ∈ tokens := by simp [hts]
      rw [ha]
      refine (s.lineOf_stop_eq hbegun hmem ?_).symm
      rcases hitem with h | h <;> simp [h]
    · rw [if_neg hitem] at ha
      exact ha ▸ hline ha
  refine ⟨horderly.trailingGroup_eq hstays hcloses, fun n hn g hg => ?_⟩
  rw [hdoc n hn, hleading] at hg
  exact horderly.not_mem_leadingGroup hstays hcloses g hg

/-- Two fields, the first one with a tag that spans lines and a comment behind its end. -/
def spanningTag (ending : String) : Source :=
  ⟨"a.mid", "package p\nstruct S \x7b\n  int32 a `x\ny`" ++ ending ++ " // c\n  int32 b\n\x7d"⟩

/-- What is read off the parsed file, for the two fields of its only bean. -/
theorem exists_spanningTag (ending : String) {α : Type} (f : Member → α) (x y : α)
    (h : (parseFile {} {} (spanningTag ending).name (spanningTag ending).text).toOption.map (fun r =>
      (r.file.decls.filterMap Decl.bean?).map fun b => b.body.members.map f) = some [[x, y]]) :
    ∃ r bean m n, parseFile {} {} (spanningTag ending).name (spanningTag ending).text = .ok r ∧
      Decl.bean bean ∈ r.file.decls ∧ bean.body.members = [] ++ m :: [n] ∧ f m = x ∧ f n = y := by
  cases hparse : parseFile {} {} (spanningTag ending).name (spanningTag ending).text with
  | error e =>
    rw [hparse] at h
    cases h
  | ok r =>
    rw [hparse] at h
    obtain ⟨bean, hbean, hfields⟩ := List.map_eq_singleton_iff.1 (Option.some.inj h)
    obtain ⟨m, rest, hmembers, hm, hrest⟩ := List.map_eq_cons_iff.1 hfields
    obtain ⟨n, rfl, hn⟩ := List.map_eq_singleton_iff.1 hrest
    have hmem : bean ∈ r.file.decls.filterMap Decl.bean? := by rw [hbean]; exact List.mem_singleton_self _
    obtain ⟨d, hd, hdb⟩ := List.mem_filterMap.1 hmem
    cases d with
    | bean b => exact ⟨r, bean, m, n, rfl, Option.some.inj hdb ▸ hd, hmembers, hm, hn⟩
    | _ => cases hdb

theorem trailing_comments_closed :
    let s := spanningTag ";"
    FileSet.next {} ≠ 0 ∧ ∃ r bean m n, parseFile {} {} s.name s.text = .ok r ∧
      Decl.bean bean ∈ r.file.decls ∧ bean.body.members = [] ++ m :: [n] ∧
      m.tag = some ⟨32, .string, "`x\ny`"⟩ ∧ m.comment = some ⟨[⟨39, "// c"⟩]⟩ ∧
      ∀ g ∈ n.doc, ⟨39, "// c"⟩ ∉ g.comments := by
  intro s
  have hbegun : FileSet.next {} ≠ 0 := by decide
  obtain ⟨r, bean, m, n, hparse, hbean, hmembers, htag, -⟩ :=
    exists_spanningTag ";" Member.tag (some ⟨32, .string, "`x\ny`"⟩) none (by decide +kernel)
  let tokens := s.tokensAt (FileSet.next {})
  let tag : Token := ⟨.string, "`x\ny`", ⟨32, 37⟩⟩
  let semicolon : Token := ⟨.punct .semicolon, ";", ⟨37, 38⟩⟩
  let comment : Token := ⟨.comment, "// c", ⟨39, 43⟩⟩
  let behind : Token := ⟨.ident, "int32", ⟨46, 51⟩⟩
  obtain ⟨t, ht, hkind, hl, -, h⟩ := trailing_comments {} {} s hbegun hparse hbean hmembers htag
  obtain rfl : t = tag := by
    have hone : ∀ u ∈ tokens, u.pos = 32 → u = tag := by decide +kernel
    have hpos : 32 = t.pos := congrArg Lit.pos hl
    exact hone t ht hpos.symm
  have hends : EndsField tokens tag semicolon :=
    ⟨[], semicolon, ⟨tokens.take 8, [], tokens.drop 9, by decide +kernel⟩, rfl⟩
  have hbetween : StandBetween tokens (some semicolon) ([] ++ comment :: []) behind :=
    ⟨tokens.take 9, [comment], tokens.drop 11, by decide +kernel⟩
  have hcloses : ClosesLine (s.fileAt (FileSet.next {})).lineOf semicolon comment [] behind :=
    ⟨by decide +kernel, by decide +kernel⟩
  obtain ⟨hcomment, hdoc⟩ := (h semicolon hends [] comment [] behind hbetween hcloses).1 (by decide)
  exact ⟨hbegun, r, bean, m, n, hparse, hbean, hmembers, htag, hcomment, hdoc n rfl⟩

/-- Behind a tag that spans lines, the comment on the line on which the tag ends does not trail the field
but leads the next member. -/
theorem trailing_comments_astray :
    let s := spanningTag ""
    let tokens := s.tokensAt (FileSet.next {})
    let tag : Token := ⟨.string, "`x\ny`", ⟨32, 37⟩⟩
    let comment : Token := ⟨.comment, "// c", ⟨38, 42⟩⟩
    let behind : Token := ⟨.ident, "int32", ⟨45, 50⟩⟩
    ∃ r bean m n, parseFile {} {} s.name s.text = .ok r ∧ Decl.bean bean ∈ r.file.decls ∧
      bean.body.members = [] ++ m :: [n] ∧ m.tag = some ⟨tag.pos, .string, tag.text⟩ ∧
      tag ∈ tokens ∧ EndsField tokens tag tag ∧ StandBetween tokens (some tag) [comment] behind ∧
      ClosesLine (s.fileAt (FileSet.next {})).lineOf tag comment [] behind ∧
      m.comment = none ∧ n.doc = some ⟨[comment.comment]⟩ := by
  intro s tokens tag comment behind
  obtain ⟨r, bean, m, n, hparse, hbean, hmembers, hm, hn⟩ :=
    exists_spanningTag "" (fun m => (m.tag, m.comment, m.doc))
      (some ⟨32, .string, "`x\ny`"⟩, none, none) (none, none, some ⟨[⟨38, "// c"⟩]⟩)
      (by decide +kernel)
  obtain ⟨htag, hcomment⟩ := Prod.mk.inj hm
  have hbetween : StandBetween tokens (some tag) [comment] behind :=
    ⟨tokens.take 8, [comment], tokens.drop 10, by decide +kernel⟩
  have hcloses : ClosesLine (s.fileAt (FileSet.next {})).lineOf tag comment [] behind :=
    ⟨by decide +kernel, by decide +kernel⟩
  exact ⟨r, bean, m, n, hparse, hbean, hmembers, htag, by decide +kernel,
    ⟨[comment], behind, hbetween, rfl⟩, hbetween, hcloses, (Prod.mk.inj hcomment).1,
    (Prod.mk.inj (Prod.mk.inj hn).2).2⟩

end Idl
