/-
Idl/Proofs/Syntax/Kept.lean

What the parser takes without a report is written in the tree.

Each rule shows in its answer what stands in the tokens that it takes (`Parse.Shows`): every
identifier, literal and word before a field, and nothing else but the period in place of the name of
an import.  `Parse.Adds` says this of the rest of a rule, behind tokens whose occurrences are in its
answer already, so that a rule is followed from its first token to its last.  Where a loop steps over
a token that belongs to nothing, something was reported.

A constant with the value of the one before shows what is written elsewhere.  A value of its own is no
such copy, because it stands at a place of its own.

Main result: a file about which nothing is reported keeps its tokens (`parseFile_keeps`).
-/
import Idl.Proofs.Syntax.Accepted
import Idl.Proofs.Syntax.Ending
import Idl.Proofs.Syntax.Written

namespace Idl

/-! ### Tokens that show what is written -/

/-- What the tokens show. -/
def occurrencesOf (ts : List Token) : List Occurrence := ts.filterMap Token.occurrence?

theorem occurrencesOf_append (ts us : List Token) :
    occurrencesOf (ts ++ us) = occurrencesOf ts ++ occurrencesOf us := List.filterMap_append

/-- The tokens show what is written and nothing else, but for periods. -/
structure ShownBy (ts : List Token) (w : List Occurrence) : Prop where
  sublist : w.Sublist (occurrencesOf ts)
  whole : w.filter (·.role ≠ .dot) = (occurrencesOf ts).filter (·.role ≠ .dot)

theorem ShownBy.append {ts us : List Token} {w w' : List Occurrence} (h : ShownBy ts w)
    (h' : ShownBy us w') : ShownBy (ts ++ us) (w ++ w') where
  sublist := occurrencesOf_append ts us ▸ h.sublist.append h'.sublist
  whole := by rw [List.filter_append, occurrencesOf_append, List.filter_append, h.whole, h'.whole]

theorem shownBy_nil : ShownBy [] [] := ⟨.slnil, rfl⟩

theorem shownBy_singleton {t : Token} {o : Occurrence} (h : t.occurrence? = some o) :
    ShownBy [t] [o] := by
  have hall : occurrencesOf [t] = [o] := by rw [occurrencesOf, List.filterMap_cons_some h]; rfl
  exact ⟨hall ▸ .refl _, by rw [hall]⟩

/-- What belongs to no occurrence, and a period, need not be written. -/
theorem shownBy_unwritten {t : Token} (h : t.kind.role? = none ∨ t.kind.role? = some .dot) :
    ShownBy [t] [] := by
  rcases h with h | h
  · have hnone : t.occurrence? = none := by rw [Token.occurrence?, h]; rfl
    exact ⟨List.nil_sublist _, by rw [occurrencesOf, List.filterMap_cons_none hnone]; rfl⟩
  · have hsome : t.occurrence? = some ⟨.dot, t.text, t.pos⟩ := by rw [Token.occurrence?, h]; rfl
    refine ⟨List.nil_sublist _, ?_⟩
    rw [occurrencesOf, List.filterMap_cons_some hsome]
    rfl

/-- Tokens as they stand in a source: each one behind the one before, and spelled right. -/
structure InSource (ts : List Token) : Prop where
  increasing : ts.Pairwise fun t u => t.pos < u.pos
  spelled : ∀ t ∈ ts, t.Spelled

theorem InSource.left {ts us : List Token} (h : InSource (ts ++ us)) : InSource ts where
  increasing := (List.pairwise_append.1 h.increasing).1
  spelled t ht := h.spelled t (List.mem_append_left _ ht)

theorem InSource.right {ts us : List Token} (h : InSource (ts ++ us)) : InSource us where
  increasing := (List.pairwise_append.1 h.increasing).2.1
  spelled t ht := h.spelled t (List.mem_append_right _ ht)

namespace Grammar

/-- Tokens that show what is written, wherever they stand in a source. -/
def showing (w : List Occurrence) : Language Token := {ts | InSource ts → ShownBy ts w}

/-- What turns a sentence of the first language into one of the second, behind it. -/
def onto (l m : Language Token) : Language Token := {ts | ∀ us ∈ l, us ++ ts ∈ m}

variable {l m n : Language Token} {w w' : List Occurrence}

theorem onto_mul_onto : onto l m * onto m n ≤ onto l n := by
  rintro ts ⟨us, hus, vs, hvs, rfl⟩ xs hxs
  show xs ++ (us ++ vs) ∈ n
  rw [← List.append_assoc]
  exact hvs _ (hus xs hxs)

theorem one_le_onto : 1 ≤ onto l l := by
  rintro ts rfl us hus
  rwa [List.append_nil]

theorem mem_of_onto {ts : List Token} (hl : [] ∈ l) (h : ts ∈ onto l m) : ts ∈ m := h [] hl

theorem append_mem_showing {ts us : List Token} (h : ts ∈ showing w) (h' : us ∈ showing w') :
    ts ++ us ∈ showing (w ++ w') := fun hs => (h hs.left).append (h' hs.right)

theorem nil_mem_showing : [] ∈ showing [] := fun _ => shownBy_nil

theorem one_le_showing : 1 ≤ showing [] := by
  rintro ts rfl
  exact nil_mem_showing

theorem token_le_showing {k : TokenKind} (h : k.role? = none ∨ k.role? = some .dot) :
    token k ≤ showing [] := by
  rintro ts ⟨t, rfl, rfl⟩ -
  exact shownBy_unwritten h

theorem semicolon_le_showing : semicolon ≤ showing [] := by
  rintro ts (hts | hts)
  · exact one_le_showing hts
  · exact token_le_showing (.inl rfl) hts

end Grammar

/-! ### Rules that show what they take -/

namespace Parse

open Grammar

variable {α β : Type} {P Q : ParseState → Prop} {l : Language Token} {pre : List Occurrence}

/-- What the rule takes is written in its answer, as `w` says, unless it reports something. -/
abbrev Shows (P : ParseState → Prop) (m : Parse α) (w : α → List Occurrence) : Prop :=
  Accepts P m fun a => showing (w a)

/-- Behind tokens that show `pre`, the rule takes such that all of it is written in its answer, unless
it reports something. -/
abbrev Adds (P : ParseState → Prop) (pre : List Occurrence) (m : Parse α)
    (w : α → List Occurrence) : Prop :=
  Accepts P m fun a => onto (showing pre) (showing (w a))

/-- What each repetition adds, all of them add. -/
theorem Accepts.loop {step : α → Parse (Option α)} {J : α → Language Token}
    (h : ∀ a, Accepts Anywhere (step a) fun r => onto (J a) (J (r.getD a))) (a : α) :
    Accepts P (iterate step a) fun b => onto (J a) (J b) :=
  Accepts.iterate (M := fun a b => onto (J a) (J b)) h (fun _ => le_rfl) (fun _ _ => le_rfl)
    (fun _ _ _ => onto_mul_onto) a

namespace Adds

variable {m : Parse α} {f : α → Parse β} {v : α → List Occurrence} {w : β → List Occurrence}

/-- A rule that starts with nothing shows what it adds. -/
theorem shows (hm : Adds P [] m v) : Shows P m v :=
  Accepts.mono hm fun _ _ => mem_of_onto nil_mem_showing

/-- One rule behind another. -/
protected theorem bind (hm : Adds P pre m v) (hf : ∀ a, Adds Anywhere (v a) (f a) w) :
    Adds P pre (m >>= f) w := Accepts.bind hm hf fun _ _ => onto_mul_onto

/-- What a rule shows, it adds. -/
theorem next (hm : Shows P m v) (hf : ∀ a, Adds Anywhere (pre ++ v a) (f a) w) :
    Adds P pre (m >>= f) w :=
  Adds.bind (hm.mono fun _ _ hts _ hus => append_mem_showing hus hts) hf

/-- A rule that takes nothing that is written. -/
theorem skip (hl : l ≤ showing []) (hm : Spells P m l) (hf : ∀ a, Adds Anywhere pre (f a) w) :
    Adds P pre (m >>= f) w := by
  refine Adds.bind (v := fun _ => pre) (hm.mono fun _ _ hts us hus => ?_) hf
  exact List.append_nil pre ▸ append_mem_showing hus (hl hts)

/-- A rule that does nothing to the tokens. -/
theorem silent (hm : Silent m) (hf : ∀ a, Adds Anywhere pre (f a) w) : Adds P pre (m >>= f) w :=
  skip one_le_showing (.of_silent hm) hf

theorem expect {k : TokenKind} {f : Pos → Parse β} (hk : k ≠ .eof) (hrole : k.role? = none)
    (hf : ∀ p, Adds Anywhere pre (f p) w) : Adds P pre (Parse.expect k >>= f) w :=
  skip (token_le_showing (.inl hrole)) (expect_spells hk) hf

theorem advance {k : TokenKind} {f : Token → Parse β} (hk : k ≠ .eof)
    (hrole : k.role? = none ∨ k.role? = some .dot) (hf : ∀ t, Adds Anywhere pre (f t) w) :
    Adds (At k) pre (Parse.advance >>= f) w :=
  skip (token_le_showing hrole) (advance_spells hk) hf

protected theorem pure {a : α} (h : v a = pre) : Adds P pre (pure a) v :=
  Accepts.pure (h ▸ one_le_onto)

theorem iterate {step : α → Parse (Option α)}
    (h : ∀ a, Adds Anywhere (v a) (step a) fun r => v (r.getD a)) (a : α) :
    Adds P (v a) (iterate step a) v := Accepts.loop h a

end Adds

/-! ### Tokens -/

theorem mem_showing_token {t : Token} {o : Occurrence} (h : t.occurrence? = some o) :
    [t] ∈ showing [o] := fun _ => shownBy_singleton h

theorem ident_shows : Shows P ident fun i => [i.occurrence .name] :=
  ident_accepts.mono fun i ts ⟨t, hk, htext, hpos, hts⟩ => by
    subst hts
    refine mem_showing_token ?_
    rw [Token.occurrence?, hk, htext, hpos]
    rfl

theorem lit_shows {k : TokenKind} {lit : LitKind} (hk : k.role? = some (.lit lit)) :
    Shows (At k) (Parse.lit lit) fun l => [l.occurrence] := by
  have heof : k ≠ .eof := by rintro rfl; cases hk
  refine Accepts.bind (advance_accepts heof) (N := fun t l => {ts | l = ⟨t.pos, lit, t.text⟩ ∧ ts = []})
    (fun t => .pure fun ts hts => ⟨rfl, hts⟩) fun t l => ?_
  rintro ts ⟨us, ⟨hkind, rfl⟩, vs, ⟨rfl, rfl⟩, rfl⟩
  refine mem_showing_token ?_
  rw [Token.occurrence?, hkind, hk]
  rfl

theorem string?_shows : Shows P string? fun l => l.toList.map Lit.occurrence := by
  refine .check ?_ (.pure one_le_showing)
  exact Adds.shows (.next (lit_shows rfl) fun l => .pure rfl)

/-- A token that is used like an identifier. -/
theorem mark_accepts {k : TokenKind} (hk : k ≠ .eof) (g : Ident → β) :
    Accepts (At k) (advance >>= fun t => newIdent t.text t.pos >>= fun i => pure (g i)) fun b =>
      {ts | ∃ (t : Token) (i : Ident), t.kind = k ∧ t.text = i.name ∧ t.pos = i.pos ∧ b = g i ∧
        ts = [t]} := by
  rintro s heof rfl
  obtain ⟨rest, hleft⟩ := left_of_ne_eof heof hk
  rw [bind_apply, advance_of_left hleft]
  refine ⟨rfl, Nat.le_refl _, fun _ => ?_⟩
  refine ⟨[s.current.token], ⟨s.current.token, _, rfl, rfl, rfl, rfl, rfl⟩, ?_⟩
  rw [hleft]
  rfl

theorem moreIdents_adds (names : Array Ident) :
    Adds P (names.toList.map (Ident.occurrence .name)) (moreIdents names) fun r =>
      (r.getD names).toList.map (Ident.occurrence .name) := by
  refine .check ?_ (.pure one_le_onto)
  refine Adds.advance (by decide) (.inl rfl) fun _ => .next ident_shows fun i => .pure ?_
  simp

theorem identList_shows : Shows P identList fun is => is.map (Ident.occurrence .name) := by
  refine Adds.shows (.next ident_shows fun first => ?_)
  exact Adds.bind (Adds.iterate (v := fun names => names.toList.map (Ident.occurrence .name))
    moreIdents_adds #[first]) fun names => .pure rfl

/-! ### Types -/

theorem arraySize_shows : Shows P arraySize Value.written := by
  refine .kind fun k => ?_
  split
  · exact Adds.shows (.next (lit_shows rfl) fun l => .pure rfl)
  · exact Adds.shows (.next ident_shows fun i => .pure rfl)
  · exact .look _ fun s _ => (reportExpected_accepts _).reported fun _ => .pure le_top

/-- The word that heads a container is not written as an identifier. -/
theorem typeNested_shows (levels : Nat) : Shows P (typeNested levels) TypeExpr.written := by
  induction levels generalizing P with
  | zero =>
    refine .look _ fun s _ => ?_
    dsimp only
    split
    · exact (report_accepts _).reported fun _ => .pure le_top
    · exact (reportExpected_accepts _).reported fun _ => .pure le_top
  | succ n ih =>
    refine .check ?_ (.look _ fun s _ => (reportExpected_accepts _).reported fun _ => .pure le_top)
    refine Adds.shows (.next ident_shows fun name => .check ?_ ?_)
    · exact Adds.advance (by decide) (.inr rfl) fun _ => .next ident_shows fun i => .pure rfl
    rw [if_neg Bool.false_ne_true]
    split
    · exact Adds.pure rfl
    · next hb =>
      refine Adds.expect (by decide) rfl fun _ => .next ih fun key => ?_
      refine Adds.expect (by decide) rfl fun _ => .next ih fun value => ?_
      refine .expect (by decide) rfl fun closing => .pure ?_
      simp [TypeExpr.written, Ident.occurrence, Builtin.name_of_ofName? hb]
    · next hb =>
      refine Adds.expect (by decide) rfl fun _ => .next ih fun elem => ?_
      refine .expect (by decide) rfl fun _ => .next arraySize_shows fun size => ?_
      refine .expect (by decide) rfl fun closing => .pure ?_
      simp [TypeExpr.written, Ident.occurrence, Builtin.name_of_ofName? hb]
    · next hb =>
      refine Adds.expect (by decide) rfl fun _ => .next ih fun elem => ?_
      refine .expect (by decide) rfl fun closing => .pure ?_
      simp [TypeExpr.written, Ident.occurrence, Builtin.name_of_ofName? hb]
    · exact Adds.pure rfl

theorem typeExpr_shows : Shows P typeExpr TypeExpr.written := typeNested_shows _

/-! ### Signatures -/

theorem param_adds (sofar : ParamsSoFar) :
    Adds P (sofar.params.toList.flatMap Param.written) (param sofar) fun r =>
      (r.getD sofar).params.toList.flatMap Param.written := by
  refine .look _ fun s _ => .look _ fun s _ => ?_
  dsimp only
  split
  · exact .pure one_le_onto
  refine Adds.next typeExpr_shows fun type => .kind fun k => ?_
  split
  · refine Adds.next ident_shows fun name => .check ?_ (Adds.pure ?_)
    · exact Adds.advance (by decide) (.inl rfl) fun _ => .pure (by simp [Param.written])
    · simp [Param.written]
  · exact Adds.advance (by decide) (.inl rfl) fun _ => .pure (by simp [Param.written])
  · exact Adds.pure (by simp [Param.written])
  · exact .look _ fun s _ => (report_accepts _).reported fun _ => .pure le_top

theorem paramList_shows : Shows P paramList fun l => l.params.flatMap Param.written := by
  refine Adds.shows (.expect (by decide) rfl fun opening => ?_)
  refine Adds.bind (Adds.iterate (v := fun sofar : ParamsSoFar => sofar.params.toList.flatMap Param.written)
    param_adds {}) fun sofar => ?_
  split
  · exact Adds.pure rfl
  · exact Adds.expect (by decide) rfl fun closing => .pure rfl

theorem methodResult_shows (openLine : Nat) :
    Shows P (methodResult openLine) fun t => t.toList.flatMap TypeExpr.written := by
  refine .look _ fun s _ => .look _ fun s _ => .look _ fun s _ => ?_
  split
  · exact Adds.shows (.next typeExpr_shows fun t => .pure (by simp))
  · exact .pure one_le_showing

theorem signature_shows : Shows P signature Signature.written := by
  refine .look _ fun s _ => Adds.shows (.next paramList_shows fun list => ?_)
  exact .next (methodResult_shows _) fun result => .pure rfl

/-! ### Members of beans -/

theorem moreOptions_adds (options : Array Ident) :
    Adds P (options.toList.map (Ident.occurrence .option)) (moreOptions options) fun r =>
      (r.getD options).toList.map (Ident.occurrence .option) := by
  have hword {k : Keyword} (hk : (TokenKind.keyword k).role? = some .option) :
      Adds (At (.keyword k)) (options.toList.map (Ident.occurrence .option))
        (advance >>= fun t => newIdent t.text t.pos >>= fun i => pure (some (options.push i)))
        fun r => (r.getD options).toList.map (Ident.occurrence .option) := by
    refine (mark_accepts (by simp) fun i => some (options.push i)).mono fun r => ?_
    rintro ts ⟨t, i, hkind, htext, hpos, rfl, rfl⟩ us hus
    have htoken : [t] ∈ showing [i.occurrence .option] := by
      refine mem_showing_token ?_
      rw [Token.occurrence?, hkind, hk, htext, hpos]
      rfl
    simpa using append_mem_showing hus htoken
  refine .kind fun k => ?_
  split
  · exact hword rfl
  · exact hword rfl
  · exact .pure one_le_onto

theorem fieldOptions_shows :
    Shows P fieldOptions fun is => is.map (Ident.occurrence .option) :=
  Adds.shows (.bind (Adds.iterate (v := fun names => names.toList.map (Ident.occurrence .option))
    moreOptions_adds #[]) fun _ => .pure rfl)

theorem typeAndNames_shows : Shows P typeAndNames fun p =>
    p.1.written ++ p.2.map (Ident.occurrence .name) := by
  refine .check ?_ (Adds.shows (.next typeExpr_shows fun type => ?_))
  · refine Adds.shows (.advance (by decide) (.inl rfl) fun _ => .next typeExpr_shows fun t => ?_)
    exact .pure (by simp)
  · exact .next identList_shows fun names => .pure rfl

theorem declareAll_adds {f : PUnit → Parse β} {w : β → List Occurrence} (kind : ObjectKind)
    (origin : Origin) (data : Option Int) (scope : ScopeId) (names : List Ident)
    (hf : Adds Anywhere pre (f ()) w) :
    Adds P pre ((names.forM fun name => declare name kind origin data scope) >>= f) w :=
  .skip one_le_showing (declareAll_spells _ _ _ _ _) fun _ => hf

theorem field_shows (scope : ScopeId) (i : Nat) : Shows P (field scope i) Member.written := by
  refine Adds.shows (.silent .takeLead fun doc => .next fieldOptions_shows fun options => ?_)
  refine .next typeAndNames_shows fun p => .next string?_shows fun tag => ?_
  refine .skip semicolon_le_showing endOfItem_spells fun _ => .silent .trailing fun comment => ?_
  refine .silent (.memberOrigin i) fun origin => declareAll_adds _ _ _ _ _ ?_
  refine .silent (.resolveTypeExpr p.1) fun _ => .pure ?_
  simp [Member.written, MemberType.writtenWith]

theorem written_of_methodName? {t : TypeExpr} {name : Ident} (h : methodName? t = some name) :
    t.written = [name.occurrence .name] := by
  unfold methodName? at h
  split at h <;> cases h <;> rfl

theorem nameAndType_shows : Shows P nameAndType fun p =>
    p.2.writtenWith (p.1.toList.map (Ident.occurrence .name)) := by
  refine Adds.shows (.next typeExpr_shows fun first => .look _ fun s _ => ?_)
  dsimp only
  split
  · next name hname =>
    have hfirst : first.written = [name.occurrence .name] := by
      refine written_of_methodName? ?_
      split at hname
      · exact hname
      · cases hname
    exact Adds.next signature_shows fun sig => .pure (by simp [MemberType.writtenWith, hfirst])
  · exact Adds.pure (by simp [MemberType.writtenWith])

theorem method_shows (scope : ScopeId) (i : Nat) : Shows P (method scope i) Member.written := by
  refine Adds.shows (.silent .takeLead fun doc => .next nameAndType_shows fun p => ?_)
  refine .skip semicolon_le_showing endOfItem_spells fun _ => .silent .trailing fun comment => ?_
  refine .silent (.memberOrigin i) fun origin => declareAll_adds _ _ _ _ _ ?_
  refine .silent (.resolveMemberType p.2) fun _ => .pure ?_
  simp [Member.written]

theorem enumValue_shows : Shows P enumValue Value.written := by
  refine .kind fun k => ?_
  split
  · exact Adds.shows (.next (lit_shows rfl) fun l => .pure rfl)
  · exact Adds.shows (.next ident_shows fun i => .pure rfl)
  · exact .look _ fun s _ => (reportExpected_accepts _).reported fun _ => .pure le_top

theorem enumerator_shows (scope : ScopeId) (i : Nat) :
    Shows P (enumerator scope i) Member.written := by
  refine Adds.shows (.silent .takeLead fun doc => .next ident_shows fun name => ?_)
  refine .expect (by decide) rfl fun _ => .next enumValue_shows fun value => ?_
  refine .skip (l := showing []) le_rfl ?_ fun _ => .silent .trailing fun comment => ?_
  · refine .check (.pure one_le_showing) ?_
    exact Adds.shows (.expect (by decide) rfl fun _ => .pure rfl)
  refine .silent (.memberOrigin i) fun origin => ?_
  refine .skip one_le_showing (declare_spells _ _ _ _ _) fun _ => .pure ?_
  simp [Member.written]

theorem member?_shows (kind : BeanKind) (scope : ScopeId) (i : Nat) :
    Shows P (member? kind scope i) fun r => r.toList.flatMap Member.written := by
  have hmember {m : Parse Member} {Q : ParseState → Prop} (hm : Shows Q m Member.written) :
      Shows Q (some <$> m) fun r => r.toList.flatMap Member.written :=
    .map (hm.mono fun m => le_of_eq (congrArg showing (by simp)))
  refine .look _ fun s _ => ?_
  split
  case h_1 => exact hmember (method_shows scope i)
  case h_2 => exact hmember (enumerator_shows scope i)
  case h_11 => exact .pure one_le_showing
  all_goals exact hmember (field_shows scope i)

theorem moreMembers_adds (kind : BeanKind) (scope : ScopeId) (members : Array Member) :
    Adds P (members.toList.flatMap Member.written) (moreMembers kind scope members) fun r =>
      (r.getD members).toList.flatMap Member.written := by
  refine Adds.next (member?_shows kind scope members.size) fun r => .pure ?_
  cases r <;> simp

theorem bean_shows (kind : BeanKind) {k : Keyword} (hk : (TokenKind.keyword k).role? = none) :
    Shows (At (.keyword k)) (bean kind) Bean.written := by
  refine .behindLead fun doc => Adds.shows (.advance (by simp) (.inl hk) fun _ => ?_)
  refine .next ident_shows fun name => .next string?_shows fun tag => .get fun s _ => ?_
  refine Adds.skip one_le_showing (set_spells rfl rfl rfl) fun _ => ?_
  refine .expect (by decide) rfl fun opening => ?_
  refine .next (v := fun members => members.toList.flatMap Member.written) ?_ fun members => ?_
  · exact Adds.shows (Adds.iterate (v := fun members => members.toList.flatMap Member.written)
      (moreMembers_adds kind _) #[])
  refine .expect (by decide) rfl fun closing => .get fun s _ => ?_
  refine Adds.skip one_le_showing (declare_spells _ _ _ _ _) fun _ => .pure ?_
  simp [Bean.written]

/-! ### Declarations -/

/-- Two things that are known of the tokens that a rule takes. -/
theorem Accepts.inf {m : Parse α} {L : α → Language Token} (h : Accepts P m L) (h' : Spells P m l) :
    Accepts P m fun a => {ts | ts ∈ L a ∧ ts ∈ l} := by
  intro s heof hs
  have ht := h s heof hs
  refine ⟨ht.eof, ht.grows, fun hsize => ?_⟩
  obtain ⟨ts, hts, hleft⟩ := ht.sentence hsize
  obtain ⟨us, hus, hleft'⟩ := (h' s heof hs).sentence hsize
  obtain rfl : ts = us := List.append_cancel_right (hleft.symm.trans hleft')
  exact ⟨ts, ⟨hts, hus⟩, hleft⟩

section Groups

variable {spec : Option CommentGroup → Nat → β → Parse (α × β)} {L : β → α × β → Language Token}
  {J : List α → β → Language Token} {w : List α → List Occurrence}

/-- What the specifications of a group show, if `J` says what is known of the tokens up to one of
them. -/
theorem specGroup_shows {start : β} {k : Keyword} (hk : (TokenKind.keyword k).role? = none)
    (hl : ∀ b r, [] ∉ L b r) (h : ∀ doc i b, Accepts Anywhere (spec doc i b) (L b))
    (hstart : [] ∈ J [] start) (hmore : ∀ xs b x c, J xs b * L b (x, c) ≤ J (xs ++ [x]) c)
    (hshow : ∀ xs b, J xs b ≤ showing (w xs)) :
    Shows (At (.keyword k)) (specGroup spec start) fun g => w g.specs := by
  have hone (x : α) (c : β) : L start (x, c) ≤ showing (w [x]) := fun ts hts =>
    hshow _ _ (hmore _ _ _ _ (Language.append_mem_mul hstart hts))
  refine .behindLead fun doc => Adds.shows (.advance (by simp) (.inl hk) fun _ => .check ?_ ?_)
  · refine Adds.advance (by decide) (.inl rfl) fun _ => ?_
    have hstep (sofar : Array α × β) : Accepts Anywhere (moreSpecs spec sofar) fun r =>
        onto (J sofar.1.toList sofar.2) (J (r.getD sofar).1.toList (r.getD sofar).2) := by
      refine (moreSpecs_accepts hl h sofar).mono fun r => ?_
      rcases r with - | ⟨xs, c⟩
      · exact one_le_onto
      · rintro ts ⟨x, rfl, hts⟩ us hus
        have hall := hmore _ _ _ _ (Language.append_mem_mul hus hts)
        rwa [← Array.toList_push] at hall
    have hloop : Shows Anywhere (iterate (moreSpecs spec) (#[], start)) fun r => w r.1.toList := by
      refine (Accepts.loop (J := fun sofar : Array α × β => J sofar.1.toList sofar.2) hstep
        (#[], start)).mono fun r ts hts => ?_
      exact hshow _ _ (mem_of_onto hstart hts)
    refine .next hloop fun r => .expect (by decide) rfl fun rparen => .pure rfl
  · refine Adds.next (v := fun r : α × β => w [r.1]) ((h _ _ _).mono fun r => ?_) fun r => .pure rfl
    exact hone r.1 r.2

end Groups

/-- An identifier is no period. -/
theorem Ident.importRole_of_token {t : Token} {i : Ident} (hk : t.kind = .ident)
    (htext : t.text = i.name) (h : t.Spelled) : i.importRole = .name := by
  unfold Token.Spelled at h
  rw [hk] at h
  obtain ⟨c, cs, hc, -, hword⟩ := h
  refine if_neg fun hdot => ?_
  have hlist := congrArg String.toList (hword.symm.trans (htext.trans hdot))
  rw [String.toList_ofList] at hlist
  obtain rfl : c = '.' := List.head_eq_of_cons_eq hlist
  revert hc
  decide

theorem importName_shows : Shows P importName fun o =>
    o.toList.map fun i => i.occurrence i.importRole := by
  have hrole {t : Token} {i : Ident} {role : Role} (hk : t.kind.role? = some role)
      (htext : t.text = i.name) (hpos : t.pos = i.pos) (hi : t.Spelled → i.importRole = role) :
      [t] ∈ showing [i.occurrence i.importRole] := by
    intro hs
    rw [hi (hs.spelled t (List.mem_singleton_self t))]
    refine shownBy_singleton ?_
    rw [Token.occurrence?, hk, htext, hpos]
    rfl
  refine .kind fun k => ?_
  split
  · refine (mark_accepts (by decide) some).mono fun o => ?_
    rintro ts ⟨t, i, hkind, htext, hpos, rfl, rfl⟩
    refine hrole (by rw [hkind]; rfl) htext hpos fun hspelled => ?_
    unfold Token.Spelled at hspelled
    rw [hkind] at hspelled
    exact if_pos (htext.symm.trans hspelled)
  · have hident : Shows (At .ident) ident fun i => [i.occurrence i.importRole] := by
      refine ident_accepts.mono fun i => ?_
      rintro ts ⟨t, hkind, htext, hpos, rfl⟩
      exact hrole (by rw [hkind]; rfl) htext hpos (Ident.importRole_of_token hkind htext)
    exact Adds.shows (.next hident fun i => .pure rfl)
  · exact .pure one_le_showing

/-- Where another token is expected, something is reported. -/
theorem expect_reports {k : TokenKind} :
    Spells (fun s => s.current.token.kind ≠ k) (expect k) 0 := by
  refine .look _ fun s hs => ?_
  rintro t heof rfl
  have hcheck : (t.current.token.kind == k) = false := by simpa using hs
  simp only [check, bind_apply, hcheck, Bool.false_eq_true, ↓reduceIte]
  exact (reportExpected_accepts (P := Anywhere) _).reported (fun _ => .pure le_top) t heof trivial

theorem importPath_shows : Shows P importPath fun l => [l.occurrence] := by
  refine .look _ fun s _ => ?_
  dsimp only
  split
  · next hk =>
    refine Adds.shows (.next (Accepts.imp (lit_shows rfl) fun t ht => ht ▸ hk) fun path => ?_)
    split
    · refine Adds.skip (l := 0) bot_le (report_accepts _) fun _ => .pure rfl
    · exact Adds.pure rfl
  · next hk =>
    exact (expect_reports.imp fun t ht => ht ▸ hk).reported fun _ => .pure le_top

theorem importSpec_shows (doc : Option CommentGroup) (i : Nat) (b : Unit) :
    Shows P (importSpec doc i b) fun r => r.1.written := by
  refine Adds.shows (.next importName_shows fun name => .next importPath_shows fun path => ?_)
  refine .skip semicolon_le_showing endOfItem_spells fun _ => .silent .trailing fun comment => ?_
  exact .pure rfl

theorem imports_shows : Shows (At (.keyword .imp)) (Decl.imports <$> specGroup importSpec ())
    fun d => d.own.written := by
  have hheads : Grammar.Heads (fun _ => True) Grammar.importSpec :=
    .mul (.optional (.add (.token trivial) (.token trivial)) (.token trivial))
  refine .map (specGroup_shows (w := fun ss => ss.flatMap ImportSpec.written)
    (J := fun ss _ => showing (ss.flatMap ImportSpec.written)) rfl
    (fun _ _ h => not_empty hheads h.2)
    (fun doc i b => (importSpec_shows doc i b).inf (importSpec_spells doc i b))
    nil_mem_showing ?_ fun _ _ => le_rfl)
  rintro ss _ s _ ts ⟨us, hus, vs, hvs, rfl⟩
  show us ++ vs ∈ showing ((ss ++ [s]).flatMap ImportSpec.written)
  simpa using append_mem_showing hus hvs.1

/-! ### Constants -/

theorem constValue_shows : Shows P constValue Value.written := by
  refine .kind fun k => ?_
  split
  · exact Adds.shows (.next (lit_shows rfl) fun l => .pure rfl)
  · exact Adds.shows (.next (lit_shows rfl) fun l => .pure rfl)
  · exact Adds.shows (.next (lit_shows rfl) fun l => .pure rfl)
  · exact Adds.shows (.next ident_shows fun i => .silent (.resolveIdent i) fun _ => .pure rfl)
  · exact .look _ fun s _ => (reportExpected_accepts _).reported fun _ => .pure le_top

theorem ownValue_shows : Shows P ownValue fun v => v.toList.flatMap Value.written := by
  refine .check (Adds.shows (.advance (by decide) (.inl rfl) fun _ => ?_)) (.pure one_le_showing)
  exact .next constValue_shows fun v => .pure (by simp)

/-- The tokens of a constant, which may have a value of its own besides the one before. -/
def constTokens (previous : Option Value) (r : ConstSpec × Option Value) : Language Token :=
  {ts | ∃ own : Option Value, r.1.value = (own <|> previous) ∧ r.2 = r.1.value ∧
    ts ∈ showing (r.1.name.occurrence .name :: own.toList.flatMap Value.written)}

theorem constSpec_accepts (doc : Option CommentGroup) (i : Nat) (previous : Option Value) :
    Accepts P (constSpec doc i previous) (constTokens previous) := by
  refine Accepts.bind ident_shows (N := fun name r => {ts | ∃ own : Option Value,
    r.1.name = name ∧ r.1.value = (own <|> previous) ∧ r.2 = r.1.value ∧
      ts ∈ showing (own.toList.flatMap Value.written)}) (fun name => ?_) fun name r => ?_
  · refine Accepts.bind ownValue_shows (N := fun own r => {ts | r.1.name = name ∧
      r.1.value = (own <|> previous) ∧ r.2 = r.1.value ∧ ts ∈ showing []}) (fun own => ?_)
      fun own r => ?_
    · refine Accepts.yields (l := showing []) (φ := fun r => r.1.name = name ∧
        r.1.value = (own <|> previous) ∧ r.2 = r.1.value) ?_ ?_ fun r hr ts hts =>
          ⟨hr.1, hr.2.1, hr.2.2, hts⟩
      · refine Adds.shows (v := fun _ => []) ?_
        refine .skip semicolon_le_showing endOfItem_spells fun _ => .silent .trailing fun _ => ?_
        refine .skip (l := 1) one_le_showing (requireValue_spells name i own) fun _ => .get fun s _ => ?_
        exact Adds.skip one_le_showing (declare_spells _ _ _ _ _) fun _ => .pure rfl
      · exact .after fun _ => .after fun _ => .after fun _ => .after fun _ => .after fun _ =>
          .pure ⟨rfl, rfl, rfl⟩
    · rintro ts ⟨us, hus, vs, ⟨hname, hvalue, hr, hvs⟩, rfl⟩
      refine ⟨own, hname, hvalue, hr, ?_⟩
      simpa using append_mem_showing hus hvs
  · rintro ts ⟨us, hus, vs, ⟨own, rfl, hvalue, hr, hvs⟩, rfl⟩
    exact ⟨own, hvalue, hr, append_mem_showing hus hvs⟩

/-- The tokens of constants up to one of them, behind which the value `previous` may be used again:
it is written among them. -/
def constsTokens (ss : List ConstSpec) (previous : Option Value) : Language Token :=
  {ts | previous = lastValue none ss ∧
    (InSource ts → ShownBy ts ((ownSpecs none ss).flatMap ConstSpec.written) ∧
      previous.toList.flatMap Value.written ⊆ occurrencesOf ts)}

/-- What stands at a place stands there once. -/
theorem not_mem_both {ts us : List Token} {o : Occurrence} (h : InSource (ts ++ us))
    (hts : o ∈ occurrencesOf ts) : o ∉ occurrencesOf us := by
  intro hus
  obtain ⟨t, ht, hto⟩ := List.mem_filterMap.1 hts
  obtain ⟨u, hu, huo⟩ := List.mem_filterMap.1 hus
  have hpos {t : Token} (h : t.occurrence? = some o) : t.pos = o.pos := by
    obtain ⟨role, -, rfl⟩ := Option.map_eq_some_iff.1 h
    rfl
  have hlt := (List.pairwise_append.1 h.increasing).2.2 t ht u hu
  rw [hpos hto, hpos huo] at hlt
  exact Nat.lt_irrefl _ hlt

/-- A further constant, of which no value of its own is taken for the one before. -/
theorem constsTokens_mul (ss : List ConstSpec) (previous : Option Value) (s : ConstSpec)
    (value : Option Value) : constsTokens ss previous * constTokens previous (s, value) ≤
      constsTokens (ss ++ [s]) value := by
  rintro ts ⟨us, ⟨hprevious, hus⟩, vs, ⟨own, hvalue, hr, hvs⟩, rfl⟩
  change value = s.value at hr
  change s.value = (own <|> previous) at hvalue
  refine ⟨hr.trans (lastValue_concat none ss s).symm, fun hs => ?_⟩
  obtain ⟨hshown, hsubset⟩ := hus hs.left
  have hspec := hvs hs.right
  rw [ownSpecs_concat, ← hprevious, List.flatMap_append, List.flatMap_singleton,
    occurrencesOf_append, hr]
  cases own with
  | none =>
    -- the value is that of the constant before, and written there
    have hsame : s.value = previous := hvalue
    rw [if_pos hsame, hsame]
    exact ⟨hshown.append hspec, fun o ho => List.mem_append_left _ (hsubset ho)⟩
  | some v =>
    have hsome : s.value = some v := hvalue
    have hwritten : v.written ⊆ occurrencesOf vs := fun o ho =>
      hspec.sublist.subset (List.mem_cons_of_mem _ (by simpa using ho))
    rw [hsome]
    refine ⟨?_, fun o ho => List.mem_append_right _ (hwritten (by simpa using ho))⟩
    by_cases hsame : some v = previous
    · have hnil : v.written = [] := by
        refine List.eq_nil_iff_forall_not_mem.2 fun o ho => ?_
        refine not_mem_both hs (hsubset ?_) (hwritten ho)
        rw [← hsame]
        simpa using ho
      rw [if_pos hsame]
      refine hshown.append ?_
      simpa [ConstSpec.written, hnil] using hspec
    · rw [if_neg hsame]
      exact hshown.append hspec

theorem consts_shows : Shows (At (.keyword .const)) (specGroup constSpec none) fun g =>
    (ownSpecs none g.specs).flatMap ConstSpec.written := by
  have hheads : Grammar.Heads (fun _ => True) Grammar.constSpec := .mul (.mul (.token trivial))
  refine specGroup_shows (w := fun ss => (ownSpecs none ss).flatMap ConstSpec.written)
    (J := constsTokens) rfl
    (L := fun b r => {ts | ts ∈ constTokens b r ∧ ts ∈ Grammar.constSpec})
    (fun _ _ h => not_empty hheads h.2)
    (fun doc i b => (constSpec_accepts doc i b).inf (constSpec_spells doc i b)) ?_ ?_ ?_
  · exact ⟨rfl, fun _ => ⟨shownBy_nil, List.Subset.refl _⟩⟩
  · rintro ss b s c ts ⟨us, hus, vs, hvs, rfl⟩
    exact constsTokens_mul ss b s c (Language.append_mem_mul hus hvs.1)
  · exact fun ss b ts hts hs => (hts.2 hs).1

theorem decl_shows : Shows P decl fun d => d.own.written := by
  have hbean (kind : BeanKind) {k : Keyword} (hk : (TokenKind.keyword k).role? = none) :
      Shows (At (.keyword k)) (bean kind >>= fun b => pure (Decl.bean b)) fun d => d.own.written :=
    Adds.shows (.next (bean_shows kind hk) fun b => .pure rfl)
  refine .kind fun k => ?_
  split
  · exact Adds.shows (.next consts_shows fun g => .pure rfl)
  · exact hbean .struct rfl
  · exact hbean .protocol rfl
  · exact hbean .service rfl
  · exact hbean .enum rfl
  · refine .look _ fun s _ => (reportExpected_accepts _).reported fun _ => ?_
    exact Spells.before skipToDecl_any fun _ => .look _ fun s _ => .pure le_rfl

/-! ### Files -/

/-- Declarations follow one another as long as there are more. -/
theorem declsWhile_adds {one : Parse Decl} (pre : List Occurrence) (more : ParseState → Bool)
    (hone : Shows (fun s => more s = true) one fun d => d.own.written)
    (hmore : ∀ s i, more { s with declIndex := i } = more s) (decls : Array Decl) :
    let w (ds : Array Decl) := pre ++ ds.toList.flatMap fun d => d.own.written
    Adds P (w decls) (declsWhile (fun s => (more s, s)) one decls) w := by
  intro w
  refine Adds.iterate (fun decls => .look _ fun s _ => ?_) decls
  split
  · next h =>
    rintro t heof rfl
    have hnext : Adds (fun s => more s = true) (w decls) (one >>= fun d => pure (some (decls.push d)))
        fun r => w (r.getD decls) := .next hone fun d => .pure (by simp [w])
    have ht := hnext { t with declIndex := decls.size } heof ((hmore t _).trans h)
    exact ⟨ht.eof, ht.grows, ht.sentence⟩
  · exact Adds.pure rfl

theorem packageName_shows : Shows P packageName fun i => [i.occurrence .name] := by
  refine .look _ fun s _ => Adds.shows (.next ident_shows fun name => ?_)
  dsimp only
  split
  · exact Adds.skip (l := 0) bot_le (report_accepts _) fun _ => .pure rfl
  · exact Adds.pure rfl

/-- A file shows what is in its tokens. -/
theorem file_shows (comments : List CommentGroup) :
    Shows P (Parse.file comments) fun f => f.own.written := by
  refine Adds.shows (.silent .takeLead fun doc => .expect (by decide) rfl fun pos => ?_)
  refine .next packageName_shows fun name => .skip semicolon_le_showing endOfItem_spells fun _ => ?_
  let w (ds : Array Decl) := [name.occurrence .name] ++ ds.toList.flatMap fun d => d.own.written
  refine Adds.bind (v := w) (declsWhile_adds [name.occurrence .name] _
    (imports_shows.imp fun s hs => eq_of_beq hs) (fun _ _ => rfl) #[]) fun imports => ?_
  refine Adds.bind (v := w) (declsWhile_adds [name.occurrence .name] (fun s => !s.left.isEmpty) decl_shows
    (fun _ _ => rfl) imports) fun decls => ?_
  refine .silent .settlePending fun unresolved => .get fun s _ => Adds.pure ?_
  simp [File.written, File.own, w, List.flatMap_map]

/-- The tokens of a file that is parsed without a report are shown by it. -/
theorem file_shownBy (comments : List CommentGroup) {s : ParseState} (hs : s.Ready)
    (h : (Parse.file comments s).2.diagnostics = s.diagnostics) :
    ShownBy s.tokens (Parse.file comments s).1.own.written := by
  have ht := file_shows (P := Anywhere) comments s hs.eof trivial
  obtain ⟨ts, hts, hleft⟩ := ht.sentence (congrArg Array.size h)
  rw [file_left comments s hs, List.map_nil, List.append_nil] at hleft
  have heof : [s.eof.token] ∈ showing [] := token_le_showing (.inl rfl) ⟨_, hs.eof, rfl⟩
  have hall := append_mem_showing hts heof
  rw [List.append_nil, ← hleft] at hall
  exact hall ⟨hs.increasing, hs.spelled⟩

end Parse

/-! ### The tokens of a file -/

/-- A file keeps tokens: what it writes of its own are these tokens, with their places and texts,
each one once, and no token is left out that may be written, but for periods.  The nodes of its tree
show just that, and copies of values show nothing else. -/
structure File.Keeps (f : File) (ts : List Token) : Prop where
  places : (occurrencesOf ts).Pairwise fun o o' => o.pos < o'.pos
  taken : f.own.written.Sublist (occurrencesOf ts)
  whole : f.own.written.filter (·.role ≠ .dot) = (occurrencesOf ts).filter (·.role ≠ .dot)
  nodes : f.own.tree.shown.Perm (f.own.written.map Occurrence.asNode)
  copies : ∀ o, o ∈ f.tree.shown ↔ o ∈ f.own.tree.shown

theorem InSource.occurrences_pairwise {ts : List Token} (h : InSource ts) :
    (occurrencesOf ts).Pairwise fun o o' => o.pos < o'.pos := by
  unfold occurrencesOf
  rw [List.pairwise_filterMap]
  refine h.increasing.imp fun {t u} htu o ho o' ho' => ?_
  obtain ⟨role, -, rfl⟩ := Option.map_eq_some_iff.1 ho
  obtain ⟨role', -, rfl⟩ := Option.map_eq_some_iff.1 ho'
  exact htu

/-- Comments and text that is no token show nothing. -/
theorem occurrencesOf_significant (ts : List Token) :
    occurrencesOf (ts.filter fun t => t.kind ≠ .illegal ∧ t.kind ≠ .comment) = occurrencesOf ts := by
  unfold occurrencesOf
  rw [List.filterMap_filter]
  refine List.filterMap_congr fun t _ => ?_
  split
  · rfl
  · next h =>
    have hkind : t.kind = .illegal ∨ t.kind = .comment := by
      by_cases hi : t.kind = .illegal
      · exact .inl hi
      · exact .inr (Decidable.not_not.1 fun hc => h (by simp [hi, hc]))
    rcases hkind with hk | hk <;> rw [Token.occurrence?, hk] <;> rfl

/-- **An accepted file is kept whole.**  A file about which nothing is reported keeps its tokens. -/
theorem parseFile_keeps {files : FileSet} {symbols : SymbolTable} {name text : String}
    {r : ParseResult} (hbegun : files.next ≠ 0) (h : parseFile files symbols name text = .ok r)
    (hquiet : r.diagnostics = []) :
    r.file.Keeps (scanSource files.next text).allTokens := by
  have hroom : files.next + text.utf8ByteSize + 1 < positionBound := by
    rw [parseFile_eq_of] at h
    split at h
    · cases h
    · next hroom => exact Nat.lt_of_not_le hroom
  obtain ⟨r', groups, start, hr', hparsed⟩ := parseFile_parsed files symbols name text hbegun hroom
  obtain rfl : r' = r := Except.ok.inj (hr'.symm.trans h)
  have hnone : (Parse.file groups start).2.diagnostics = start.diagnostics := by
    have hreported := hparsed.reported.symm.trans hquiet
    rw [hparsed.diagnostics]
    exact Array.toList_eq_nil_iff.1 (List.append_eq_nil_iff.1 hreported).2
  have hshown := Parse.file_shownBy groups hparsed.ready hnone
  have hsource : InSource start.tokens := ⟨hparsed.ready.increasing, hparsed.ready.spelled⟩
  have htokens : occurrencesOf start.tokens =
      occurrencesOf (scanSource files.next text).allTokens := by
    rw [hparsed.tokens]
    exact occurrencesOf_significant _
  rw [← hparsed.file] at hshown
  exact
    { places := htokens ▸ hsource.occurrences_pairwise
      taken := htokens ▸ hshown.sublist
      whole := htokens ▸ hshown.whole
      nodes := r'.file.own.shown_tree
      copies := fun _ => File.mem_shown_own.symm }

/-- A source with a period for the name of an import, a constant without a value of its own,
containers in one another, words before a field, and a method with parameters. -/
theorem parseFile_keeps_inherited :
    let text := "package p; import . \"q\" const ( A = 1.5; B ) struct S \"t\" \x7b required
      map<string, array<q.T, 4>> x, y \"u\"; extends R \x7d service V \x7b f(vector<S> s, int32) S \x7d
      enum E \x7b a = A, b = 2 \x7d"
    FileSet.next {} ≠ 0 ∧ ∃ r, parseFile {} {} "a" text = .ok r ∧ r.diagnostics = [] ∧
      r.file.Keeps (scanSource 1 text).allTokens ∧
      (r.file.own.written.length, r.file.written.length) = (31, 32) := by
  intro text
  have hbegun : FileSet.next {} ≠ 0 := by decide
  have hread : (parseFile {} {} "a" text).toOption.map (fun r =>
      (r.diagnostics, r.file.own.written.length, r.file.written.length)) = some ([], 31, 32) := by
    decide +kernel
  cases h : parseFile {} {} "a" text with
  | error e => rw [h] at hread; cases hread
  | ok r =>
    rw [h] at hread
    obtain ⟨hquiet, hlengths⟩ := Prod.mk.inj (Option.some.inj hread)
    exact ⟨hbegun, r, rfl, hquiet, parseFile_keeps hbegun h hquiet, hlengths⟩

end Idl
