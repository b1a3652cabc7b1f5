/-
Idl/Proofs/Syntax/Accepted.lean

What the parser takes without a report is a sentence of the grammar.

Rules report what they miss and go on, so nothing is refused; but between two states a rule has
taken a sentence of its language, or something was reported (`ParseState.Took`).  `Parse.Accepts`
says this of a rule, and the rules for sequences, alternatives and loops follow the grammar.  A rule
that reports has no sentences at all, and needs none.

Main result: a file that is parsed without a report is a sentence (`file_accepts`).
-/
import Idl.Proofs.Syntax.Nesting
import Idl.Proofs.Syntax.Progress
import Idl.Proofs.Syntax.Sentences
import Idl.Proofs.Trace.Grammar

namespace Idl

open scoped Computability

/-! ### Sentences between two states -/

/-- Between the states, the tokens of a sentence were taken, or something was reported. -/
structure ParseState.Took (l : Language Token) (s t : ParseState) : Prop where
  eof : t.eof = s.eof
  grows : s.diagnostics.size ≤ t.diagnostics.size
  sentence : t.diagnostics.size = s.diagnostics.size →
    ∃ ts ∈ l, s.left.map (·.token) = ts ++ t.left.map (·.token)

namespace ParseState.Took

variable {l l' : Language Token} {s t u : ParseState}

theorem refl (s : ParseState) : Took 1 s s :=
  ⟨rfl, Nat.le_refl _, fun _ => ⟨[], Language.nil_mem_one, rfl⟩⟩

theorem trans (h : Took l s t) (h' : Took l' t u) : Took (l * l') s u where
  eof := h'.eof.trans h.eof
  grows := Nat.le_trans h.grows h'.grows
  sentence hsize := by
    have hgrows := h.grows
    have hgrows' := h'.grows
    obtain ⟨ts, hts, hs⟩ := h.sentence (by omega)
    obtain ⟨us, hus, ht⟩ := h'.sentence (by omega)
    exact ⟨ts ++ us, Language.append_mem_mul hts hus, by rw [hs, ht, List.append_assoc]⟩

theorem mono (h : Took l s t) (hle : l ≤ l') : Took l' s t :=
  ⟨h.eof, h.grows, fun hsize => let ⟨ts, hts, hs⟩ := h.sentence hsize; ⟨ts, hle hts, hs⟩⟩

end ParseState.Took

namespace Parse

variable {α β : Type} {P Q : ParseState → Prop} {l l' : Language Token}

/-! ### Steps that change nothing of it -/

/-- A step takes no token and reports nothing. -/
structure Silent (m : Parse α) : Prop where
  left : ∀ s, (m s).2.left = s.left
  eof : ∀ s, (m s).2.eof = s.eof
  diagnostics : ∀ s, (m s).2.diagnostics = s.diagnostics

namespace Silent

protected theorem pure (a : α) : Silent (pure a) := ⟨fun _ => rfl, fun _ => rfl, fun _ => rfl⟩

protected theorem bind {m : Parse α} {f : α → Parse β} (hm : Silent m) (hf : ∀ a, Silent (f a)) :
    Silent (m >>= f) where
  left s := ((hf _).left _).trans (hm.left s)
  eof s := ((hf _).eof _).trans (hm.eof s)
  diagnostics s := ((hf _).diagnostics _).trans (hm.diagnostics s)

protected theorem forM {f : α → Parse PUnit} (hf : ∀ a, Silent (f a)) (as : List α) :
    Silent (as.forM f) := by
  induction as with
  | nil => exact .pure _
  | cons a as ih => exact (hf a).bind fun _ => ih

theorem takeLead : Silent takeLead := ⟨fun _ => rfl, fun _ => rfl, fun _ => rfl⟩

theorem trailing : Silent trailing := ⟨fun _ => rfl, fun _ => rfl, fun _ => rfl⟩

theorem memberOrigin (i : Nat) : Silent (memberOrigin i) :=
  ⟨fun _ => rfl, fun _ => rfl, fun _ => rfl⟩

theorem newIdent (name : String) (p : Pos) : Silent (newIdent name p) :=
  ⟨fun _ => rfl, fun _ => rfl, fun _ => rfl⟩

theorem settlePending : Silent settlePending := ⟨fun _ => rfl, fun _ => rfl, fun _ => rfl⟩

theorem resolveIdent (i : Ident) : Silent (resolveIdent i) := by
  have h (s : ParseState) : (Parse.resolveIdent i s).2.left = s.left ∧
      (Parse.resolveIdent i s).2.eof = s.eof ∧
      (Parse.resolveIdent i s).2.diagnostics = s.diagnostics := by
    rw [resolveIdent_snd]
    split
    · exact ⟨rfl, rfl, rfl⟩
    · split <;> exact ⟨rfl, rfl, rfl⟩
  exact ⟨fun s => (h s).1, fun s => (h s).2.1, fun s => (h s).2.2⟩

theorem resolveTypeExpr (t : TypeExpr) : Silent (resolveTypeExpr t) := by
  induction t with
  | bad => exact .pure _
  | basic => exact .pure _
  | named qualifier name =>
    cases qualifier with
    | none => exact .resolveIdent name
    | some q => exact ⟨fun _ => rfl, fun _ => rfl, fun _ => rfl⟩
  | array pos elem size closing ih =>
    refine ih.bind fun _ => ?_
    cases size with
    | ident i => exact .resolveIdent i
    | _ => exact .pure _
  | vector pos elem closing ih => exact ih
  | map pos key value closing ihk ihv => exact ihk.bind fun _ => ihv

theorem resolveMemberType (t : MemberType) : Silent (resolveMemberType t) := by
  cases t with
  | plain t => exact .resolveTypeExpr t
  | func sig =>
    refine .bind (.forM (fun p : Param => .resolveTypeExpr p.type) _) fun _ => ?_
    cases sig.result with
    | none => exact .pure _
    | some t => exact .resolveTypeExpr t

end Silent

/-! ### Rules and their languages -/

/-- From a state of `P`, the rule takes a sentence of the language of its answer, unless it reports
something. -/
def Accepts (P : ParseState → Prop) (m : Parse α) (L : α → Language Token) : Prop :=
  ∀ s, s.eof.token.kind = .eof → P s → s.Took (L (m s).1) (m s).2

/-- A rule takes a sentence of the language, or it reports something. -/
abbrev Spells (P : ParseState → Prop) (m : Parse α) (l : Language Token) : Prop :=
  Accepts P m fun _ => l

/-- Nothing is known of the state. -/
abbrev Anywhere : ParseState → Prop := fun _ => True

/-- The current token is of the kind. -/
def At (k : TokenKind) (s : ParseState) : Prop := s.current.token.kind = k

namespace Accepts

variable {m : Parse α} {f : α → Parse β} {L : α → Language Token} {M : β → Language Token}

protected theorem pure {a : α} (h : 1 ≤ L a) : Accepts P (pure a) L :=
  fun s _ _ => (ParseState.Took.refl s).mono h

/-- One rule behind another. -/
protected theorem bind (hm : Accepts P m L) {N : α → β → Language Token}
    (hf : ∀ a, Accepts Anywhere (f a) (N a)) (h : ∀ a b, L a * N a b ≤ M b) :
    Accepts P (m >>= f) M := by
  intro s heof hs
  have ht := hm s heof hs
  have hu := hf (m s).1 (m s).2 (ht.eof ▸ heof) trivial
  exact (ht.trans hu).mono (h _ _)

theorem imp (hm : Accepts P m L) (h : ∀ s, Q s → P s) : Accepts Q m L :=
  fun s heof hs => hm s heof (h s hs)

theorem mono {L' : α → Language Token} (hm : Accepts P m L) (h : ∀ a, L a ≤ L' a) :
    Accepts P m L' := fun s heof hs => (hm s heof hs).mono (h _)

protected theorem map {g : α → β} (hm : Accepts P m fun a => M (g a)) : Accepts P (g <$> m) M := hm

/-- Looking at the state, which stays known. -/
theorem look (g : ParseState → α) (hf : ∀ s, P s → Accepts (· = s) (f (g s)) M) :
    Accepts P ((fun s => (g s, s) : Parse α) >>= f) M := fun s heof hs => hf s hs s heof rfl

/-- Looking at the kind of the current token. -/
theorem kind {f : TokenKind → Parse β} (hf : ∀ k, Accepts (At k) (f k) M) :
    Accepts P (Parse.kind >>= f) M := fun s heof _ => hf _ s heof rfl

theorem get {f : ParseState → Parse β} (hf : ∀ s, P s → Accepts (· = s) (f s) M) :
    Accepts P (MonadState.get >>= f) M := look (fun s => s) hf

/-- Asking whether the current token is of a kind. -/
theorem check {k : TokenKind} {f : Bool → Parse β} (ht : Accepts (At k) (f true) M)
    (hf : Accepts P (f false) M) : Accepts P (Parse.check k >>= f) M := by
  intro s heof hs
  show s.Took (M (f (s.current.token.kind == k) s).1) (f (s.current.token.kind == k) s).2
  cases hk : s.current.token.kind == k with
  | true => exact ht s heof (eq_of_beq hk)
  | false => exact hf s heof hs

/-- Comments in front of a token do not hide it. -/
theorem behindLead {k : TokenKind} {f : Option CommentGroup → Parse β}
    (hf : ∀ g, Accepts (At k) (f g) M) : Accepts (At k) (takeLead >>= f) M := by
  intro s heof hs
  have h := hf s.lead { s with lead := none } heof hs
  exact ⟨h.eof, h.grows, h.sentence⟩

/-- What is known of the answer anyway may be used. -/
theorem yields {φ : α → Prop} (hm : Spells P m l) (hφ : Yields m φ)
    (h : ∀ a, φ a → l ≤ L a) : Accepts P m L :=
  fun s heof hs => (hm s heof hs).mono (h _ (hφ s))

end Accepts

namespace Spells

variable {m : Parse α} {f : α → Parse β}

/-- One rule behind another. -/
protected theorem bind (hm : Spells P m l) (hf : ∀ a, Spells Anywhere (f a) l') :
    Spells P (m >>= f) (l * l') := Accepts.bind hm hf fun _ _ => le_rfl

theorem of_silent (hm : Silent m) : Spells P m 1 := by
  intro s _ _
  refine ⟨hm.eof s, Nat.le_of_eq (congrArg Array.size (hm.diagnostics s).symm), fun _ => ?_⟩
  exact ⟨[], Language.nil_mem_one, congrArg (List.map _) (hm.left s).symm⟩

/-- Behind a rule that takes nothing. -/
protected theorem behind (hm : Spells P m 1) (hf : ∀ a, Spells Anywhere (f a) l) :
    Spells P (m >>= f) l := Accepts.bind hm hf fun _ _ => le_of_eq (one_mul l)

/-- In front of rules that take nothing. -/
protected theorem before (hm : Spells P m l) (hf : ∀ a, Spells Anywhere (f a) 1) :
    Spells P (m >>= f) l := Accepts.bind hm hf fun _ _ => le_of_eq (mul_one l)

end Spells

/-! ### Loops -/

/-- A loop has the sentences that its repetitions lead to, one behind the other. -/
protected theorem Accepts.iterate {step : α → Parse (Option α)} {L : α → Option α → Language Token}
    {M : α → α → Language Token} (h : ∀ a, Accepts Anywhere (step a) (L a))
    (hstop : ∀ a, L a none ≤ M a a) (hlast : ∀ a b, L a (some b) ≤ M a b)
    (hmore : ∀ a b c, L a (some b) * M b c ≤ M a c) (a : α) :
    Accepts P (iterate step a) (M a) := by
  rintro s heof -
  fun_induction Parse.iterate step a s with
  | case1 a s t hstep =>
    have ht := h a s heof trivial
    rw [hstep] at ht
    exact ht.mono (hstop a)
  | case2 a s b t hstep hlt ih =>
    have ht := h a s heof trivial
    rw [hstep] at ht
    exact (ht.trans (ih (ht.eof ▸ heof))).mono (hmore a b _)
  | case3 a s b t hstep hlt =>
    have ht := h a s heof trivial
    rw [hstep] at ht
    exact ht.mono (hlast a b)

/-- The sentence of a repetition, which is empty where it answers nothing. -/
def repetition (l : Language Token) (r : Option α) : Language Token := if r.isSome then l else 1

theorem Spells.iterate {step : α → Parse (Option α)}
    (h : ∀ a, Accepts Anywhere (step a) (repetition l)) (a : α) :
    Spells P (iterate step a) l∗ := by
  refine Accepts.iterate (M := fun _ _ => l∗) h (fun _ => one_le_kstar) (fun _ _ => le_kstar) ?_ a
  exact fun _ _ _ => mul_kstar_le_kstar

/-- A repetition that always answers. -/
theorem Spells.again {m : Parse (Option α)} (hm : Spells P m l)
    (h : Yields m fun r => r.isSome = true) : Accepts P m (repetition l) :=
  hm.yields h fun r hr => by unfold repetition; rw [if_pos hr]

/-! ### Tokens -/

/-- A step that reports has no sentence. -/
theorem report_accepts (d : Diagnostic) : Spells P (report d) 0 := by
  intro s _ _
  have hsize : (report d s).2.diagnostics.size = s.diagnostics.size + 1 := Array.size_push ..
  exact ⟨rfl, hsize ▸ Nat.le_succ _, fun h => absurd (hsize.symm.trans h) (Nat.succ_ne_self _)⟩

theorem reportExpected_accepts (what : String) : Spells P (reportExpected what) 0 :=
  .look _ fun _ _ => report_accepts _

/-- What follows a report does not matter. -/
theorem Accepts.reported {m : Parse α} {f : α → Parse β} {M : β → Language Token}
    (hm : Spells P m 0) (hf : ∀ a, Spells Anywhere (f a) ⊤) : Accepts P (m >>= f) M :=
  .bind hm hf fun _ _ => by rw [zero_mul]; exact bot_le

/-- Before the end of the file there is a token to take. -/
theorem left_of_ne_eof {s : ParseState} (heof : s.eof.token.kind = .eof)
    (hk : s.current.token.kind ≠ .eof) : ∃ rest, s.left = s.current :: rest := by
  unfold ParseState.current at *
  cases hleft : s.left with
  | nil => rw [hleft] at hk; exact absurd heof hk
  | cons t rest => exact ⟨rest, rfl⟩

/-- Where the current token is of the kind, that one token is taken. -/
theorem advance_accepts {k : TokenKind} (hk : k ≠ .eof) :
    Accepts (At k) advance fun t => {ts | t.kind = k ∧ ts = [t]} := by
  rintro s heof rfl
  obtain ⟨rest, hleft⟩ := left_of_ne_eof heof hk
  rw [advance_of_left hleft]
  refine ⟨rfl, Nat.le_refl _, fun _ => ⟨[s.current.token], ⟨rfl, rfl⟩, ?_⟩⟩
  rw [hleft]
  rfl

theorem advance_spells {k : TokenKind} (hk : k ≠ .eof) :
    Accepts (At k) advance fun _ => Grammar.token k :=
  (advance_accepts hk).mono fun t _ h => ⟨t, h⟩

/-- Whatever the current token is, it is taken. -/
theorem advance_any : Spells P advance ⊤ := by
  intro s _ _
  unfold advance
  split
  · exact (ParseState.Took.refl s).mono le_top
  · next t rest hleft =>
    refine ⟨rfl, Nat.le_refl _, fun _ => ⟨[t.token], trivial, ?_⟩⟩
    rw [hleft]
    rfl

theorem expect_spells {k : TokenKind} (hk : k ≠ .eof) : Spells P (expect k) (Grammar.token k) := by
  refine .look _ fun s _ => .check ?_ ?_
  · exact Spells.before (advance_spells hk) fun _ => .pure le_rfl
  · exact (reportExpected_accepts _).reported fun _ => .pure le_top

/-- A comma in place of a semicolon is reported. -/
theorem endOfItem_spells : Spells P endOfItem Grammar.semicolon := by
  refine .kind fun k => ?_
  split
  · refine (reportExpected_accepts _).reported fun _ => ?_
    exact Spells.before advance_any fun _ => .pure le_rfl
  · refine Accepts.mono (Spells.before (advance_spells (by decide)) fun _ => .pure le_rfl) ?_
    exact fun _ => le_add_left le_rfl
  · exact .pure (le_add_right le_rfl)

/-- Without a report, the answer is the identifier that is there. -/
theorem ident_accepts : Accepts P ident fun i =>
    {ts | ∃ t : Token, t.kind = .ident ∧ t.text = i.name ∧ t.pos = i.pos ∧ ts = [t]} := by
  intro s heof _
  by_cases hk : s.current.token.kind = .ident
  · obtain ⟨rest, hleft⟩ := left_of_ne_eof heof (by rw [hk]; decide)
    rw [ident_of_kind hleft hk]
    refine ⟨rfl, Nat.le_refl _, fun _ => ⟨[s.current.token], ⟨_, hk, rfl, rfl, rfl⟩, ?_⟩⟩
    rw [hleft]
    rfl
  · have hcheck : (s.current.token.kind == TokenKind.ident) = false := by simpa using hk
    have hident : (ident s).2.diagnostics.size = s.diagnostics.size + 1 ∧
        (ident s).2.eof = s.eof := by
      simp only [ident, expect, bind_apply, current, pos, check, hk, hcheck, Bool.false_eq_true,
        ↓reduceIte]
      exact ⟨Array.size_push .., rfl⟩
    refine ⟨hident.2, hident.1 ▸ Nat.le_succ _, fun h => ?_⟩
    exact absurd (hident.1.symm.trans h) (Nat.succ_ne_self _)

theorem ident_named : Accepts P ident fun i => Grammar.name (· = i.name) :=
  ident_accepts.mono fun _ _ ⟨t, hk, htext, _, ht⟩ => ⟨t, hk, htext, ht⟩

theorem ident_spells : Spells P ident Grammar.ident :=
  ident_named.mono fun _ => Grammar.name_le_ident _

theorem lit_spells {k : TokenKind} (hk : k ≠ .eof) (lit : LitKind) :
    Accepts (At k) (Parse.lit lit) fun _ => Grammar.token k :=
  Spells.before (advance_spells hk) fun _ => .pure le_rfl

theorem string?_spells : Spells P string? (Grammar.optional (Grammar.token .string)) := by
  refine .check (Accepts.mono (L := fun _ => Grammar.token .string) ?_ fun _ => ?_) ?_
  · exact Spells.before (lit_spells (by decide) _) fun _ => .pure le_rfl
  · exact le_add_left le_rfl
  · exact .pure (le_add_right le_rfl)

theorem moreIdents_spells (names : Array Ident) :
    Accepts P (moreIdents names) (repetition (Grammar.mark .comma * Grammar.ident)) := by
  refine .check ?_ (.pure le_rfl)
  refine Spells.again ?_ fun _ => rfl
  exact Spells.bind (advance_spells (by decide)) fun _ =>
    .before ident_spells fun _ => .pure le_rfl

theorem identList_spells : Spells P identList Grammar.identList :=
  Spells.bind ident_spells fun first =>
    Spells.before (Spells.iterate moreIdents_spells #[first]) fun _ => .pure le_rfl

/-! ### Types -/

/-- What may stand behind a name, so that both together are a sentence. -/
def behindName (n : String) (l : Language Token) : Language Token :=
  {ts | ∀ t : Token, t.kind = .ident → t.text = n → t :: ts ∈ l}

theorem name_mul_behindName (n : String) (l : Language Token) :
    Grammar.name (· = n) * behindName n l ≤ l := by
  rintro ts ⟨us, ⟨t, hk, ht, rfl⟩, vs, hvs, rfl⟩
  exact hvs t hk ht

theorem le_behindName {n : String} (h : Grammar.name (· = n) * l' ≤ l) : l' ≤ behindName n l :=
  fun ts hts t hk ht => by
    have hname : [t] ∈ Grammar.name (· = n) := ⟨t, hk, ht, rfl⟩
    exact h (Language.append_mem_mul hname hts)

theorem arraySize_spells : Spells P arraySize (Grammar.token .int + Grammar.ident) := by
  refine .kind fun k => ?_
  split
  · refine Accepts.mono (Spells.before (lit_spells (by decide) _) fun _ => .pure le_rfl) fun _ => ?_
    exact le_add_right le_rfl
  · refine Accepts.mono (Spells.before ident_spells fun _ => .pure le_rfl) fun _ => ?_
    exact le_add_left le_rfl
  · exact .look _ fun s _ => (reportExpected_accepts _).reported fun _ => .pure le_top

/-- A bound on the containers around a type carries over from the levels of the parser. -/
theorem typeNested_spells (levels : Nat) :
    Spells P (typeNested levels) (Grammar.typeName levels) := by
  induction levels generalizing P with
  | zero =>
    refine .look _ fun s _ => ?_
    dsimp only
    split
    · exact (report_accepts _).reported fun _ => .pure le_top
    · exact (reportExpected_accepts _).reported fun _ => .pure le_top
  | succ n ih =>
    have hless := expect_spells (P := Anywhere) (k := .punct .less) (by decide)
    have hcomma := expect_spells (P := Anywhere) (k := .punct .comma) (by decide)
    have hgreater := expect_spells (P := Anywhere) (k := .punct .greater) (by decide)
    refine .check ?_ ?_
    · refine Accepts.bind ident_named
        (N := fun i _ => behindName i.name (Grammar.typeName (n + 1))) (fun i => ?_)
        fun _ _ => name_mul_behindName ..
      -- the word decides which alternative it is, after a look at what stands behind it
      have hword {b : Builtin} {l : Language Token} {m : Parse TypeExpr}
          (hb : Builtin.ofName? i.name = some b) (hm : Spells Anywhere m l)
          (hl : Grammar.name (· = b.name) * l ≤ Grammar.typeName (n + 1)) :
          Accepts Anywhere m fun _ => behindName i.name (Grammar.typeName (n + 1)) :=
        hm.mono fun _ => le_behindName (Builtin.name_of_ofName? hb ▸ hl)
      have hplain (h : ∀ b, Builtin.ofName? i.name = some b → b.isContainer = false) :
          (1 : Language Token) ≤ behindName i.name (Grammar.typeName (n + 1)) := by
        refine le_behindName ?_
        rw [mul_one]
        refine le_trans (Grammar.name_le fun m hm => ?_) (Grammar.plain_le n)
        exact hm ▸ Grammar.not_container h
      refine .check ?_ ?_
      · refine Accepts.mono (Spells.bind (advance_spells (by decide)) fun _ =>
          Spells.before ident_spells fun _ => .pure le_rfl) fun _ => le_behindName ?_
        exact le_trans (mul_le_mul_left (Grammar.name_le_ident _) _) (Grammar.qualified_le n)
      rw [if_neg Bool.false_ne_true]
      split
      · next hb => exact .pure (hplain fun b h => by rw [hb] at h; cases h)
      · next hb =>
        refine hword hb ?_ (Grammar.map_le n)
        refine Spells.bind hless fun _ => Spells.bind ih fun key => Spells.bind hcomma fun _ => ?_
        exact Spells.bind ih fun value => Spells.before hgreater fun _ => .pure le_rfl
      · next hb =>
        refine hword hb ?_ (Grammar.array_le n)
        refine Spells.bind hless fun _ => Spells.bind ih fun elem => Spells.bind hcomma fun _ => ?_
        exact Spells.bind arraySize_spells fun size => Spells.before hgreater fun _ => .pure le_rfl
      · next hb =>
        refine hword hb ?_ (Grammar.vector_le n)
        exact Spells.bind hless fun _ => Spells.bind ih fun elem =>
          Spells.before hgreater fun _ => .pure le_rfl
      · next b hmap harray hvector hb =>
        refine .pure (hplain fun c hc => ?_)
        obtain rfl : b = c := Option.some.inj (hb.symm.trans hc)
        cases b <;> first | rfl | contradiction
    · exact .look _ fun s _ => (reportExpected_accepts _).reported fun _ => .pure le_top

theorem typeExpr_spells : Spells P typeExpr (Grammar.typeName maxTypeNesting) :=
  typeNested_spells _

/-! ### Signatures -/

/-- A parameter, with the comma behind it. -/
def paramRule : Language Token :=
  Grammar.typeName maxTypeNesting * Grammar.optional Grammar.ident *
    Grammar.optional (Grammar.mark .comma)

/-- A list of parameters that is broken off has no sentence. -/
def unbroken (l : Language Token) (sofar : ParamsSoFar) : Language Token :=
  if sofar.broken.isSome then 0 else l

theorem mul_unbroken (l l' : Language Token) (sofar : ParamsSoFar) :
    l * unbroken l' sofar = unbroken (l * l') sofar := by
  unfold unbroken
  split
  · exact mul_zero l
  · rfl

/-- The sentence of a further parameter. -/
def furtherParam (l l' : Language Token) : Option ParamsSoFar → Language Token
  | none => l
  | some sofar => unbroken l' sofar

theorem param_accepts (sofar : ParamsSoFar) :
    Accepts P (param sofar) (furtherParam 1 paramRule) := by
  refine .look _ fun s _ => .look _ fun s _ => ?_
  dsimp only
  split
  · exact .pure le_rfl
  let rest := Grammar.optional Grammar.ident * Grammar.optional (Grammar.mark .comma)
  refine Accepts.bind typeExpr_spells (N := fun _ => furtherParam 0 rest) (fun type => ?_) ?_
  · -- the list goes on, unless it is broken off, which is reported
    let goes (r : Option ParamsSoFar) : Prop := ∃ sofar, r = some sofar ∧ sofar.broken = none
    have hgoes {m : Parse (Option ParamsSoFar)} {l : Language Token} {Q : ParseState → Prop}
        (hm : Accepts Q m fun _ => l) (hyields : Yields m goes) (hl : l ≤ rest) :
        Accepts Q m (furtherParam 0 rest) := by
      refine hm.yields hyields ?_
      rintro r ⟨sofar, rfl, hbroken⟩
      show l ≤ unbroken rest sofar
      unfold unbroken
      rwa [hbroken]
    have hcomma {m : Parse (Option ParamsSoFar)} (hm : Spells Anywhere m 1) :
        Spells (At (.punct .comma)) (advance >>= fun _ => m) (Grammar.mark .comma) :=
      .before (advance_spells (by decide)) fun _ => hm
    refine .kind fun k => ?_
    split
    · refine hgoes (l := Grammar.ident * Grammar.optional (Grammar.mark .comma))
        (Spells.bind ident_spells fun name => .check ?_ ?_) ?_
        (mul_le_mul' (le_add_left le_rfl) le_rfl)
      · exact Accepts.mono (hcomma (.pure le_rfl)) fun _ => le_add_left le_rfl
      · exact .pure (le_add_right le_rfl)
      · exact .after fun name => .after fun b => .ite (.after fun _ => .pure ⟨_, rfl, rfl⟩)
          (.pure ⟨_, rfl, rfl⟩)
    · refine hgoes (hcomma (.pure le_rfl)) (.after fun _ => .pure ⟨_, rfl, rfl⟩) ?_
      exact le_trans (le_of_eq (one_mul _).symm)
        (mul_le_mul' (le_add_right le_rfl) (le_add_left le_rfl))
    · refine hgoes (l := 1) (.pure le_rfl) (.pure ⟨_, rfl, rfl⟩) ?_
      exact le_trans (le_of_eq (one_mul _).symm)
        (mul_le_mul' (le_add_right le_rfl) (le_add_right le_rfl))
    · exact .look _ fun s _ => (report_accepts _).reported fun _ => .pure le_top
  · rintro _ (_ | sofar)
    · exact le_trans (le_of_eq (mul_zero _)) bot_le
    · show _ * unbroken rest sofar ≤ unbroken paramRule sofar
      rw [mul_unbroken, paramRule, mul_assoc]

/-- A list of parameters that is not broken off. -/
theorem params_accepts :
    Accepts P (iterate param {}) (unbroken (Grammar.paramList maxTypeNesting)) := by
  let M (a b : ParamsSoFar) : Language Token := if a.broken.isSome then ⊤ else unbroken paramRule∗ b
  refine Accepts.iterate (M := M) param_accepts (fun a => ?_) (fun a b => ?_) (fun a b c => ?_) {}
  all_goals
    show _ ≤ if a.broken.isSome then ⊤ else unbroken paramRule∗ _
    split
    · exact le_top
  · next ha =>
    unfold unbroken
    rw [if_neg ha]
    exact one_le_kstar
  · show unbroken paramRule b ≤ _
    unfold unbroken
    split
    · exact le_rfl
    · exact le_kstar
  · show unbroken paramRule b * M b c ≤ _
    unfold unbroken M
    split
    · rw [zero_mul]; exact bot_le
    · rw [mul_unbroken]
      unfold unbroken
      split
      · exact le_rfl
      · exact mul_kstar_le_kstar

theorem paramList_spells : Spells P paramList (Grammar.mark .lparen *
    (Grammar.paramList maxTypeNesting * Grammar.mark .rparen)) := by
  refine .bind (expect_spells (by decide)) fun opening => ?_
  refine Accepts.bind params_accepts (N := fun sofar _ =>
    if sofar.broken.isSome then ⊤ else Grammar.mark .rparen) (fun sofar => ?_) fun sofar _ => ?_
  · split
    · next h => rw [h]; exact .pure le_top
    · next h =>
      rw [h]
      exact Spells.before (expect_spells (by decide)) fun _ => .pure le_rfl
  · unfold unbroken
    split
    · rw [zero_mul]; exact bot_le
    · exact le_rfl

theorem methodResult_spells (openLine : Nat) :
    Spells P (methodResult openLine) (Grammar.optional (Grammar.typeName maxTypeNesting)) := by
  refine .look _ fun s _ => .look _ fun s _ => .look _ fun s _ => ?_
  split
  · refine Accepts.mono (Spells.before typeExpr_spells fun _ => .pure le_rfl) fun _ => ?_
    exact le_add_left le_rfl
  · exact .pure (le_add_right le_rfl)

theorem signature_spells : Spells P signature (Grammar.mark .lparen *
    (Grammar.paramList maxTypeNesting * Grammar.mark .rparen) *
      Grammar.optional (Grammar.typeName maxTypeNesting)) := by
  refine .look _ fun s _ => Spells.bind paramList_spells fun list => ?_
  exact .before (methodResult_spells _) fun _ => .pure le_rfl

/-! ### Members of beans -/

theorem declare_spells (i : Ident) (kind : ObjectKind) (origin : Origin) (data : Option Int)
    (scope : ScopeId) : Spells P (declare i kind origin data scope) 1 := by
  intro s _ _
  rw [declare_snd]
  refine ⟨rfl, ?_, fun _ => ⟨[], Language.nil_mem_one, rfl⟩⟩
  exact Nat.le_trans (Nat.le_add_right ..) (Nat.le_of_eq Array.size_append.symm)

theorem declareAll_spells (kind : ObjectKind) (origin : Origin) (data : Option Int)
    (scope : ScopeId) (names : List Ident) :
    Spells P (names.forM fun name => declare name kind origin data scope) 1 := by
  induction names generalizing P with
  | nil => exact Accepts.pure le_rfl
  | cons name names ih =>
    exact Spells.behind (declare_spells _ _ _ _ _) fun _ => ih

theorem moreOptions_spells (options : Array Ident) : Accepts P (moreOptions options)
    (repetition (Grammar.keyword .required + Grammar.keyword .optional)) := by
  have hword {k : Keyword} (hle : Grammar.keyword k ≤
      Grammar.keyword .required + Grammar.keyword .optional) :
      Accepts (At (.keyword k)) (advance >>= fun t => newIdent t.text t.pos >>= fun i =>
        pure (some (options.push i)))
        (repetition (Grammar.keyword .required + Grammar.keyword .optional)) := by
    refine Spells.again (Accepts.mono ?_ fun _ => hle) (.after fun _ => .after fun _ => .pure rfl)
    refine Spells.before (advance_spells (by simp)) fun t => ?_
    exact .behind (.of_silent (.newIdent _ _)) fun _ => .pure le_rfl
  refine .kind fun k => ?_
  split
  · exact hword (le_add_right le_rfl)
  · exact hword (le_add_left le_rfl)
  · exact .pure le_rfl

theorem fieldOptions_spells :
    Spells P fieldOptions (Grammar.keyword .required + Grammar.keyword .optional)∗ :=
  .before (.iterate moreOptions_spells #[]) fun _ => .pure le_rfl

theorem typeAndNames_spells : Spells P typeAndNames
    (Grammar.keyword .ext * Grammar.typeName maxTypeNesting +
      Grammar.typeName maxTypeNesting * Grammar.identList) := by
  refine .check (Accepts.mono ?_ fun _ => le_add_right le_rfl)
    (Accepts.mono ?_ fun _ => le_add_left le_rfl)
  · exact Spells.bind (advance_spells (by decide)) fun _ =>
      .before typeExpr_spells fun _ => .pure le_rfl
  · exact Spells.bind typeExpr_spells fun _ => .before identList_spells fun _ => .pure le_rfl

theorem field_spells (scope : ScopeId) (i : Nat) :
    Spells P (field scope i) (Grammar.fieldDecl maxTypeNesting) := by
  simp only [Grammar.fieldDecl, mul_assoc]
  refine .behind (.of_silent .takeLead) fun doc => .bind fieldOptions_spells fun options => ?_
  refine .bind typeAndNames_spells fun p => .bind string?_spells fun tag => ?_
  refine .before endOfItem_spells fun _ => .behind (.of_silent .trailing) fun comment => ?_
  refine .behind (.of_silent (.memberOrigin i)) fun origin => ?_
  refine .behind (declareAll_spells _ _ _ _ _) fun _ => ?_
  exact .behind (.of_silent (.resolveTypeExpr p.1)) fun _ => .pure le_rfl

/-- A name and its signature, or a type to extend. -/
theorem nameAndType_spells : Spells P nameAndType (Grammar.typeName maxTypeNesting *
    Grammar.optional (Grammar.mark .lparen *
      (Grammar.paramList maxTypeNesting * Grammar.mark .rparen) *
        Grammar.optional (Grammar.typeName maxTypeNesting))) := by
  refine .bind typeExpr_spells fun first => .look _ fun s _ => ?_
  split
  · refine Accepts.mono (Spells.before signature_spells fun _ => .pure le_rfl) fun _ => ?_
    exact le_add_left le_rfl
  · exact .pure (le_add_right le_rfl)

theorem method_spells (scope : ScopeId) (i : Nat) :
    Spells P (method scope i) (Grammar.methodSpec maxTypeNesting) := by
  have hle : Grammar.typeName maxTypeNesting * Grammar.optional (Grammar.mark .lparen *
      (Grammar.paramList maxTypeNesting * Grammar.mark .rparen) *
        Grammar.optional (Grammar.typeName maxTypeNesting)) * Grammar.semicolon =
      Grammar.methodSpec maxTypeNesting := by
    rw [Grammar.optional, mul_add, add_mul, mul_one, add_comm]
    simp only [Grammar.methodSpec, mul_assoc]
  rw [← hle]
  refine .behind (.of_silent .takeLead) fun doc => .bind nameAndType_spells fun p => ?_
  refine .before endOfItem_spells fun _ => .behind (.of_silent .trailing) fun comment => ?_
  refine .behind (.of_silent (.memberOrigin i)) fun origin => ?_
  refine .behind (declareAll_spells _ _ _ _ _) fun _ => ?_
  exact .behind (.of_silent (.resolveMemberType p.2)) fun _ => .pure le_rfl

theorem enumValue_spells : Spells P enumValue (Grammar.token .int + Grammar.ident) := by
  refine .kind fun k => ?_
  split
  · refine Accepts.mono (Spells.before (lit_spells (by decide) _) fun _ => .pure le_rfl) fun _ => ?_
    exact le_add_right le_rfl
  · refine Accepts.mono (Spells.before ident_spells fun _ => .pure le_rfl) fun _ => ?_
    exact le_add_left le_rfl
  · exact .look _ fun s _ => (reportExpected_accepts _).reported fun _ => .pure le_top

/-- A member of an enumeration has a comma behind it, or the enumeration ends. -/
theorem enumerator_took (scope : ScopeId) (i : Nat) {s : ParseState}
    (heof : s.eof.token.kind = .eof) :
    s.Took (Grammar.enumSpec * Grammar.mark .comma) (enumerator scope i s).2 ∨
      s.Took Grammar.enumSpec (enumerator scope i s).2 ∧
        At (.punct .rbrace) (enumerator scope i s).2 := by
  let start : Parse Ident := do
    let _ ← takeLead
    let name ← ident
    let _ ← expect (.punct .assign)
    let _ ← enumValue
    return name
  have hstart : Spells Anywhere start Grammar.enumSpec := by
    simp only [Grammar.enumSpec, mul_assoc]
    refine .behind (.of_silent .takeLead) fun _ => .bind ident_spells fun name => ?_
    exact .bind (expect_spells (by decide)) fun _ =>
      .before enumValue_spells fun _ => .pure le_rfl
  have ht := hstart s heof trivial
  -- the name is declared once it is known whether there is a comma
  let u := (endOfEnumerator (start s).2).2
  have hrest : (enumerator scope i s).2 =
      (declare (start s).1 .const (.field u.fileId u.declIndex i) (some i) scope u).2 := by
    simp only [enumerator, bind_apply, pure_apply]
    rfl
  have hdeclare := declare_spells (P := Anywhere) (start s).1 .const
    (.field u.fileId u.declIndex i) (some i) scope u
  cases hk : (start s).2.current.token.kind == TokenKind.punct .rbrace with
  | true =>
    have hu : u = (start s).2 := by
      show (endOfEnumerator (start s).2).2 = _
      simp only [endOfEnumerator, bind_apply, check, hk, Bool.not_true, Bool.false_eq_true,
        ↓reduceIte]
      rfl
    rw [hu] at hrest hdeclare
    refine .inr ⟨?_, ?_⟩
    · rw [hrest]
      exact (ht.trans (hdeclare (ht.eof ▸ heof) trivial)).mono (le_of_eq (mul_one _))
    · rw [hrest, declare_snd]
      exact eq_of_beq hk
  | false =>
    have hu : u = (expect (.punct .comma) (start s).2).2 := by
      show (endOfEnumerator (start s).2).2 = _
      simp only [endOfEnumerator, bind_apply, check, hk, Bool.not_false, ↓reduceIte]
      rfl
    have hcomma : (start s).2.Took (Grammar.mark .comma) u := by
      rw [hu]
      exact expect_spells (P := Anywhere) (by decide) _ (ht.eof ▸ heof) trivial
    refine .inl ?_
    rw [hrest]
    have hall := ht.trans (hcomma.trans (hdeclare (hcomma.eof ▸ ht.eof ▸ heof) trivial))
    exact hall.mono (le_of_eq (by rw [mul_one]))

/-- A member of a bean; whether an enumeration may leave out the comma is not said. -/
def memberRule : BeanKind → Language Token
  | .service => Grammar.methodSpec maxTypeNesting
  | .enum => Grammar.enumSpec * Grammar.optional (Grammar.mark .comma)
  | _ => Grammar.fieldDecl maxTypeNesting

/-- What stands between the braces of a bean. -/
def bodyRule : BeanKind → Language Token
  | .enum => Grammar.enumBody
  | kind => (memberRule kind)∗

theorem enumerator_spells (scope : ScopeId) (i : Nat) :
    Spells P (enumerator scope i) (memberRule .enum) := by
  intro s heof _
  rcases enumerator_took scope i heof with h | ⟨h, -⟩
  · exact h.mono (mul_le_mul' le_rfl (le_add_left le_rfl))
  · refine h.mono (le_trans (le_of_eq (mul_one _).symm) (mul_le_mul' le_rfl ?_))
    exact le_add_right le_rfl

theorem member?_spells (kind : BeanKind) (scope : ScopeId) (i : Nat) :
    Accepts P (member? kind scope i) (repetition (memberRule kind)) := by
  have hmember {m : Parse Member} {Q : ParseState → Prop} (hm : Spells Q m (memberRule kind)) :
      Accepts Q (some <$> m) (repetition (memberRule kind)) :=
    Spells.again (Accepts.map hm) fun _ => rfl
  refine .look _ fun s _ => ?_
  split
  case h_1 => exact hmember (method_spells scope i)
  case h_2 => exact hmember (enumerator_spells scope i)
  case h_11 => exact .pure le_rfl
  all_goals exact hmember (field_spells scope i)

theorem moreMembers_spells (kind : BeanKind) (scope : ScopeId) (members : Array Member) :
    Accepts P (moreMembers kind scope members) (repetition (memberRule kind)) := by
  intro s heof hs
  have h := member?_spells kind scope members.size s heof hs
  show s.Took (repetition _ ((member? kind scope members.size s).1.map members.push)) _
  unfold repetition at *
  rwa [Option.isSome_map]

/-- A further member of an enumeration starts with its name. -/
theorem moreMembers_enum (scope : ScopeId) (members : Array Member) (s : ParseState) :
    moreMembers .enum scope members s =
      if s.current.token.kind = .ident then
        (some (members.push (enumerator scope members.size s).1),
          (enumerator scope members.size s).2)
      else (none, s) := by
  split
  · next h =>
    simp only [moreMembers, member?, bind_apply, current, h]
    rfl
  · next h =>
    simp only [moreMembers, member?, bind_apply, current]
    generalize s.current.token.kind = k at h
    cases k with
    | ident => exact absurd rfl h
    | _ => rfl

/-- Only the last member of an enumeration is without a comma. -/
theorem enumerators_spells (scope : ScopeId) (members : Array Member) :
    Spells P (iterate (moreMembers .enum scope) members) Grammar.enumBody := by
  have hnone : (1 : Language Token) ≤ Grammar.enumBody := by
    refine le_trans (le_of_eq (one_mul 1).symm) (mul_le_mul' one_le_kstar (le_add_right le_rfl))
  have hlast : Grammar.enumSpec ≤ Grammar.enumBody := by
    refine le_trans (le_of_eq (one_mul _).symm) (mul_le_mul' one_le_kstar (le_add_left le_rfl))
  have hmore : Grammar.enumSpec * Grammar.mark .comma * Grammar.enumBody ≤ Grammar.enumBody := by
    rw [Grammar.enumBody, ← mul_assoc]
    exact mul_le_mul' mul_kstar_le_kstar le_rfl
  rintro s heof -
  fun_induction iterate (moreMembers .enum scope) members s with
  | case1 members s t hstep =>
    rw [moreMembers_enum] at hstep
    split at hstep
    · cases hstep
    · cases hstep
      exact (ParseState.Took.refl s).mono hnone
  | case2 members s b t hstep hlt ih =>
    rw [moreMembers_enum] at hstep
    split at hstep
    · cases hstep
      rcases enumerator_took scope members.size heof with h | ⟨h, hend⟩
      · exact (h.trans (ih (h.eof ▸ heof))).mono hmore
      -- without a comma the enumeration ends, so nothing more is taken
      · have hstop : moreMembers .enum scope
            (members.push (enumerator scope members.size s).1)
            (enumerator scope members.size s).2 = (none, (enumerator scope members.size s).2) := by
          rw [moreMembers_enum, if_neg]
          exact fun hk => by cases hk.symm.trans hend
        rw [iterate, hstop]
        exact h.mono hlast
    · cases hstep
  | case3 members s b t hstep hlt =>
    rw [moreMembers_enum] at hstep
    split at hstep
    · cases hstep
      rcases enumerator_took scope members.size heof with h | ⟨h, -⟩
      · exact h.mono (le_trans (le_of_eq (mul_one _).symm)
          (le_trans (mul_le_mul' le_rfl hnone) hmore))
      · exact h.mono hlast
    · cases hstep

theorem members_spells (kind : BeanKind) (scope : ScopeId) :
    Spells P (iterate (moreMembers kind scope) #[]) (bodyRule kind) := by
  cases kind with
  | enum => exact enumerators_spells scope #[]
  | _ => exact Spells.iterate (moreMembers_spells _ scope) #[]

/-- What else a state knows does not matter. -/
theorem set_spells {s t : ParseState} (hleft : t.left = s.left) (heof : t.eof = s.eof)
    (hdiagnostics : t.diagnostics = s.diagnostics) : Spells (· = s) (set t) 1 := by
  rintro s - rfl
  refine ⟨heof, Nat.le_of_eq (congrArg Array.size hdiagnostics).symm, fun _ => ?_⟩
  exact ⟨[], Language.nil_mem_one, congrArg (List.map _) hleft.symm⟩

theorem bean_spells (kind : BeanKind) (k : Keyword) :
    Spells (At (.keyword k)) (bean kind) (Grammar.bean k (bodyRule kind)) := by
  simp only [Grammar.bean, mul_assoc]
  refine .behindLead fun doc => Spells.bind (advance_spells (by simp)) fun _ => ?_
  refine .bind ident_spells fun name => .bind string?_spells fun tag => .get fun s _ => ?_
  refine Spells.behind (set_spells rfl rfl rfl) fun _ => ?_
  refine .bind (expect_spells (by decide)) fun opening => ?_
  refine .bind (members_spells kind _) fun members => ?_
  refine .before (expect_spells (by decide)) fun closing => .get fun s _ => ?_
  exact Spells.behind (declare_spells _ _ _ _ _) fun _ => .pure le_rfl

/-! ### Declarations -/

section Groups

variable {spec : Option CommentGroup → Nat → β → Parse (α × β)} {k : Keyword}

/-- The sentence of a further specification, where `L` says which ones it may be. -/
def furtherSpec (L : β → α × β → Language Token) (sofar : Array α × β) :
    Option (Array α × β) → Language Token
  | none => 1
  | some r => {ts | ∃ x, r.1 = sofar.1.push x ∧ ts ∈ L sofar.2 (x, r.2)}

/-- Where a specification is a sentence, it takes a token. -/
theorem moreSpecs_accepts {L : β → α × β → Language Token} (hl : ∀ b r, [] ∉ L b r)
    (h : ∀ doc i b, Accepts Anywhere (spec doc i b) (L b)) (sofar : Array α × β) :
    Accepts P (moreSpecs spec sofar) (furtherSpec L sofar) := by
  refine .look _ fun s _ => .look _ fun s _ => ?_
  dsimp only
  split
  · exact .pure le_rfl
  refine .get fun s _ => ?_
  rintro s heof rfl
  have ht := h s.lead sofar.1.size sofar.2 { s with lead := none } heof trivial
  simp only [bind_apply, takeLead]
  generalize spec s.lead sofar.1.size sofar.2 { s with lead := none } = r at ht ⊢
  obtain ⟨x, t⟩ := r
  let answer := some (sofar.1.push x.1, x.2)
  let m : Parse (Option (Array α × β)) :=
    if t.left.length = s.left.length then advance >>= fun _ => pure answer else pure answer
  have hanswer : (m t).1 = answer := by
    unfold m
    split <;> rfl
  have htook : s.Took (L sofar.2 x) (m t).2 := by
    unfold m
    by_cases hlen : t.left.length = s.left.length
    -- a specification that takes nothing is no sentence, so it has reported something
    · rw [if_pos hlen]
      have hu := advance_any (P := Anywhere) t (ht.eof ▸ heof) trivial
      refine ⟨hu.eof.trans ht.eof, Nat.le_trans ht.grows hu.grows, fun hsize => ?_⟩
      have hgrows := ht.grows
      have hgrows' := hu.grows
      obtain ⟨ts, hts, hs⟩ := ht.sentence (Nat.le_antisymm (hsize ▸ hgrows') hgrows)
      have hlength := congrArg List.length hs
      simp only [List.length_append, List.length_map] at hlength
      obtain rfl : ts = [] := List.length_eq_zero_iff.1 (by omega)
      exact absurd hts (hl _ _)
    · rw [if_neg hlen]
      exact ⟨ht.eof, ht.grows, ht.sentence⟩
  change s.Took (furtherSpec L sofar (m t).1) (m t).2
  rw [hanswer]
  exact htook.mono fun ts hts => ⟨x.1, rfl, hts⟩

theorem moreSpecs_spells (hl : [] ∉ l) (h : ∀ doc i b, Spells Anywhere (spec doc i b) l)
    (sofar : Array α × β) : Accepts P (moreSpecs spec sofar) (repetition l) := by
  refine (moreSpecs_accepts (L := fun _ _ => l) (fun _ _ => hl) h sofar).mono fun r => ?_
  cases r with
  | none => exact le_rfl
  | some r => exact fun ts ⟨x, _, hts⟩ => hts

theorem specGroup_spells (hl : [] ∉ l) (h : ∀ doc i b, Spells Anywhere (spec doc i b) l)
    (start : β) : Spells (At (.keyword k)) (specGroup spec start) (Grammar.group k l) := by
  refine .behindLead fun doc => Spells.bind (advance_spells (by simp)) fun _ => .check ?_ ?_
  · refine Accepts.mono (L := fun _ => Grammar.mark .lparen * (l∗ * Grammar.mark .rparen)) ?_
      fun _ => le_add_left (le_of_eq (mul_assoc ..).symm)
    refine Spells.bind (advance_spells (by decide)) fun _ => ?_
    refine .bind (.iterate (moreSpecs_spells hl h) _) fun specs => ?_
    exact .before (expect_spells (by decide)) fun _ => .pure le_rfl
  · exact Accepts.mono (Spells.before (h _ _ _) fun _ => .pure le_rfl) fun _ => le_add_right le_rfl

end Groups

theorem importName_spells :
    Spells P importName (Grammar.optional (Grammar.mark .period + Grammar.ident)) := by
  refine .kind fun k => ?_
  split
  · refine Accepts.mono (L := fun _ => Grammar.mark .period) ?_ fun _ =>
      le_add_left (le_add_right le_rfl)
    refine Spells.before (advance_spells (by decide)) fun t => ?_
    exact .behind (.of_silent (.newIdent _ _)) fun _ => .pure le_rfl
  · refine Accepts.mono (Spells.before ident_spells fun _ => .pure le_rfl) fun _ => ?_
    exact le_add_left (le_add_left le_rfl)
  · exact .pure (le_add_right le_rfl)

theorem importPath_spells : Spells P importPath (Grammar.token .string) := by
  refine .look _ fun s _ => ?_
  dsimp only
  split
  · next hk =>
    refine Spells.before (Accepts.imp (lit_spells (by decide) _) fun t ht => ht ▸ hk) fun path => ?_
    split
    · exact .before (Accepts.mono (report_accepts _) fun _ => bot_le) fun _ => .pure le_rfl
    · exact .pure le_rfl
  · exact Spells.before (expect_spells (by decide)) fun _ => .pure le_rfl

theorem importSpec_spells (doc : Option CommentGroup) (i : Nat) (b : Unit) :
    Spells P (importSpec doc i b) Grammar.importSpec := by
  simp only [Grammar.importSpec, mul_assoc]
  refine .bind importName_spells fun name => .bind importPath_spells fun path => ?_
  refine .before endOfItem_spells fun _ => ?_
  exact .behind (.of_silent .trailing) fun _ => .pure le_rfl

theorem constValue_spells : Spells P constValue
    (Grammar.token .int + Grammar.token .float + Grammar.token .string + Grammar.ident) := by
  have hlit {k : TokenKind} (hk : k ≠ .eof) (lit : LitKind) (hle : Grammar.token k ≤
      Grammar.token .int + Grammar.token .float + Grammar.token .string + Grammar.ident) :
      Spells (At k) (Parse.lit lit >>= fun l => pure (.lit l) : Parse Value)
        (Grammar.token .int + Grammar.token .float + Grammar.token .string + Grammar.ident) :=
    Accepts.mono (Spells.before (lit_spells hk lit) fun _ => .pure le_rfl) fun _ => hle
  refine .kind fun k => ?_
  split
  · exact hlit (by decide) .int (le_add_right (le_add_right (le_add_right le_rfl)))
  · exact hlit (by decide) .float (le_add_right (le_add_right (le_add_left le_rfl)))
  · exact hlit (by decide) .string (le_add_right (le_add_left le_rfl))
  · refine Accepts.mono (Spells.before ident_spells fun i => ?_) fun _ => le_add_left le_rfl
    exact .behind (.of_silent (.resolveIdent i)) fun _ => .pure le_rfl
  · exact .look _ fun s _ => (reportExpected_accepts _).reported fun _ => .pure le_top

theorem ownValue_spells : Spells P ownValue (Grammar.optional (Grammar.mark .assign *
    (Grammar.token .int + Grammar.token .float + Grammar.token .string + Grammar.ident))) := by
  refine .check (Accepts.mono ?_ fun _ => le_add_left le_rfl) (.pure (le_add_right le_rfl))
  exact Spells.bind (advance_spells (by decide)) fun _ =>
    .before constValue_spells fun _ => .pure le_rfl

theorem requireValue_spells (name : Ident) (i : Nat) (own : Option Value) :
    Spells P (requireValue name i own) 1 := by
  unfold requireValue
  split
  · exact Accepts.mono (report_accepts _) fun _ => bot_le
  · exact Accepts.pure le_rfl

theorem constSpec_spells (doc : Option CommentGroup) (i : Nat) (previous : Option Value) :
    Spells P (constSpec doc i previous) Grammar.constSpec := by
  simp only [Grammar.constSpec, mul_assoc]
  refine .bind ident_spells fun name => .bind ownValue_spells fun own => ?_
  refine .before endOfItem_spells fun _ => .behind (.of_silent .trailing) fun comment => ?_
  refine .behind (requireValue_spells name i own) fun _ => .get fun s _ => ?_
  exact Spells.behind (declare_spells _ _ _ _ _) fun _ => .pure le_rfl

/-- Skipping happens behind a report only. -/
theorem skipToDecl_any : Spells P skipToDecl ⊤ := by
  refine Accepts.iterate (L := fun _ _ => ⊤) (M := fun _ _ => ⊤) (fun _ => ?_) (fun _ => le_rfl)
    (fun _ _ => le_rfl) (fun _ _ _ => le_top) ()
  refine .get fun s _ => ?_
  have hset {pos : Pos} {stops : Nat} : Spells (· = s)
      (set { s with syncPos := pos, syncStops := stops } >>= fun _ => pure none :
        Parse (Option Unit)) ⊤ :=
    Accepts.mono (Spells.behind (set_spells rfl rfl rfl) fun _ => .pure le_rfl) fun _ => le_top
  dsimp only
  split
  · exact .pure le_top
  split
  · exact hset
  split
  · exact hset
  · exact Spells.before advance_any fun _ => .pure le_rfl

/-- What starts with a token is not empty. -/
theorem not_empty {p : TokenKind → Prop} (h : Grammar.Heads p l) : [] ∉ l := by
  intro hnil
  obtain ⟨t, ht, -⟩ := h [] hnil
  cases ht

theorem imports_spells : Spells (At (.keyword .imp)) (Decl.imports <$> specGroup importSpec ())
    (Grammar.group .imp Grammar.importSpec) := by
  have hheads : Grammar.Heads (fun _ => True) Grammar.importSpec :=
    .mul (.optional (.add (.token trivial) (.token trivial)) (.token trivial))
  exact Accepts.map (specGroup_spells (not_empty hheads) importSpec_spells ())

theorem decl_spells : Spells P decl
    (Grammar.dataDecl maxTypeNesting + Grammar.serviceDecl maxTypeNesting) := by
  have hbean (kind : BeanKind) (k : Keyword) :
      Spells (At (.keyword k)) (bean kind >>= fun b => pure (Decl.bean b))
        (Grammar.bean k (bodyRule kind)) :=
    .before (bean_spells kind k) fun _ => .pure le_rfl
  have hdata {l : Language Token} (h : l ≤ Grammar.dataDecl maxTypeNesting) :
      l ≤ Grammar.dataDecl maxTypeNesting + Grammar.serviceDecl maxTypeNesting := le_add_right h
  refine .kind fun k => ?_
  split
  · have hheads : Grammar.Heads (fun _ => True) Grammar.constSpec := .mul (.mul (.token trivial))
    refine Accepts.mono (Spells.before (specGroup_spells (not_empty hheads) constSpec_spells none)
      fun _ => .pure le_rfl) fun _ => hdata ?_
    exact le_add_right (le_add_right (le_add_right le_rfl))
  · refine Accepts.mono (hbean .struct .struct) fun _ => hdata ?_
    exact le_add_right (le_add_right (le_add_left le_rfl))
  · refine Accepts.mono (hbean .protocol .protocol) fun _ => hdata ?_
    exact le_add_right (le_add_left le_rfl)
  · exact Accepts.mono (hbean .service .service) fun _ => le_add_left le_rfl
  · exact Accepts.mono (hbean .enum .enum) fun _ => hdata (le_add_left le_rfl)
  · refine .look _ fun s _ => (reportExpected_accepts _).reported fun _ => ?_
    exact Spells.before skipToDecl_any fun _ => .look _ fun s _ => .pure le_rfl

/-! ### Files -/

/-- Declarations follow one another as long as there are more. -/
theorem declsWhile_spells {one : Parse Decl} (more : ParseState → Bool)
    (hone : Spells (fun s => more s = true) one l)
    (hmore : ∀ s i, more { s with declIndex := i } = more s) (decls : Array Decl) :
    Spells P (declsWhile (fun s => (more s, s)) one decls) l∗ := by
  refine .iterate (fun decls => .look _ fun s _ => ?_) decls
  split
  · next h =>
    refine Spells.again ?_ (.after fun _ => .after fun _ => .pure rfl)
    rintro t heof rfl
    have ht := Spells.before hone (f := fun d => pure (some (decls.push d))) (fun _ => .pure le_rfl)
      { t with declIndex := decls.size } heof ((hmore t _).trans h)
    exact ⟨ht.eof, ht.grows, ht.sentence⟩
  · exact .pure le_rfl

theorem packageName_spells : Spells P packageName Grammar.ident := by
  refine .look _ fun s _ => Spells.before ident_spells fun name => ?_
  dsimp only
  split
  · exact .before (Accepts.mono (report_accepts _) fun _ => bot_le) fun _ => .pure le_rfl
  · exact .pure le_rfl

/-- A file that is parsed without a report is a sentence. -/
theorem file_spells (comments : List CommentGroup) : Spells P (Parse.file comments)
    (Grammar.keyword .pkg * (Grammar.ident * (Grammar.semicolon *
      ((Grammar.group .imp Grammar.importSpec)∗ *
        (Grammar.dataDecl maxTypeNesting + Grammar.serviceDecl maxTypeNesting)∗)))) := by
  refine .behind (.of_silent .takeLead) fun doc => .bind (expect_spells (by decide)) fun pos => ?_
  refine .bind packageName_spells fun name => .bind endOfItem_spells fun _ => ?_
  refine .bind (declsWhile_spells _ (Accepts.imp imports_spells fun s hs => eq_of_beq hs)
    (fun _ _ => rfl) #[]) fun imports => ?_
  refine .before (declsWhile_spells (fun s => !s.left.isEmpty) decl_spells (fun _ _ => rfl) imports)
    fun decls => ?_
  exact .behind (.of_silent .settlePending) fun unresolved => .get fun s _ => .pure le_rfl

/-- The tokens of a file that is parsed without a report are a sentence. -/
theorem file_accepts (comments : List CommentGroup) {s : ParseState} (hs : s.Ready)
    (h : (Parse.file comments s).2.diagnostics = s.diagnostics) :
    s.tokens ∈ Grammar.file
      (Grammar.dataDecl maxTypeNesting + Grammar.serviceDecl maxTypeNesting) := by
  have ht := file_spells (P := Anywhere) comments s hs.eof trivial
  obtain ⟨ts, hts, hleft⟩ := ht.sentence (congrArg Array.size h)
  rw [file_left comments s hs, List.map_nil, List.append_nil] at hleft
  have heof : [s.eof.token] ∈ Grammar.token .eof := ⟨_, hs.eof, rfl⟩
  have hall := Language.append_mem_mul hts heof
  rw [ParseState.tokens, hleft]
  simpa only [Grammar.file, mul_assoc] using hall

end Parse

end Idl
