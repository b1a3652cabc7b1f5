/-
Idl/Proofs/Syntax/Progress.lean

Every loop of the parser is left, and the tokens are used up.

A loop asks its step again and again, and nothing in the step itself keeps it from taking no token.
`Parse.Leaves` describes the loop as it would run by itself: each repetition takes a token or is the
last one.  That a loop is left wherever it is entered (`Parse.Ends`) is proved loop by loop, from
the rules that its step calls: all of them give no token back (`Parse.Keeps`), and some take one
where the current token is of a certain kind (`Parse.Takes`).

Main results: the loops of the parser are left (`imports_ends` to `skipStep_ends`), and a file is
parsed until no token is left (`file_left`).
-/
import Idl.Proofs.Trace.Source

namespace Idl

/-! ### Tokens that are left -/

/-- A step takes the first token that is left, or none. -/
theorem Step.left_suffix {s t : ParseState} {a : Act} (h : Step s a t) : t.left <:+ s.left := by
  cases h with
  | take h => exact h ▸ List.suffix_cons _ _
  | name h => exact h ▸ List.suffix_cons _ _
  | mark h => exact h ▸ List.suffix_cons _ _
  | handle e =>
    obtain ⟨_, _, _, _, _, he⟩ := e.run_frame s
    exact he ▸ List.suffix_refl s.left
  | _ => exact List.suffix_refl _

/-- The tokens that a run leaves are the last ones of those that were left at its start. -/
theorem Run.left_suffix {s t : ParseState} {tr : Trace} (r : Run s tr t) : t.left <:+ s.left := by
  induction r with
  | nil => exact List.suffix_refl _
  | cons h _ ih => exact ih.trans h.left_suffix

/-- The state `t` comes behind `s` while a file is parsed: tokens are gone from the front. -/
structure ParseState.Behind (s t : ParseState) : Prop where
  left : t.left <:+ s.left
  file : t.file = s.file
  eof : t.eof = s.eof

namespace ParseState.Behind

variable {s t u : ParseState}

theorem refl (s : ParseState) : s.Behind s := ⟨List.suffix_refl _, rfl, rfl⟩

theorem trans (h : s.Behind t) (h' : t.Behind u) : s.Behind u :=
  ⟨h'.left.trans h.left, h'.file.trans h.file, h'.eof.trans h.eof⟩

theorem of_run {tr : Trace} (r : Run s tr t) : s.Behind t :=
  ⟨r.left_suffix, r.frame.1, r.frame.2.2.2⟩

/-- Parsing goes on from later states, too. -/
theorem ready (h : s.Behind t) (hs : s.Ready) : t.Ready := by
  have hsub : t.tokens.Sublist s.tokens := by
    unfold tokens
    rw [h.eof]
    exact (h.left.sublist.map _).append_right _
  constructor
  · exact hs.increasing.sublist hsub
  · rw [h.file]
    exact fun x hx => hs.owned x (hsub.subset hx)
  · rw [h.file]
    exact fun x hx => hs.held x (hsub.subset hx)
  · exact fun x hx => hs.spelled x (hsub.subset hx)
  · exact fun x hx => hs.width x (hsub.subset hx)
  · rw [h.eof]
    exact hs.eof

end ParseState.Behind

/-- What changes neither the tokens nor the file does not keep parsing from going on. -/
theorem ParseState.Ready.same {s t : ParseState} (h : s.Ready) (hfile : t.file = s.file)
    (hleft : t.left = s.left) (heof : t.eof = s.eof) : t.Ready :=
  Behind.ready ⟨hleft ▸ List.suffix_refl _, hfile, heof⟩ h

/-- Parsing goes on from the state, and fewer than `n` tokens are left. -/
structure ParseState.Below (n : Nat) (s : ParseState) : Prop where
  ready : s.Ready
  left : s.left.length < n

theorem ParseState.Below.same {n : Nat} {s t : ParseState} (h : s.Below n)
    (hfile : t.file = s.file) (hleft : t.left = s.left) (heof : t.eof = s.eof) : t.Below n :=
  ⟨h.ready.same hfile hleft heof, hleft ▸ h.left⟩

namespace Parse

variable {α β : Type} {n : Nat}

/-! ### Loops -/

/-- The step is repeated from an answer and a state on until it answers nothing; each repetition
but the last takes a token. -/
inductive Leaves (step : α → Parse (Option α)) : α → ParseState → α → ParseState → Prop
  | stop {a : α} {s t : ParseState} (h : step a s = (none, t)) : Leaves step a s a t
  | again {a b c : α} {s t u : ParseState} (h : step a s = (some b, t))
    (hlt : t.left.length < s.left.length) (hrest : Leaves step b t c u) : Leaves step a s c u
  /-- A repetition that takes nothing, after which the loop is left. -/
  | last {a b : α} {s t : ParseState} (h : step a s = (some b, t)) (hstop : step b t = (none, t)) :
    Leaves step a s b t

/-- From every state from which parsing goes on, the loop is left. -/
def Ends (step : α → Parse (Option α)) : Prop :=
  ∀ a s, s.Ready → Leaves step a s (iterate step a s).1 (iterate step a s).2

/-- A repetition has answered: it has left fewer than `n` tokens, or the loop is left next. -/
structure Repeated (step : α → Parse (Option α)) (n : Nat) (r : Option α) (s : ParseState) :
    Prop where
  ready : s.Ready
  more : ∀ b ∈ r, s.Below n ∨ step b s = (none, s)

/-- A loop is left if each repetition takes a token or is the last one. -/
theorem ends_of_leads {step : α → Parse (Option α)}
    (h : ∀ a n, Leads (ParseState.Below (n + 1)) (step a) (Repeated step n)) : Ends step := by
  intro a s hs
  fun_induction iterate step a s with
  | case1 a s t hstep => exact .stop hstep
  | case2 a s b t hstep hlt ih =>
    have ht := h a s.left.length s ⟨hs, Nat.lt_succ_self _⟩
    rw [hstep] at ht
    exact .again hstep hlt (ih ht.ready)
  | case3 a s b t hstep hlt =>
    have ht := h a s.left.length s ⟨hs, Nat.lt_succ_self _⟩
    rw [hstep] at ht
    exact .last hstep ((ht.more b rfl).resolve_left fun hbelow => hlt hbelow.left)

/-- A step that answers has taken a token. -/
def Took (n : Nat) (r : Option α) (s : ParseState) : Prop :=
  if r.isSome then s.Below n else s.Below (n + 1)

theorem Took.below {r : Option α} {s : ParseState} (h : Took n r s) : s.Below (n + 1) := by
  unfold Took at h
  split at h
  · exact ⟨h.ready, Nat.lt_succ_of_lt h.left⟩
  · exact h

theorem ends_of_took {step : α → Parse (Option α)}
    (h : ∀ a n, Leads (ParseState.Below (n + 1)) (step a) (Took n)) : Ends step := by
  refine ends_of_leads fun a n s hs => ⟨(h a n s hs).below.ready, fun b hb => .inl ?_⟩
  have ht := h a n s hs
  unfold Took at ht
  rwa [if_pos (Option.isSome_iff_exists.2 ⟨b, hb⟩)] at ht

theorem Leads.again {step : α → Parse (Option α)} {b : α} :
    Leads (ParseState.Below n) (pure (some b)) (Repeated step n) :=
  .pure fun _ hs => ⟨hs.ready, fun _ _ => .inl hs⟩

theorem Leads.enough {step : α → Parse (Option α)} {m : Nat} :
    Leads (ParseState.Below m) (pure none) (Repeated step n) :=
  .pure fun _ hs => ⟨hs.ready, fun _ h => absurd h (Option.not_mem_none _)⟩

/-- What holds of the last state is what the step leaves behind when it answers nothing. -/
theorem Leaves.stopped {step : α → Parse (Option α)} {a b : α} {s t : ParseState}
    (h : Leaves step a s b t) : ∃ u, step b u = (none, t) := by
  induction h with
  | stop h => exact ⟨_, h⟩
  | again _ _ _ ih => exact ih
  | last _ hstop => exact ⟨_, hstop⟩

/-! ### Rules that take tokens -/

/-- A rule takes tokens from the front, and does not change the file. -/
def Passes (m : Parse α) : Prop := ∀ s : ParseState, s.Ready → s.Behind (m s).2

/-- A rule leaves no more tokens than there were. -/
def Keeps (m : Parse α) : Prop :=
  ∀ n, Leads (ParseState.Below n) m fun _ => ParseState.Below n

/-- Where the current token is of the kind `k`, a rule takes a token. -/
def Takes (k : TokenKind) (m : Parse α) : Prop :=
  ∀ n, Leads (fun s => s.Below (n + 1) ∧ s.current.token.kind = k) m fun _ => ParseState.Below n

/-- What a rule does is a run, and runs take tokens from the front. -/
theorem Accounts.passes {m : Parse α} {A : Nat → ParseState → α → Account}
    (h : ∀ index s₀, Accounts index s₀ m (A index s₀)) : Passes m := by
  intro s hs
  obtain ⟨tr, r, -⟩ := (h s.declIndex s {} s ⟨hs, rfl, [], .nil s, .nil⟩).run
  exact .of_run r

theorem Passes.keeps {m : Parse α} (h : Passes m) : Keeps m := fun _ s hs =>
  have hbehind := h s hs.ready
  ⟨hbehind.ready hs.ready, Nat.lt_of_le_of_lt hbehind.left.length_le hs.left⟩

theorem Accounts.keeps {m : Parse α} {A : Nat → ParseState → α → Account}
    (h : ∀ index s₀, Accounts index s₀ m (A index s₀)) : Keeps m := (passes h).keeps

namespace Keeps

variable {m : Parse α} {f : α → Parse β}

protected theorem bind (hm : Keeps m) (hf : ∀ a, Keeps (f a)) : Keeps (m >>= f) :=
  fun n => (hm n).bind fun a => hf a n

protected theorem pure (a : α) : Keeps (pure a) := fun _ => .pure fun _ hs => hs

protected theorem map {g : α → β} (hm : Keeps m) : Keeps (g <$> m) := fun n => .map (hm n)

protected theorem ite {c : Prop} [Decidable c] {m' : Parse α} (h : Keeps m) (h' : Keeps m') :
    Keeps (if c then m else m') := fun n => .ite (fun _ => h n) fun _ => h' n

/-- Looking at the state. -/
protected theorem read (g : ParseState → α) (hf : ∀ a, Keeps (f a)) :
    Keeps ((fun s => (g s, s) : Parse α) >>= f) := fun n => .read g fun a => (hf a n).forget

/-- A step that takes a token or none leaves no more than there were. -/
theorem of_took {m : Parse (Option α)}
    (h : ∀ n, Leads (ParseState.Below (n + 1)) m (Took n)) : Keeps m := by
  intro n s hs
  obtain ⟨k, rfl⟩ : ∃ k, n = k + 1 := ⟨n - 1, by have := hs.left; omega⟩
  exact (h k s hs).below

protected theorem iterate {step : α → Parse (Option α)} (h : ∀ a, Keeps (step a)) (a : α) :
    Keeps (iterate step a) := fun n => .iterate (I := fun _ => ParseState.Below n) (fun a => h a n) a

end Keeps

namespace Takes

variable {k : TokenKind} {m : Parse α} {f : α → Parse β}

protected theorem bind (hm : Takes k m) (hf : ∀ a, Keeps (f a)) : Takes k (m >>= f) :=
  fun n => (hm n).bind fun a => hf a n

protected theorem map {g : α → β} (hm : Takes k m) : Takes k (g <$> m) := fun n => .map (hm n)

/-- Looking at the state, of which the kind of the current token stays known. -/
protected theorem read (g : ParseState → α)
    (hf : ∀ s, s.current.token.kind = k → Takes k (f (g s))) :
    Takes k ((fun s => (g s, s) : Parse α) >>= f) := fun n s hs => hf s hs.2 n s hs

end Takes

/-! ### Tokens, names and types -/

theorem advance_keeps : Keeps advance := Accounts.keeps fun _ _ => advance_accounts

/-- Before the end of the file there is a token to take. -/
theorem advance_shrinks :
    Leads (fun s => s.Below (n + 1) ∧ s.left ≠ []) advance fun _ => ParseState.Below n := by
  rintro s ⟨hs, hne⟩
  obtain ⟨t, rest, hl⟩ := List.exists_cons_of_ne_nil hne
  refine ⟨(advance_keeps _ s hs).ready, ?_⟩
  have hlt := hs.left
  rw [hl, List.length_cons] at hlt
  rw [advance_of_left hl]
  exact Nat.lt_of_succ_lt_succ hlt

theorem left_ne_of_kind {s : ParseState} (hs : s.Ready) (hk : s.current.token.kind ≠ .eof) :
    s.left ≠ [] := by
  obtain ⟨rest, hl⟩ := left_of_kind hs hk
  rw [hl]
  exact List.cons_ne_nil _ _

theorem advance_takes {k : TokenKind} (hk : k ≠ .eof) : Takes k advance := by
  rintro n s ⟨hs, rfl⟩
  exact advance_shrinks s ⟨hs, left_ne_of_kind hs.ready hk⟩

theorem takeLead_keeps : Keeps takeLead := Accounts.keeps fun _ _ => takeLead_accounts

theorem expect_keeps (k : TokenKind) : Keeps (expect k) := Accounts.keeps fun _ _ => expect_accounts k

theorem ident_keeps : Keeps ident := Accounts.keeps fun _ _ => ident_accounts

theorem typeExpr_keeps : Keeps typeExpr := Accounts.keeps fun _ _ => typeExpr_accounts

/-- Comments in front of a token do not keep a rule from taking it. -/
theorem Takes.behindLead {k : TokenKind} {f : Option CommentGroup → Parse β}
    (hf : ∀ g, Takes k (f g)) : Takes k (takeLead >>= f) := by
  rintro n s ⟨hs, hk⟩
  exact hf _ n _ ⟨⟨(takeLead_keeps _ s hs).ready, hs.left⟩, hk⟩

theorem ident_takes : Takes .ident ident := by
  rintro n s ⟨hs, hk⟩
  have h := advance_takes (k := .ident) (by decide) n s ⟨hs, hk⟩
  have hident : ident s = newIdent s.current.token.text s.current.token.pos (advance s).2 := by
    simp only [ident, bind_apply, current, hk, ↓reduceIte]
  have hready := (ident_keeps _ s hs).ready
  rw [hident] at hready ⊢
  exact ⟨hready, h.left⟩

theorem arraySize_keeps : Keeps arraySize := Accounts.keeps fun _ _ => arraySize_accounts

theorem typeNested_keeps (levels : Nat) : Keeps (typeNested levels) :=
  Accounts.keeps fun _ _ => typeNested_accounts levels

theorem typeExpr_takes : Takes .ident typeExpr := by
  refine .read _ fun s hk => ?_
  have hb : (s.current.token.kind == TokenKind.ident) = true := by rw [hk]; rfl
  rw [hb]
  refine ident_takes.bind fun name => .read _ fun b => .ite ?_ ?_
  · exact advance_keeps.bind fun _ => ident_keeps.bind fun _ => .pure _
  split
  · exact .pure _
  · refine (expect_keeps _).bind fun _ => (typeNested_keeps _).bind fun _ => ?_
    refine (expect_keeps _).bind fun _ => (typeNested_keeps _).bind fun _ => ?_
    exact (expect_keeps _).bind fun _ => .pure _
  · refine (expect_keeps _).bind fun _ => (typeNested_keeps _).bind fun _ => ?_
    refine (expect_keeps _).bind fun _ => arraySize_keeps.bind fun _ => ?_
    exact (expect_keeps _).bind fun _ => .pure _
  · refine (expect_keeps _).bind fun _ => (typeNested_keeps _).bind fun _ => ?_
    exact (expect_keeps _).bind fun _ => .pure _
  · exact .pure _

/-- Where no type starts, that is reported, and nothing else happens. -/
theorem typeExpr_elsewhere {k : TokenKind} (hk : k ≠ .ident) :
    Leads (fun s => s.Below n ∧ s.current.token.kind = k) typeExpr
      fun _ s => s.Below n ∧ s.current.token.kind = k := by
  rintro s ⟨hs, rfl⟩
  have hb : (s.current.token.kind == TokenKind.ident) = false := by simpa using hk
  have htype : (typeExpr s).2 = (reportExpected "type" s).2 := by
    show (typeNested (63 + 1) s).2 = _
    rw [typeNested]
    simp only [bind_apply, check, hb, Bool.not_false, ↓reduceIte]
    rfl
  rw [htype]
  exact ⟨hs.same rfl rfl rfl, rfl⟩


/-! ### Loops over names, options and parameters -/

theorem moreIdents_ends : Ends moreIdents := by
  refine ends_of_leads fun names n => .check fun b => .ite (fun hb => ?_) fun _ => .forget .enough
  refine Leads.bind (Leads.imp (advance_takes (k := .punct .comma) (by decide) n) fun s hs => ?_)
    fun _ => (ident_keeps n).bind fun _ => .again
  exact ⟨hs.1, by simpa [hb] using hs.2⟩

theorem newIdent_keeps (name : String) (p : Pos) : Keeps (newIdent name p) := fun _ _ hs =>
  hs.same rfl rfl rfl

/-- A word before a field is taken. -/
theorem moreOptions_leads (options : Array Ident) :
    Leads (ParseState.Below (n + 1)) (moreOptions options) (Took n) := by
  have hword {k : TokenKind} (hk : k ≠ .eof) :
      Leads (fun s => s.Below (n + 1) ∧ s.current.token.kind = k)
        (advance >>= fun t => newIdent t.text t.pos >>= fun i => pure (some (options.push i)))
        (Took n) :=
    Leads.bind (advance_takes hk n) fun _ => (newIdent_keeps _ _ n).bind fun _ => .pure fun _ => id
  refine .kind fun k => ?_
  split
  · exact hword (by decide)
  · exact hword (by decide)
  · exact .forget (.pure fun _ => id)

theorem moreOptions_ends : Ends moreOptions := ends_of_took fun options _ => moreOptions_leads options

theorem param_broken {sofar : ParamsSoFar} (h : sofar.broken.isSome = true) (s : ParseState) :
    param sofar s = (none, s) := by
  simp only [param, h, Bool.true_or, bind_apply, check, atEnd, ↓reduceIte, pure_apply]

theorem report_keeps (d : Diagnostic) : Keeps (report d) := fun _ _ hs =>
  hs.same rfl rfl rfl

/-- Behind a type the list goes on, or it is broken off. -/
theorem param_ends : Ends param := by
  refine ends_of_leads fun sofar n => ?_
  refine .check fun closes => .read _ fun e => .ite (fun _ => .imp .enough fun s hs => hs.1.1) ?_
  intro hgo
  have hcloses : closes = false := by
    cases closes with
    | false => rfl
    | true => simp at hgo
  rintro s ⟨⟨hs, hparen⟩, -⟩
  rw [hcloses] at hparen
  by_cases hk : s.current.token.kind = .ident
  -- a type is taken, and nothing behind it gives tokens back
  · refine Leads.bind (typeExpr_takes n) (fun type => ?_) s ⟨hs, hk⟩
    refine .kind fun k => .forget ?_
    split
    · refine (ident_keeps n).bind fun name => .check fun b => .forget (.ite (fun _ => ?_) fun _ => .again)
      exact (advance_keeps n).bind fun _ => .again
    · exact (advance_keeps n).bind fun _ => .again
    · exact .again
    · exact .current fun t => .forget ((report_keeps _ n).bind fun _ => .again)
  -- what starts no type is still there
  · refine Leads.bind (typeExpr_elsewhere hk) (fun type => ?_) s ⟨hs, rfl⟩
    refine .kind fun k => .use (fun t ht => ht.2.symm.trans ht.1.2) fun hkind => ?_
    subst hkind
    split
    · next h => exact absurd h hk
    · next h =>
      refine Leads.bind (Leads.imp (advance_takes (k := .punct .comma) (by decide) n) fun t ht => ?_)
        fun _ => .again
      exact ⟨ht.1.1, ht.1.2.trans h⟩
    · next h => simp [h] at hparen
    · refine .forget (.forget (.current fun t => .forget ((report_keeps _ _).bind fun _ => ?_)))
      exact .pure fun t ht => ⟨ht.ready, fun b hb => .inr (by cases hb; exact param_broken rfl _)⟩

/-! ### Members of beans -/

/-- What the first repetition gives and each further one keeps, the loop gives. -/
theorem Leads.iterate_first {step : α → Parse (Option α)} {P : ParseState → Prop}
    {I : α → ParseState → Prop} {a : α} (hfirst : Leads P (step a) fun r => I (r.getD a))
    (h : ∀ a, Leads (I a) (step a) fun r => I (r.getD a)) : Leads P (iterate step a) I := by
  intro s hs
  have hs := hfirst s hs
  unfold iterate
  split
  · next hstep =>
    rw [hstep] at hs
    exact hs
  · next hstep =>
    rw [hstep] at hs
    split
    · exact Leads.iterate h _ _ hs
    · exact hs

theorem moreOptions_keeps (options : Array Ident) : Keeps (moreOptions options) :=
  .of_took fun _ => moreOptions_leads options

/-- Words before a field are taken. -/
theorem fieldOptions_takes {k : TokenKind} (hk : k = .keyword .required ∨ k = .keyword .optional) :
    Takes k fieldOptions := by
  intro n
  refine Leads.bind (Leads.iterate_first (I := fun _ => ParseState.Below n) ?_
    fun options => moreOptions_keeps options n) fun options => .pure fun _ hs => hs
  rintro s ⟨hs, hkind⟩
  have h := moreOptions_leads #[] s hs
  rcases hk with rfl | rfl
  · simp only [moreOptions, bind_apply, kind, hkind] at h ⊢
    exact h
  · simp only [moreOptions, bind_apply, kind, hkind] at h ⊢
    exact h

/-- Where there is no word before a field, nothing happens. -/
theorem fieldOptions_elsewhere {s : ParseState} (h : s.current.token.kind ≠ .keyword .required)
    (h' : s.current.token.kind ≠ .keyword .optional) : fieldOptions s = ([], s) := by
  have hstep : moreOptions #[] s = (none, s) := by
    simp only [moreOptions, bind_apply, kind]
    rfl
  unfold fieldOptions
  rw [bind_apply, iterate, hstep]
  rfl

theorem identList_keeps : Keeps identList := Accounts.keeps fun _ _ => identList_accounts

theorem typeAndNames_keeps : Keeps typeAndNames := Accounts.keeps fun _ _ => typeAndNames_accounts

theorem typeAndNames_takes {k : TokenKind} (hk : k = .ident ∨ k = .keyword .ext) :
    Takes k typeAndNames := by
  refine .read _ fun s hs => ?_
  rcases hk with rfl | rfl
  · have hb : (s.current.token.kind == TokenKind.keyword .ext) = false := by rw [hs]; rfl
    rw [hb]
    exact typeExpr_takes.bind fun _ => identList_keeps.bind fun _ => .pure _
  · have hb : (s.current.token.kind == TokenKind.keyword .ext) = true := by rw [hs]; rfl
    rw [hb]
    exact (advance_takes (by decide)).bind fun _ => typeExpr_keeps.bind fun _ => .pure _

theorem string?_keeps : Keeps string? := Accounts.keeps fun _ _ => string?_accounts

theorem endOfItem_keeps : Keeps endOfItem := Accounts.keeps fun _ _ => endOfItem_accounts

theorem declare_keeps (i : Ident) (kind : ObjectKind) (origin : Origin) (data : Option Int)
    (scope : ScopeId) : Keeps (declare i kind origin data scope) :=
  Accounts.keeps fun _ _ => declare_accounts i kind origin data scope

theorem declareAll_passes (kind : ObjectKind) (origin : Origin) (data : Option Int) (scope : ScopeId)
    (names : List Ident) : Passes (names.forM fun name => declare name kind origin data scope) :=
  Accounts.passes (A := fun _ _ _ => { events := names.map (.declare scope kind origin data) })
    fun _ _ => declare_all kind origin data scope names

theorem declareAll_keeps (kind : ObjectKind) (origin : Origin) (data : Option Int)
    (scope : ScopeId) (names : List Ident) :
    Keeps (names.forM fun name => declare name kind origin data scope) :=
  (declareAll_passes kind origin data scope names).keeps

/-- A field starts with a word before it or with its type. -/
theorem typeBehindOptions_takes {k : TokenKind} {f : List Ident → TypeExpr × List Ident → Parse β}
    (hk : k = .ident ∨ k = .keyword .ext ∨ k = .keyword .required ∨ k = .keyword .optional)
    (hf : ∀ options p, Keeps (f options p)) :
    Takes k (fieldOptions >>= fun options => typeAndNames >>= f options) := by
  have helse (h : k ≠ .keyword .required) (h' : k ≠ .keyword .optional)
      (hk : k = .ident ∨ k = .keyword .ext) :
      Takes k (fieldOptions >>= fun options => typeAndNames >>= f options) := by
    rintro n s ⟨hs, rfl⟩
    rw [bind_apply, fieldOptions_elsewhere h h']
    exact (typeAndNames_takes hk).bind (hf []) n s ⟨hs, rfl⟩
  rcases hk with rfl | rfl | hk
  · exact helse (by decide) (by decide) (.inl rfl)
  · exact helse (by decide) (by decide) (.inr rfl)
  · exact (fieldOptions_takes hk).bind fun options => typeAndNames_keeps.bind (hf options)

theorem field_takes {k : TokenKind} (hk : k = .ident ∨ k = .keyword .ext ∨
    k = .keyword .required ∨ k = .keyword .optional) (scope : ScopeId) (i : Nat) :
    Takes k (field scope i) := by
  refine .behindLead fun doc => typeBehindOptions_takes hk fun options p => ?_
  refine string?_keeps.bind fun _ => endOfItem_keeps.bind fun _ => .read _ fun _ => .read _ fun _ => ?_
  refine (declareAll_keeps _ _ _ _ _).bind fun _ => ?_
  exact (Accounts.keeps fun _ _ => resolveTypeExpr_accounts _).bind fun _ => .pure _

theorem signature_keeps : Keeps signature := Accounts.keeps fun _ _ => signature_accounts

theorem method_takes (scope : ScopeId) (i : Nat) : Takes .ident (method scope i) := by
  have hname : Takes .ident nameAndType := by
    refine typeExpr_takes.bind fun first => .read _ fun opens => ?_
    split
    · exact signature_keeps.bind fun _ => .pure _
    · exact .pure _
  refine .behindLead fun doc => hname.bind fun p => endOfItem_keeps.bind fun _ => ?_
  refine .read _ fun _ => .read _ fun _ => (declareAll_keeps _ _ _ _ _).bind fun _ => ?_
  exact (Accounts.keeps fun _ _ => resolveMemberType_accounts _).bind fun _ => .pure _

theorem enumerator_takes (scope : ScopeId) (i : Nat) : Takes .ident (enumerator scope i) := by
  refine .behindLead fun doc => ident_takes.bind fun name => (expect_keeps _).bind fun _ => ?_
  refine (Accounts.keeps fun _ _ => enumValue_accounts).bind fun _ => ?_
  refine (Accounts.keeps fun _ _ => endOfEnumerator_accounts).bind fun _ => ?_
  exact .read _ fun _ => .read _ fun _ => (declare_keeps _ _ _ _ _).bind fun _ => .pure _

/-- A member that is there takes a token. -/
theorem member?_leads (kind : BeanKind) (scope : ScopeId) (i : Nat) :
    Leads (ParseState.Below (n + 1)) (member? kind scope i) (Took n) := by
  have hmember {k : TokenKind} {m : Parse Member} {t : SignificantToken} (hm : Takes k m)
      (hk : t.token.kind = k) : Leads (fun s => s.Below (n + 1) ∧ s.current = t) (some <$> m)
        (Took n) :=
    .map (Leads.imp (hm n) fun s hs => ⟨hs.1, hs.2 ▸ hk⟩)
  refine .current fun t => ?_
  split
  case h_1 h => exact hmember (method_takes scope i) h
  case h_2 h => exact hmember (enumerator_takes scope i) h
  case h_11 => exact .forget (.pure fun _ => id)
  case h_3 h | h_7 h => exact hmember (field_takes (.inl rfl) scope i) h
  case h_4 h | h_8 h => exact hmember (field_takes (.inr (.inl rfl)) scope i) h
  case h_5 h | h_9 h => exact hmember (field_takes (.inr (.inr (.inl rfl))) scope i) h
  case h_6 h | h_10 h => exact hmember (field_takes (.inr (.inr (.inr rfl))) scope i) h

theorem moreMembers_leads (kind : BeanKind) (scope : ScopeId) (members : Array Member) :
    Leads (ParseState.Below (n + 1)) (moreMembers kind scope members) (Took n) := by
  refine (member?_leads kind scope members.size).bind fun r => .pure fun s hs => ?_
  unfold Took at *
  rwa [Option.isSome_map]

theorem moreMembers_ends (kind : BeanKind) (scope : ScopeId) : Ends (moreMembers kind scope) :=
  ends_of_took fun members _ => moreMembers_leads kind scope members

theorem moreMembers_keeps (kind : BeanKind) (scope : ScopeId) (members : Array Member) :
    Keeps (moreMembers kind scope members) := .of_took fun _ => moreMembers_leads kind scope members

/-! ### Declarations -/

/-- A specification that takes nothing does not keep the group from going on. -/
theorem moreSpecs_ends {spec : Option CommentGroup → Nat → β → Parse (α × β)}
    (h : ∀ doc i b, Keeps (spec doc i b)) : Ends (moreSpecs spec) := by
  refine ends_of_leads fun sofar n => ?_
  refine .read _ fun closes => .forget (.read _ fun e => .ite (fun _ => .forget .enough) fun hgo => ?_)
  refine .get fun t => .use (φ := t.left ≠ [] ∧ t.left.length ≤ n) ?_ fun ht => ?_
  · rintro s ⟨⟨hs, rfl⟩, rfl⟩
    refine ⟨fun hnil => hgo ?_, Nat.le_of_lt_succ hs.left⟩
    rw [hnil, List.isEmpty_nil, Bool.or_true]
  have hstart (s : ParseState) : (s.Below (n + 1) ∧ s.left.isEmpty = e) ∧ s = t →
      s.Below (t.left.length + 1) := by
    rintro ⟨⟨hs, -⟩, rfl⟩
    exact ⟨hs.ready, Nat.lt_succ_self _⟩
  refine Leads.imp ((takeLead_keeps _).bind fun doc => ?_) hstart
  refine (h doc _ _ _).bind fun r => .get fun u => .ite (fun hu => ?_) fun hu => ?_
  · refine Leads.bind (Leads.imp (advance_shrinks (n := n)) fun s hs => ?_) fun _ => .again
    obtain ⟨hs, rfl⟩ := hs
    refine ⟨⟨hs.ready, Nat.lt_of_lt_of_le hs.left (Nat.succ_le_succ ht.2)⟩, fun hnil => ht.1 ?_⟩
    exact List.length_eq_zero_iff.1 (hu.symm.trans (List.length_eq_zero_iff.2 hnil))
  · refine Leads.imp .again fun s hs => ?_
    obtain ⟨hs, rfl⟩ := hs
    have hlt := hs.left
    exact ⟨hs.ready, by omega⟩

theorem importSpec_keeps (doc : Option CommentGroup) (i : Nat) (b : Unit) :
    Keeps (importSpec doc i b) := Accounts.keeps fun _ _ => importSpec_accounts doc i

theorem constSpec_keeps (doc : Option CommentGroup) (i : Nat) (previous : Option Value) :
    Keeps (constSpec doc i previous) := by
  refine ident_keeps.bind fun name => (Accounts.keeps fun _ _ => ownValue_accounts).bind fun own => ?_
  refine endOfItem_keeps.bind fun _ => .read _ fun _ => Keeps.bind ?_ fun _ => ?_
  · exact .ite (report_keeps _) (.pure _)
  · exact .read (fun s => s) fun s => (declare_keeps _ _ _ _ _).bind fun _ => .pure _

/-- A group starts with its keyword. -/
theorem specGroup_takes {spec : Option CommentGroup → Nat → β → Parse (α × β)} {start : β}
    {k : TokenKind} (hk : k ≠ .eof) (h : ∀ doc i b, Keeps (spec doc i b)) :
    Takes k (specGroup spec start) := by
  have hmore (sofar : Array α × β) : Keeps (moreSpecs spec sofar) := by
    refine .read _ fun _ => .read _ fun _ => .ite (.pure _) (.read (fun s => s) fun t => ?_)
    refine takeLead_keeps.bind fun doc => (h doc _ _).bind fun r => .read (fun s => s) fun u => ?_
    exact .ite (advance_keeps.bind fun _ => .pure _) (.pure _)
  refine .behindLead fun doc => (advance_takes hk).bind fun t => .read _ fun b => .ite ?_ ?_
  · refine advance_keeps.bind fun _ => (Keeps.iterate hmore _).bind fun _ => ?_
    exact (expect_keeps _).bind fun _ => .pure _
  · exact (h _ _ _).bind fun _ => .pure _

theorem set_bind {t : ParseState} {x : SymbolTable} {pos : Pos} {stops : Nat} {f : PUnit → Parse β}
    {Q : β → ParseState → Prop} (hf : Leads (ParseState.Below n) (f ()) Q) :
    Leads (fun s => s.Below n ∧ s = t)
      (set { t with symbols := x, syncPos := pos, syncStops := stops } >>= f) Q := by
  rintro s ⟨hs, rfl⟩
  exact hf _ (hs.same rfl rfl rfl)

/-- A bean starts with its keyword. -/
theorem bean_takes {k : TokenKind} (hk : k ≠ .eof) (kind : BeanKind) : Takes k (bean kind) := by
  refine .behindLead fun doc => (advance_takes hk).bind fun _ => ident_keeps.bind fun name => ?_
  refine string?_keeps.bind fun tag n => .get fun t => set_bind ?_
  refine (expect_keeps _ _).bind fun _ => (Keeps.iterate (moreMembers_keeps kind _) _ _).bind fun _ => ?_
  refine (expect_keeps _ _).bind fun _ => .get fun t => .forget ?_
  exact (declare_keeps _ _ _ _ _ _).bind fun _ => .pure fun _ hs => hs

theorem skipStep_leads : Leads (ParseState.Below (n + 1)) (skipStep ()) (Took n) := by
  refine .get fun t => .ite (fun _ => .forget (.pure fun _ => id)) fun hne => ?_
  refine .ite (fun _ => set_bind (.pure fun _ => id)) fun _ => ?_
  refine .ite (fun _ => set_bind (.pure fun _ => id)) fun _ => ?_
  refine Leads.bind (Leads.imp (advance_shrinks (n := n)) fun s hs => ⟨hs.1, fun hnil => ?_⟩)
    fun _ => .pure fun _ => id
  rw [← hs.2, hnil] at hne
  exact hne rfl

theorem skipStep_ends : Ends skipStep := ends_of_took fun _ _ => skipStep_leads

/-- Skipping takes what starts no declaration. -/
theorem skipToDecl_shrinks :
    Leads (fun s => s.Below (n + 1) ∧ s.left ≠ [] ∧ startsDecl s.current.token.kind = false)
      skipToDecl fun _ => ParseState.Below n := by
  refine Leads.iterate_first (I := fun _ => ParseState.Below n) ?_
    fun _ => Keeps.of_took (fun _ => skipStep_leads) n
  rintro s ⟨hs, hne, hkind⟩
  have h := skipStep_leads s hs
  have hempty : s.left.isEmpty = false := by simpa using hne
  have hstep : (skipStep () s).1 = some () := by
    simp only [skipStep, bind_apply, get_apply, hempty, hkind, Bool.false_and, Bool.false_eq_true,
      ↓reduceIte]
    rfl
  rw [hstep] at h
  exact h

/-- Where the file goes on, something is taken, whether or not it starts a declaration. -/
theorem decl_shrinks :
    Leads (fun s => s.Below (n + 1) ∧ s.left ≠ []) decl fun _ => ParseState.Below n := by
  have hbean {k : TokenKind} (hk : k ≠ .eof) (kind : BeanKind) : Leads (fun s =>
      (s.Below (n + 1) ∧ s.left ≠ []) ∧ s.current.token.kind = k) (Decl.bean <$> bean kind)
      fun _ => ParseState.Below n :=
    Leads.imp ((bean_takes hk kind).map n) fun s hs => ⟨hs.1.1, hs.2⟩
  refine .kind fun k => ?_
  split
  · refine Leads.imp
      ((specGroup_takes (k := .keyword .const) (by decide) constSpec_keeps).map n) fun s hs => ?_
    exact ⟨hs.1.1, hs.2⟩
  · exact hbean (by decide) .struct
  · exact hbean (by decide) .protocol
  · exact hbean (by decide) .service
  · exact hbean (by decide) .enum
  · next hconst hstruct hprotocol hservice henum =>
    refine .pos fun start => Leads.bind (Q := fun _ s => s.Below (n + 1) ∧ s.left ≠ [] ∧
      startsDecl s.current.token.kind = false) ?_ fun _ => ?_
    · rintro s ⟨⟨⟨hs, hne⟩, rfl⟩, -⟩
      refine ⟨hs.same rfl rfl rfl, hne, ?_⟩
      show startsDecl s.current.token.kind = false
      unfold startsDecl
      split <;> simp_all
    · exact skipToDecl_shrinks.bind fun _ => .pos fun stop => .forget (.pure fun _ => id)

/-! ### Files -/

/-- Declarations come to an end when each of them takes a token where there is one more. -/
theorem moreDecls_ends {one : Parse Decl} (more : ParseState → Bool)
    (hmore : ∀ s i, more { s with declIndex := i } = more s)
    (hone : ∀ n, Leads (fun s => s.Below (n + 1) ∧ more s = true) one fun _ => ParseState.Below n) :
    Ends (moreDecls (fun s => (more s, s)) one) := by
  refine ends_of_leads fun decls n => .read _ fun b => .ite (fun hb => ?_) fun _ => .forget .enough
  refine Leads.bind (Q := fun _ s => s.Below (n + 1) ∧ more s = true) ?_ fun _ =>
    (hone n).bind fun d => .again
  rintro s ⟨hs, hs'⟩
  refine ⟨hs.same rfl rfl rfl, ?_⟩
  exact (hmore s _).trans (hs'.trans hb)

theorem imports_ends : Ends (moreDecls (check (.keyword .imp))
    (Decl.imports <$> specGroup importSpec ())) := by
  refine moreDecls_ends _ (fun _ _ => rfl) fun n => Leads.imp
    ((specGroup_takes (k := .keyword .imp) (by decide) importSpec_keeps).map n) fun s hs => ?_
  exact ⟨hs.1, by simpa using hs.2⟩

theorem decls_ends : Ends (moreDecls (not <$> atEnd) decl) := by
  refine moreDecls_ends (fun s => !s.left.isEmpty) (fun _ _ => rfl) fun n =>
    Leads.imp decl_shrinks fun s hs => ⟨hs.1, ?_⟩
  simpa using hs.2

/-- Declarations are taken until no token is left. -/
theorem decls_left (decls : Array Decl) :
    Leads ParseState.Ready (declsWhile (not <$> atEnd) decl decls) fun _ s => s.left = [] := by
  intro s hs
  obtain ⟨u, hu⟩ := (decls_ends decls s hs).stopped
  change (if !u.left.isEmpty then _ else pure none : Parse (Option (Array Decl))) u = _ at hu
  cases hleft : u.left.isEmpty with
  | false =>
    rw [hleft] at hu
    exact absurd (congrArg Prod.fst hu) (Option.some_ne_none _)
  | true =>
    rw [hleft] at hu
    exact congrArg Prod.snd hu ▸ List.isEmpty_iff.1 hleft

theorem Keeps.ready {m : Parse α} (h : Keeps m) : Leads ParseState.Ready m fun _ => ParseState.Ready :=
  fun s hs => (h (s.left.length + 1) s ⟨hs, Nat.lt_succ_self _⟩).ready

theorem moreImports_keeps (decls : Array Decl) : Keeps (moreDecls (check (.keyword .imp))
    (Decl.imports <$> specGroup importSpec ()) decls) := by
  refine .read _ fun b => .ite (Keeps.bind ?_ fun _ => ?_) (.pure _)
  · exact fun _ _ hs => hs.same rfl rfl rfl
  · exact (Accounts.keeps fun _ _ => imports_accounts).map.bind fun _ => .pure _

theorem packageName_keeps : Keeps packageName := Accounts.keeps fun _ _ => packageName_accounts

/-- A file is parsed until no token is left. -/
theorem file_left (comments : List CommentGroup) :
    Leads ParseState.Ready (file comments) fun _ s => s.left = [] := by
  refine takeLead_keeps.ready.bind fun doc => (expect_keeps _).ready.bind fun packagePos => ?_
  refine packageName_keeps.ready.bind fun name => endOfItem_keeps.ready.bind fun _ => ?_
  refine (Keeps.iterate moreImports_keeps #[]).ready.bind fun imports => ?_
  exact (decls_left imports).bind fun decls => Leads.bind (Q := fun _ s => s.left = []) (fun _ => id)
    fun _ => .get fun t => .forget (.pure fun _ => id)

end Parse

end Idl
