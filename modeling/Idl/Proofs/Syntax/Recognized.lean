/-
Idl/Proofs/Syntax/Recognized.lean

Sentences of the grammar are read to their end, without a syntax error.

Rules decide by the current token, so whether one of them reads a sentence depends on what may
stand behind it: `Parse.Reads` says that a rule takes exactly the sentence of `l` that stands in
front of a rest in `k`.  In a sequence, the rest of a part is a sentence of the part behind it and
its own rest (`Reads.bind`), and what a rule must not meet there are conditions on first tokens
(`Grammar.Heads`).

Services are left out: a method and its result are told apart by lines, which tokens do not show.

Main result: the parser accepts its grammar (`parseFile_accepts`).
-/
import Idl.Proofs.Isolation
import Idl.Proofs.Messages
import Idl.Proofs.Syntax.Accepted
import Idl.Proofs.Syntax.Ending

namespace Idl

open scoped Computability

/-! ### Syntax errors -/

/-- Whether an error says that the parser expected something else: its message starts with such
words, and they do not mean that a name, which may be `expected`, is redeclared. -/
def Diagnostic.isSyntaxError (d : Diagnostic) : Bool :=
  let message := d.message.toList
  ("expected ".toList.isPrefixOf message || "unexpected token ".toList.isPrefixOf message ||
    d.message = "type nesting too deep") &&
    !(" redeclared in this block".toList.isPrefixOf (afterFirstWord d.message))

/-- Whatever starts with other letters is no syntax error. -/
theorem Diagnostic.isSyntaxError_eq_false {message : String} (span : Span)
    (h : message.toList.take 3 ∉ [['e', 'x', 'p'], ['u', 'n', 'e'], ['t', 'y', 'p']]) :
    (Diagnostic.error message span).isSyntaxError = false := by
  have hprefix (words : List Char) (hwords : message.toList.take 3 ≠ words.take 3)
      (hlength : 3 ≤ words.length) : words.isPrefixOf message.toList = false := by
    rw [Bool.eq_false_iff]
    intro hp
    obtain ⟨rest, hrest⟩ := List.isPrefixOf_iff_prefix.1 hp
    exact hwords (by rw [← hrest, List.take_append_of_le_length hlength])
  have hexpected : "expected ".toList.isPrefixOf message.toList = false :=
    hprefix _ (fun heq => h (heq ▸ by decide)) (by decide)
  have hunexpected : "unexpected token ".toList.isPrefixOf message.toList = false :=
    hprefix _ (fun heq => h (heq ▸ by decide)) (by decide)
  have hdeep : message ≠ "type nesting too deep" := fun heq => h (heq ▸ by decide)
  show (("expected ".toList.isPrefixOf message.toList ||
    "unexpected token ".toList.isPrefixOf message.toList ||
    decide (message = "type nesting too deep")) && _) = false
  rw [hexpected, hunexpected, decide_eq_false hdeep]
  rfl

/-- That a name is redeclared is no syntax error, whatever the name. -/
theorem Diagnostic.isSyntaxError_redeclared {name : String} (hname : Spelled name)
    (previous : Option Position) (span : Span) :
    (Diagnostic.error (redeclaredMessage name previous) span).isSyntaxError = false := by
  have hblank : ∀ c ∈ name.toList, decide (c ≠ ' ') = true := fun c hc =>
    decide_eq_true fun heq => hname.not_mem (c := ' ') (by decide +kernel) (heq ▸ hc)
  have hwords : " redeclared in this block".toList.isPrefixOf
      (afterFirstWord (redeclaredMessage name previous)) = true := by
    unfold afterFirstWord redeclaredMessage
    rw [String.append_assoc, String.toList_append, String.toList_append,
      List.dropWhile_append_of_pos hblank]
    exact List.isPrefixOf_iff_prefix.2 ⟨_, rfl⟩
  show (_ && !(" redeclared in this block".toList.isPrefixOf
    (afterFirstWord (redeclaredMessage name previous)))) = false
  rw [hwords]
  exact Bool.and_false _

/-- The first words of a message are enough to tell. -/
theorem Diagnostic.isSyntaxError_of_words (words rest : String) (span : Span)
    (hlength : 3 ≤ words.toList.length)
    (h : words.toList.take 3 ∉ [['e', 'x', 'p'], ['u', 'n', 'e'], ['t', 'y', 'p']]) :
    (Diagnostic.error (words ++ rest) span).isSyntaxError = false := by
  refine isSyntaxError_eq_false span ?_
  rwa [String.toList_append, List.take_append_of_le_length hlength]

/-- What is wrong with a token is no syntax error. -/
theorem LexError.isSyntaxError (e : LexError) : e.toDiagnostic.isSyntaxError = false := by
  obtain ⟨kind, span⟩ := e
  have hwords (kind : LexErrorKind) (h : kind.message.toList.take 3 ∉
      [['e', 'x', 'p'], ['u', 'n', 'e'], ['t', 'y', 'p']]) :
      (LexError.toDiagnostic ⟨kind, span⟩).isSyntaxError = false :=
    Diagnostic.isSyntaxError_eq_false span h
  cases kind with
  | unexpectedCharacter c =>
    exact Diagnostic.isSyntaxError_of_words "illegal character " (shown c) span (by decide)
      (by decide)
  | invalidEscape name =>
    have hmessage : LexErrorKind.message (.invalidEscape name) =
        "unknown escape sequence '\\" ++ (name.toString ++ "'") := String.append_assoc ..
    show (Diagnostic.error (LexErrorKind.message (.invalidEscape name)) span).isSyntaxError = false
    rw [hmessage]
    exact Diagnostic.isSyntaxError_of_words _ _ span (by decide) (by decide)
  | invalidNumber fault =>
    exact Diagnostic.isSyntaxError_of_words "invalid number literal: " fault.message span
      (by decide) (by decide)
  | _ => exact hwords _ (by decide)

/-! ### States that are read on from -/

/-- A state from which sentences can be read: its last token, and no other, is the end of the file,
and names are spelled like names. -/
structure ParseState.Fit (s : ParseState) : Prop where
  eof : s.eof.token.kind = .eof
  spelled : ∀ t ∈ s.tokens, t.kind = .ident → Idl.Spelled t.text

/-- Tokens were taken up to the rest, and no syntax error was reported. -/
structure ParseState.Reached (s t : ParseState) (rest : List Token) : Prop where
  eof : t.eof = s.eof
  tokens : t.tokens = rest
  reports : ∃ new : Array Diagnostic, t.diagnostics = s.diagnostics ++ new ∧
    ∀ d ∈ new, d.isSyntaxError = false

theorem ParseState.Ready.fit {s : ParseState} (h : s.Ready) : s.Fit := by
  refine ⟨h.eof, fun t ht hk => ?_⟩
  have hspelled := h.spelled t ht
  unfold Token.Spelled at hspelled
  rwa [hk] at hspelled

namespace ParseState.Reached

variable {s t u : ParseState} {rest rest' : List Token}

theorem refl (s : ParseState) : s.Reached s s.tokens := ⟨rfl, rfl, #[], by simp, by simp⟩

theorem trans (h : s.Reached t rest) (h' : t.Reached u rest') : s.Reached u rest' := by
  obtain ⟨new, hnew, hclean⟩ := h.reports
  obtain ⟨new', hnew', hclean'⟩ := h'.reports
  refine ⟨h'.eof.trans h.eof, h'.tokens, new ++ new', ?_, fun d hd => ?_⟩
  · rw [hnew', hnew, Array.append_assoc]
  · exact (Array.mem_append.1 hd).elim (hclean d) (hclean' d)

/-- What is left is no worse than what there was. -/
theorem fit (h : s.Reached t rest) (hs : s.Fit) {ts : List Token}
    (htokens : s.tokens = ts ++ rest) : t.Fit := by
  refine ⟨h.eof ▸ hs.eof, fun x hx => hs.spelled x ?_⟩
  rw [htokens, ← h.tokens]
  exact List.mem_append_right ts hx

end ParseState.Reached

namespace Parse

variable {α β : Type} {l l' k k' : Language Token} {Q : α → Prop} {R : β → Prop}

/-! ### Rules and the sentences they read -/

/-- A sentence of `l` in front of one of `k` is taken, and nothing else is; the answer has the
property. -/
def Reads (l k : Language Token) (m : Parse α) (Q : α → Prop) : Prop :=
  ∀ s : ParseState, s.Fit → ∀ ts ∈ l, ∀ rest ∈ k, s.tokens = ts ++ rest →
    s.Reached (m s).2 rest ∧ Q (m s).1

/-- A step that takes nothing, and reports no syntax error. -/
def Idle (m : Parse α) : Prop := ∀ s : ParseState, s.Reached (m s).2 s.tokens

namespace Idle

protected theorem pure (a : α) : Idle (pure a) := fun s => .refl s

protected theorem bind {m : Parse α} {f : α → Parse β} (hm : Idle m) (hf : ∀ a, Idle (f a)) :
    Idle (m >>= f) := fun s => (hm s).trans ((hm s).tokens ▸ hf (m s).1 (m s).2)

theorem of_silent {m : Parse α} (h : Silent m) : Idle m := by
  refine fun s => ⟨h.eof s, ?_, #[], by rw [h.diagnostics, Array.append_empty], by simp⟩
  rw [ParseState.tokens, h.left, h.eof, ParseState.tokens]

theorem report {d : Diagnostic} (h : d.isSyntaxError = false) : Idle (report d) := by
  refine fun s => ⟨rfl, rfl, #[d], Array.push_eq_append, fun x hx => ?_⟩
  rw [Array.mem_singleton.1 hx]
  exact h

theorem declare {i : Ident} (h : Spelled i.name) (kind : ObjectKind) (origin : Origin)
    (data : Option Int) (scope : ScopeId) : Idle (declare i kind origin data scope) := by
  intro s
  rw [declare_snd]
  refine ⟨rfl, rfl, _, rfl, fun d hd => ?_⟩
  obtain ⟨o, -, rfl⟩ := Option.map_eq_some_iff.1 (Option.mem_toArray.1 hd)
  exact Diagnostic.isSyntaxError_redeclared h ..

theorem declareAll {names : List Ident} (h : ∀ i ∈ names, Spelled i.name) (kind : ObjectKind)
    (origin : Origin) (data : Option Int) (scope : ScopeId) :
    Idle (names.forM fun name => Parse.declare name kind origin data scope) := by
  induction names with
  | nil => exact .pure _
  | cons name names ih =>
    obtain ⟨hname, hnames⟩ := List.forall_mem_cons.1 h
    exact (Idle.declare hname kind origin data scope).bind fun _ => ih hnames

end Idle

namespace Reads

variable {m : Parse α} {f : α → Parse β}

/-- In a sequence, the rest of the first rule is what the second one reads, with its rest. -/
protected theorem bind (hm : Reads l (l' * k) m Q) (hf : ∀ a, Q a → Reads l' k (f a) R) :
    Reads (l * l') k (m >>= f) R := by
  intro s hs ts hts rest hrest htokens
  obtain ⟨as, has, bs, hbs, rfl⟩ := Language.mem_mul.1 hts
  have hsplit : s.tokens = as ++ (bs ++ rest) := htokens.trans (List.append_assoc ..)
  obtain ⟨hread, hq⟩ := hm s hs as has _ (Language.append_mem_mul hbs hrest) hsplit
  obtain ⟨hread', hr⟩ := hf _ hq _ (hread.fit hs hsplit) bs hbs rest hrest hread.tokens
  exact ⟨hread.trans hread', hr⟩

protected theorem pure {a : α} (h : Q a) : Reads 1 k (pure a) Q := by
  intro s _ ts hts rest _ htokens
  obtain rfl : ts = [] := hts
  have hread := ParseState.Reached.refl s
  rw [htokens] at hread
  exact ⟨hread, h⟩

theorem mono (hm : Reads l k m Q) (hl : l' ≤ l) (hk : k' ≤ k) : Reads l' k' m Q :=
  fun s hs ts hts rest hrest => hm s hs ts (hl hts) rest (hk hrest)

theorem imp {Q' : α → Prop} (hm : Reads l k m Q) (h : ∀ a, Q a → Q' a) : Reads l k m Q' :=
  fun s hs ts hts rest hrest htokens => (hm s hs ts hts rest hrest htokens).imp_right (h _)

/-- Alternatives are read one by one. -/
theorem add (h : Reads l k m Q) (h' : Reads l' k m Q) : Reads (l + l') k m Q :=
  fun s hs ts hts => hts.elim (h s hs ts) (h' s hs ts)

theorem zero : Reads 0 k m Q := fun _ _ ts hts => absurd hts (Language.notMem_zero ts)

/-- A step in front that takes nothing. -/
theorem behind (hm : Idle m) (hf : ∀ a, Reads l k (f a) R) : Reads l k (m >>= f) R := by
  intro s hs ts hts rest hrest htokens
  have h := hm s
  obtain ⟨hread, hr⟩ := hf (m s).1 (m s).2 (h.fit hs (List.nil_append _).symm) ts hts rest hrest
    (h.tokens.trans htokens)
  exact ⟨h.trans hread, hr⟩

/-- Steps behind that take nothing. -/
theorem before (hm : Reads l k m Q) (hf : ∀ a, Q a → Idle (f a)) :
    Reads l k (m >>= f) fun _ => True := by
  intro s hs ts hts rest hrest htokens
  obtain ⟨hread, hq⟩ := hm s hs ts hts rest hrest htokens
  exact ⟨hread.trans (hread.tokens ▸ hf _ hq _), trivial⟩

/-- Deciding by the current token, of which its kind is known. -/
theorem look {p : TokenKind → Prop} {g : ParseState → α}
    (h : Grammar.Heads p (l * k)) (hf : ∀ s, p s.current.token.kind → Reads l k (f (g s)) R) :
    Reads l k ((fun s => (g s, s) : Parse α) >>= f) R := by
  intro s hs ts hts rest hrest htokens
  obtain ⟨t, ht, hp⟩ := h _ (Language.append_mem_mul hts hrest)
  have hcurrent : s.current.token = t := by
    rw [← htokens, s.tokens_cons] at ht
    exact Option.some.inj ht
  exact hf s (hcurrent ▸ hp) s hs ts hts rest hrest htokens

theorem kind {f : TokenKind → Parse β} {p : TokenKind → Prop} (h : Grammar.Heads p (l * k))
    (hf : ∀ c, p c → Reads l k (f c) R) : Reads l k (Parse.kind >>= f) R :=
  look h fun _ hp => hf _ hp

/-- The answer to whether the current token is of a kind follows from what may stand there. -/
theorem check {f : Bool → Parse β} {c : TokenKind} (b : Bool)
    (h : Grammar.Heads (fun x => (x == c) = b) (l * k)) (hf : Reads l k (f b) R) :
    Reads l k (Parse.check c >>= f) R :=
  look h fun _ hp => hp ▸ hf

end Reads

/-! ### Tokens -/

/-- In front of a rest there is a token to take. -/
theorem left_of_tokens {s : ParseState} (hs : s.Fit) {t : Token} {rest : List Token}
    (ht : t.kind ≠ .eof) (h : s.tokens = t :: rest) :
    ∃ left, s.left = s.current :: left ∧ s.current.token = t ∧ (s.took left).tokens = rest := by
  have hcurrent : s.current.token = t := by
    rw [s.tokens_cons] at h
    exact (List.cons.inj h).1
  obtain ⟨left, hleft⟩ := left_of_ne_eof hs.eof (hcurrent ▸ ht)
  refine ⟨left, hleft, hcurrent, ?_⟩
  rw [ParseState.tokens, hleft] at h
  exact (List.cons.inj h).2

theorem advance_reads {c : TokenKind} (hc : c ≠ .eof) :
    Reads (Grammar.token c) k advance fun _ => True := by
  rintro s hs _ ⟨t, rfl, rfl⟩ rest _ htokens
  obtain ⟨left, hleft, -, hrest⟩ := left_of_tokens hs hc htokens
  rw [advance_of_left hleft]
  exact ⟨⟨rfl, hrest, #[], by simp [ParseState.took], by simp⟩, trivial⟩

theorem token_heads (c : TokenKind) :
    Grammar.Heads (fun x => (x == c) = true) (Grammar.token c * l) :=
  .mul (.token (beq_self_eq_true c))

theorem expect_reads {c : TokenKind} (hc : c ≠ .eof) :
    Reads (Grammar.token c) k (expect c) fun _ => True := by
  refine .look (p := fun x => (x == c) = true) (token_heads c) fun s _ => ?_
  exact .check true (token_heads c) (.before (advance_reads hc) fun _ _ => .pure _)

/-- The answer is the name that is there. -/
theorem name_reads (p : String → Prop) :
    Reads (Grammar.name p) k ident fun i => p i.name ∧ Spelled i.name := by
  rintro s hs _ ⟨t, hk, hp, rfl⟩ rest _ htokens
  obtain ⟨left, hleft, rfl, hrest⟩ := left_of_tokens hs (by rw [hk]; decide) htokens
  rw [ident_of_kind hleft hk]
  refine ⟨⟨rfl, hrest, #[], by simp [ParseState.took], by simp⟩, hp, ?_⟩
  exact hs.spelled _ s.current_mem hk

theorem ident_reads : Reads Grammar.ident k ident fun i => Spelled i.name := by
  have hname : Grammar.ident ≤ Grammar.name fun _ => True :=
    fun _ ⟨t, hk, ht⟩ => ⟨t, hk, trivial, ht⟩
  exact ((name_reads fun _ => True).mono hname le_rfl).imp fun _ h => h.2

theorem lit_reads {c : TokenKind} (hc : c ≠ .eof) (lit : LitKind) :
    Reads (Grammar.token c) k (Parse.lit lit) fun _ => True :=
  .before (advance_reads hc) fun _ _ => .pure _

/-- Something that may be missing is read if it cannot be taken for what follows. -/
theorem Reads.optional {c : TokenKind} {f : Bool → Parse β}
    (hl : Grammar.Heads (fun x => (x == c) = true) l)
    (hk : Grammar.Heads (fun x => (x == c) = false) k) (hthere : Reads l k (f true) R)
    (hmissing : Reads 1 k (f false) R) :
    Reads (Grammar.optional l) k (Parse.check c >>= f) R :=
  .add (.check false ((one_mul k).symm ▸ hk) hmissing) (.check true hl.mul hthere)

theorem string?_reads (hk : Grammar.Heads (fun x => (x == .string) = false) k) :
    Reads (Grammar.optional (Grammar.token .string)) k string? fun _ => True :=
  .optional (.token rfl) hk (.before (lit_reads (by decide) _) fun _ _ => .pure _) (.pure trivial)

/-- What starts with none of some kinds does not start with this one. -/
theorem heads_apart {cs : List TokenKind} (h : Grammar.Heads (· ∉ cs) l)
    {c : TokenKind} (hc : c ∈ cs) : Grammar.Heads (fun x => (x == c) = false) l :=
  h.imp fun _ hx => beq_false_of_ne fun heq => hx (heq ▸ hc)

theorem heads_subset {cs ds : List TokenKind} (h : Grammar.Heads (· ∉ cs) l) (hsub : ds ⊆ cs) :
    Grammar.Heads (· ∉ ds) l := h.imp fun _ hx hc => hx (hsub hc)

theorem endOfItem_reads (hk : Grammar.Heads (· ∉ [.punct .comma, .punct .semicolon]) k) :
    Reads Grammar.semicolon k endOfItem fun _ => True := by
  refine .add (.kind ((one_mul k).symm ▸ hk) fun c hc => ?_)
    (.kind (p := (· = .punct .semicolon)) (.mul (.token rfl)) fun c hc => ?_)
  · split
    · exact absurd (by simp) hc
    · exact absurd (by simp) hc
    · exact .pure trivial
  · subst hc
    exact .before (advance_reads (by decide)) fun _ _ => .pure _

/-! ### Loops -/

section Loops

variable {step : α → Parse (Option α)} {a : α}

/-- What a repetition answers with. -/
def Further (Q : α → Prop) (r : Option α) : Prop := ∃ b, r = some b ∧ Q b

theorem Reads.stop (h : Reads 1 k (step a) (· = none)) (ha : Q a) :
    Reads 1 k (iterate step a) Q := by
  intro s hs ts hts rest hrest htokens
  obtain ⟨hread, hnone⟩ := h s hs ts hts rest hrest htokens
  rw [iterate, show step a s = (none, (step a s).2) from Prod.ext hnone rfl]
  exact ⟨hread, ha⟩

/-- A repetition that takes a token is followed by others. -/
theorem Reads.again (hl : [] ∉ l) (h : Reads l (l' * k) (step a) (Further Q))
    (hrest : ∀ b, Q b → Reads l' k (iterate step b) Q) :
    Reads (l * l') k (iterate step a) Q := by
  intro s hs ts hts rest hrest' htokens
  obtain ⟨as, has, bs, hbs, rfl⟩ := Language.mem_mul.1 hts
  have hsplit : s.tokens = as ++ (bs ++ rest) := htokens.trans (List.append_assoc ..)
  obtain ⟨hread, b, hb, hq⟩ := h s hs as has _ (Language.append_mem_mul hbs hrest') hsplit
  have hlt : (step a s).2.left.length < s.left.length := by
    have hlength := congrArg List.length (hsplit.trans (congrArg (as ++ ·) hread.tokens.symm))
    have hpos : as.length ≠ 0 := fun h0 => hl (List.length_eq_zero_iff.1 h0 ▸ has)
    simp only [ParseState.tokens, List.length_append, List.length_map, List.length_cons] at hlength
    omega
  obtain ⟨hread', hq'⟩ := hrest b hq _ (hread.fit hs hsplit) bs hbs rest hrest' hread.tokens
  rw [iterate, show step a s = (some b, (step a s).2) from Prod.ext hb rfl]
  dsimp only
  rw [if_pos hlt]
  exact ⟨hread.trans hread', hq'⟩

/-- A loop reads its repetitions and what it does at the end. -/
theorem Reads.iterate (hl : [] ∉ l)
    (h : ∀ a, Q a → Reads l (l∗ * l' * k) (step a) (Further Q))
    (hend : ∀ a, Q a → Reads l' k (iterate step a) Q) (ha : Q a) :
    Reads (l∗ * l') k (Parse.iterate step a) Q := by
  have hpow (n : Nat) : ∀ a, Q a → Reads (l ^ n * l') k (Parse.iterate step a) Q := by
    induction n with
    | zero =>
      intro a ha
      rw [pow_zero, one_mul]
      exact hend a ha
    | succ n ih =>
      intro a ha
      rw [pow_succ', mul_assoc]
      refine .again hl ((h a ha).mono le_rfl ?_) ih
      exact mul_le_mul' (mul_le_mul' pow_le_kstar le_rfl) le_rfl
  intro s hs ts hts
  obtain ⟨as, has, bs, hbs, rfl⟩ := Language.mem_mul.1 hts
  rw [Language.kstar_eq_iSup_pow, Language.mem_iSup] at has
  obtain ⟨n, hn⟩ := has
  exact hpow n a ha s hs _ (Language.append_mem_mul hn hbs)

/-- A loop that ends by itself. -/
theorem Reads.repeat (hl : [] ∉ l) (h : ∀ a, Q a → Reads l (l∗ * k) (step a) (Further Q))
    (hend : ∀ a, Q a → Reads 1 k (step a) (· = none)) (ha : Q a) :
    Reads l∗ k (Parse.iterate step a) Q := by
  have hall : Reads (l∗ * 1) k (Parse.iterate step a) Q :=
    .iterate hl (fun a ha => by rw [mul_one]; exact h a ha) (fun a ha => .stop (hend a ha) ha) ha
  rwa [mul_one] at hall

end Loops

/-! ### Names and types -/

/-- All names are spelled like names. -/
def AllSpelled (names : List Ident) : Prop := ∀ i ∈ names, Spelled i.name

theorem identList_reads (hk : Grammar.Heads (fun x => (x == .punct .comma) = false) k) :
    Reads Grammar.identList k identList AllSpelled := by
  let Q (names : Array Ident) : Prop := AllSpelled names.toList
  have hfirst {i : Ident} (hi : Spelled i.name) : Q #[i] := by
    intro j hj
    rw [List.mem_singleton.1 hj]
    exact hi
  have hpush {names : Array Ident} {i : Ident} (hnames : Q names) (hi : Spelled i.name) :
      Q (names.push i) := by
    show AllSpelled (names.push i).toList
    rw [Array.toList_push]
    exact List.forall_mem_append.2 ⟨hnames, List.forall_mem_singleton.2 hi⟩
  have hcomma : Grammar.Heads (fun x => (x == .punct .comma) = true)
      (Grammar.mark .comma * Grammar.ident) := .mul (.token rfl)
  refine .bind ident_reads fun first hspelled => ?_
  rw [← mul_one (Grammar.mark .comma * Grammar.ident)∗]
  refine .bind (.repeat (not_empty hcomma) (fun names hnames => ?_) (fun names _ => ?_)
    (hfirst hspelled)) fun names hnames => .pure hnames
  · refine .check true hcomma.mul (.bind (advance_reads (by decide)) fun _ _ => ?_)
    rw [← mul_one Grammar.ident]
    exact .bind ident_reads fun i hi => .pure ⟨_, rfl, hpush hnames hi⟩
  · rw [one_mul]
    exact .check false ((one_mul k).symm ▸ hk) (.pure rfl)

theorem arraySize_reads :
    Reads (Grammar.token .int + Grammar.ident) k arraySize fun _ => True := by
  refine .add (.kind (p := (· = .int)) (.mul (.token rfl)) ?_)
    (.kind (p := (· = .ident)) (.mul (.token rfl)) ?_)
  · rintro _ rfl
    exact .before (lit_reads (by decide) _) fun _ _ => .pure _
  · rintro _ rfl
    exact .before ident_reads fun _ _ => .pure _

/-- A type is read if no period follows it. -/
theorem typeNested_reads (levels : Nat)
    (hk : Grammar.Heads (fun x => (x == .punct .period) = false) k) :
    Reads (Grammar.typeName levels) k (typeNested levels) fun _ => True := by
  induction levels generalizing k with
  | zero => exact .zero
  | succ n ih =>
    have hmark (p : Punct) (l : Language Token) (hp : p ≠ .period) :
        Grammar.Heads (fun x => (x == .punct .period) = false) (Grammar.mark p * l) :=
      .mul (.token (beq_false_of_ne fun h => hp (TokenKind.punct.inj h)))
    have hident : Grammar.Heads (fun x => (x == TokenKind.ident) = true) Grammar.ident := .token rfl
    -- behind the first word it is decided whether the name is qualified
    have hword {p : String → Prop} {l : Language Token}
        (hl : Grammar.Heads (fun x => (x == .punct .period) = false) (l * k))
        (h : ∀ i : Ident, p i.name → Reads l k _ fun _ => True) :
        Reads (Grammar.name p * l) k (typeNested (n + 1)) fun _ => True :=
      .check true (.mul (.mul (.name rfl)))
        (.bind (name_reads p) fun i hi => .check false hl (h i hi.1))
    have hmark_reads (p : Punct) {k : Language Token} :
        Reads (Grammar.mark p) k (expect (.punct p)) fun _ => True := expect_reads (by simp)
    refine .add (.add (.add (.add ?_ ?_) ?_) ?_) ?_
    · rw [mul_assoc]
      refine .check true hident.mul.mul (.bind ident_reads fun i _ => ?_)
      refine .check true (.mul (.mul (.token rfl))) ?_
      refine .bind (advance_reads (by decide)) fun _ _ => ?_
      exact .before ident_reads fun _ _ => .pure _
    · simp only [mul_assoc]
      refine hword (.mul (hmark .less _ (by decide))) fun i hi => ?_
      rw [show Builtin.ofName? i.name = some .map from hi ▸ rfl]
      refine .bind (hmark_reads .less) fun _ _ => ?_
      refine .bind (ih (.mul (hmark .comma _ (by decide)))) fun key _ => ?_
      refine .bind (hmark_reads .comma) fun _ _ => .bind (ih ?_) fun value _ => ?_
      · exact .mul (.token rfl)
      · exact .before (hmark_reads .greater) fun _ _ => .pure _
    · simp only [mul_assoc]
      refine hword (.mul (hmark .less _ (by decide))) fun i hi => ?_
      rw [show Builtin.ofName? i.name = some .array from hi ▸ rfl]
      refine .bind (hmark_reads .less) fun _ _ => ?_
      refine .bind (ih (.mul (hmark .comma _ (by decide)))) fun elem _ => ?_
      refine .bind (hmark_reads .comma) fun _ _ => .bind arraySize_reads fun size _ => ?_
      exact .before (hmark_reads .greater) fun _ _ => .pure _
    · simp only [mul_assoc]
      refine hword (.mul (hmark .less _ (by decide))) fun i hi => ?_
      rw [show Builtin.ofName? i.name = some .vector from hi ▸ rfl]
      refine .bind (hmark_reads .less) fun _ _ => .bind (ih ?_) fun elem _ => ?_
      · exact .mul (.token rfl)
      · exact .before (hmark_reads .greater) fun _ _ => .pure _
    · rw [← mul_one (Grammar.name (· ∉ Grammar.containers))]
      refine hword ((one_mul k).symm ▸ hk) fun i hi => ?_
      have hplain {b : Builtin} (hb : Builtin.ofName? i.name = some b) :
          b.name ∉ Grammar.containers := Builtin.name_of_ofName? hb ▸ hi
      rw [if_neg Bool.false_ne_true]
      split
      · exact .pure trivial
      · next hb => exact absurd (by decide) (hplain hb)
      · next hb => exact absurd (by decide) (hplain hb)
      · next hb => exact absurd (by decide) (hplain hb)
      · exact .pure trivial

theorem typeExpr_reads (hk : Grammar.Heads (fun x => (x == .punct .period) = false) k) :
    Reads (Grammar.typeName maxTypeNesting) k typeExpr fun _ => True := typeNested_reads _ hk

/-! ### Members of beans -/

theorem moreOptions_reads (options : Array Ident) :
    Reads (Grammar.keyword .required + Grammar.keyword .optional) k (moreOptions options)
      (Further fun _ => True) := by
  have hword {w : Keyword} {f : Token → Parse (Option (Array Ident))}
      (hf : ∀ t, ∃ i p, f t = newIdent i p >>= fun i => pure (some (options.push i))) :
      Reads (Grammar.keyword w) k (advance >>= f) (Further fun _ => True) := by
    rw [← mul_one (Grammar.keyword w)]
    refine .bind (advance_reads (by simp)) fun t _ => ?_
    obtain ⟨i, p, hf⟩ := hf t
    rw [hf]
    exact .behind (.of_silent (.newIdent _ _)) fun i => .pure ⟨_, rfl, trivial⟩
  refine .add (.kind (p := (· = .keyword .required)) (.mul (.token rfl)) ?_)
    (.kind (p := (· = .keyword .optional)) (.mul (.token rfl)) ?_)
  · rintro _ rfl
    exact hword fun t => ⟨_, _, rfl⟩
  · rintro _ rfl
    exact hword fun t => ⟨_, _, rfl⟩

theorem fieldOptions_reads
    (hk : Grammar.Heads (· ∉ [.keyword .required, .keyword .optional]) k) :
    Reads (Grammar.keyword .required + Grammar.keyword .optional)∗ k fieldOptions
      fun _ => True := by
  have hheads : Grammar.Heads (fun _ => True)
      (Grammar.keyword .required + Grammar.keyword .optional) :=
    .add (.token trivial) (.token trivial)
  refine .before (.repeat (Q := fun _ => True) (not_empty hheads)
    (fun options _ => moreOptions_reads options) (fun options _ => ?_) trivial) fun _ _ => .pure _
  refine .kind ((one_mul k).symm ▸ hk) fun c hc => ?_
  split
  · exact absurd (by simp) hc
  · exact absurd (by simp) hc
  · exact .pure rfl

theorem typeAndNames_reads (hk : Grammar.Heads (· ∉ [.punct .period, .punct .comma]) k) :
    Reads (Grammar.keyword .ext * Grammar.typeName maxTypeNesting +
      Grammar.typeName maxTypeNesting * Grammar.identList) k typeAndNames
        fun p => AllSpelled p.2 := by
  refine .add (.check true (.mul (.mul (.token rfl))) ?_) (.check false (.mul (.mul ?_)) ?_)
  · refine .bind (advance_reads (by decide)) fun _ _ => ?_
    rw [← mul_one (Grammar.typeName maxTypeNesting)]
    refine .bind (typeExpr_reads ((one_mul k).symm ▸ heads_apart hk (by simp))) fun t _ => .pure ?_
    exact fun i hi => nomatch hi
  · exact .typeName (by decide) _
  · refine .bind (typeExpr_reads (.mul (.mul (.token rfl)))) fun t _ => ?_
    rw [← mul_one Grammar.identList]
    refine .bind (identList_reads ((one_mul k).symm ▸ heads_apart hk (by simp))) fun names h => ?_
    exact .pure h

theorem field_reads (hk : Grammar.Heads
    (· ∉ [.punct .period, .punct .comma, .string, .punct .semicolon]) k) (scope : ScopeId)
    (i : Nat) : Reads (Grammar.fieldDecl maxTypeNesting) k (field scope i) fun _ => True := by
  have hnames : Grammar.Heads (· ∉ [.punct .period, .punct .comma])
      (Grammar.optional (Grammar.token .string) * (Grammar.semicolon * k)) :=
    .optional (.token (by decide)) (.optional (.token (by decide)) (heads_subset hk (by simp)))
  have hstring : Grammar.Heads (fun x => (x == .string) = false) (Grammar.semicolon * k) :=
    .optional (.token (by decide)) (heads_apart hk (by simp))
  have htype {l : Language Token} : Grammar.Heads (· ∉ [.keyword .required, .keyword .optional])
      ((Grammar.keyword .ext * Grammar.typeName maxTypeNesting +
        Grammar.typeName maxTypeNesting * Grammar.identList) * l) :=
    .mul (.add (.mul (.token (by decide))) (.mul (.typeName (by decide) _)))
  simp only [Grammar.fieldDecl, mul_assoc]
  refine .behind (.of_silent .takeLead) fun doc => .bind (fieldOptions_reads ?_) fun options _ => ?_
  · rw [mul_assoc]
    exact htype
  refine .bind (typeAndNames_reads ?_) fun p hp => .bind (string?_reads hstring) fun tag _ => ?_
  · rw [mul_assoc]
    exact hnames
  refine .before (endOfItem_reads (heads_subset hk (by simp))) fun _ _ => ?_
  refine (Idle.of_silent .trailing).bind fun comment => ?_
  refine (Idle.of_silent (.memberOrigin i)).bind fun origin => ?_
  exact (Idle.declareAll hp _ _ _ _).bind fun _ =>
    (Idle.of_silent (.resolveTypeExpr p.1)).bind fun _ => .pure _

theorem enumValue_reads : Reads (Grammar.token .int + Grammar.ident) k enumValue fun _ => True := by
  refine .add (.kind (p := (· = .int)) (.mul (.token rfl)) ?_)
    (.kind (p := (· = .ident)) (.mul (.token rfl)) ?_)
  · rintro _ rfl
    exact .before (lit_reads (by decide) _) fun _ _ => .pure _
  · rintro _ rfl
    exact .before ident_reads fun _ _ => .pure _

/-- A member of an enumeration is read with what its end is. -/
theorem enumerator_reads (hend : Reads l k endOfEnumerator fun _ => True) (scope : ScopeId)
    (i : Nat) : Reads (Grammar.enumSpec * l) k (enumerator scope i) fun _ => True := by
  simp only [Grammar.enumSpec, mul_assoc]
  refine .behind (.of_silent .takeLead) fun doc => .bind ident_reads fun name hname => ?_
  refine .bind (expect_reads (by decide)) fun _ _ => .bind enumValue_reads fun value _ => ?_
  refine .before hend fun _ _ => (Idle.of_silent .trailing).bind fun comment => ?_
  refine (Idle.of_silent (.memberOrigin i)).bind fun origin => ?_
  exact (Idle.declare hname _ _ _ _).bind fun _ => .pure _

theorem comma_reads : Reads (Grammar.mark .comma) k endOfEnumerator fun _ => True :=
  .check false (.mul (.token (by decide))) (expect_reads (by decide) |>.before fun _ _ => .pure _)

theorem noComma_reads (hk : Grammar.Heads (fun x => (x == .punct .rbrace) = true) k) :
    Reads 1 k endOfEnumerator fun _ => True :=
  .check true ((one_mul k).symm ▸ hk) (.pure trivial)

/-- A member that is there is a further one. -/
theorem moreMembers_reads {kind : BeanKind} {scope : ScopeId} {members : Array Member}
    {m : Parse Member} {p : TokenKind → Prop} (hl : Grammar.Heads p l)
    (hm : Reads l k m fun _ => True)
    (h : ∀ s, p s.current.token.kind →
      member? kind scope members.size s = (some <$> m : Parse (Option Member)) s) :
    Reads l k (moreMembers kind scope members) (Further fun _ => True) := by
  intro s hs ts hts rest hrest htokens
  obtain ⟨t, ht, hp⟩ := (hl.mul : Grammar.Heads p (l * k)) _ (Language.append_mem_mul hts hrest)
  have hcurrent : s.current.token = t := by
    rw [← htokens, s.tokens_cons] at ht
    exact Option.some.inj ht
  have hmore : moreMembers kind scope members s = (some (members.push (m s).1), (m s).2) := by
    show ((member? kind scope members.size s).1.map members.push,
      (member? kind scope members.size s).2) = _
    rw [h s (hcurrent ▸ hp)]
    rfl
  obtain ⟨hread, -⟩ := hm s hs ts hts rest hrest htokens
  rw [hmore]
  exact ⟨hread, _, rfl, trivial⟩

/-- Where the body of a bean ends, there is no further member. -/
theorem moreMembers_stop {kind : BeanKind} {scope : ScopeId} {members : Array Member}
    (hk : Grammar.Heads (· = .punct .rbrace) k) :
    Reads 1 k (moreMembers kind scope members) (· = none) := by
  have hmember : Reads 1 k (member? kind scope members.size) (· = none) := by
    refine .look ((one_mul k).symm ▸ hk) fun s hs => ?_
    rw [hs]
    cases kind <;> exact .pure rfl
  rw [← mul_one (1 : Language Token)]
  refine .bind ((one_mul k).symm ▸ hmember) fun r hr => .pure ?_
  rw [hr]
  rfl

/-- The kinds of token that a field starts with. -/
def startsField (c : TokenKind) : Prop :=
  c = .ident ∨ c = .keyword .ext ∨ c = .keyword .required ∨ c = .keyword .optional

theorem fieldDecl_heads : Grammar.Heads startsField (Grammar.fieldDecl maxTypeNesting) := by
  simp only [Grammar.fieldDecl, mul_assoc]
  refine .star (.add (.token (.inr (.inr (.inl rfl)))) (.token (.inr (.inr (.inr rfl))))) ?_
  exact .mul (.add (.mul (.token (.inr (.inl rfl)))) (.mul (.typeName (.inl rfl) _)))

/-- The fields of a struct or a protocol are read up to its brace. -/
theorem fields_reads {kind : BeanKind} (hkind : kind = .struct ∨ kind = .protocol)
    (hk : Grammar.Heads (· = .punct .rbrace) k) (scope : ScopeId) :
    Reads (Grammar.fieldDecl maxTypeNesting)∗ k (iterate (moreMembers kind scope) #[])
      fun _ => True := by
  refine .repeat (not_empty fieldDecl_heads) (fun members _ => ?_) (fun _ _ => moreMembers_stop hk)
    trivial
  have hnext : Grammar.Heads (· ∉ [.punct .period, .punct .comma, .string, .punct .semicolon])
      ((Grammar.fieldDecl maxTypeNesting)∗ * k) := by
    refine .star (fieldDecl_heads.imp ?_) (hk.imp ?_)
    · rintro _ (rfl | rfl | rfl | rfl) <;> decide
    · rintro _ rfl
      decide
  refine moreMembers_reads fieldDecl_heads (field_reads hnext scope members.size) fun s hs => ?_
  unfold member? startsField at *
  rw [bind_apply]
  rcases hkind with rfl | rfl <;> rcases hs with hs | hs | hs | hs <;>
    (simp only [current, hs])

/-- The members of an enumeration are read up to its brace. -/
theorem enumerators_reads (hk : Grammar.Heads (· = .punct .rbrace) k) (scope : ScopeId) :
    Reads Grammar.enumBody k (iterate (moreMembers .enum scope) #[]) fun _ => True := by
  have hspec {l : Language Token} : Grammar.Heads (· = .ident) (Grammar.enumSpec * l) := by
    simp only [Grammar.enumSpec, mul_assoc]
    exact .mul (.token rfl)
  have hmember (members : Array Member) {l k : Language Token}
      (hend : Reads l k endOfEnumerator fun _ => True) :
      Reads (Grammar.enumSpec * l) k (moreMembers .enum scope members) (Further fun _ => True) := by
    refine moreMembers_reads hspec (enumerator_reads hend scope members.size) fun s hs => ?_
    simp only [member?, bind_apply, current, hs]
  refine .iterate (not_empty hspec) (fun members _ => hmember members comma_reads) (fun members _ => ?_)
    trivial
  refine .add (.stop (moreMembers_stop hk) trivial) ?_
  have hlast := hmember members (noComma_reads (hk.imp fun _ h => beq_iff_eq.2 h))
  rw [mul_one] at hlast
  rw [← mul_one Grammar.enumSpec]
  refine .again (not_empty (mul_one Grammar.enumSpec ▸ hspec)) ((one_mul k).symm ▸ hlast) ?_
  intro members _
  exact .stop (moreMembers_stop hk) trivial

/-- Looking at the state and changing what else it knows. -/
theorem Reads.getSet {f : ParseState → PUnit → Parse β} (update : ParseState → ParseState)
    (hleft : ∀ s, (update s).left = s.left) (heof : ∀ s, (update s).eof = s.eof)
    (hdiagnostics : ∀ s, (update s).diagnostics = s.diagnostics)
    (hf : ∀ s, Reads l k (f s ⟨⟩) R) :
    Reads l k (get >>= fun s => set (update s) >>= f s) R := by
  intro s hs ts hts rest hrest htokens
  have hsame : (update s).tokens = s.tokens := by
    rw [ParseState.tokens, hleft, heof, ParseState.tokens]
  have hread : s.Reached (update s) s.tokens :=
    ⟨heof s, hsame, #[], by rw [hdiagnostics, Array.append_empty], by simp⟩
  obtain ⟨h, hr⟩ := hf s (update s) (hread.fit hs (List.nil_append _).symm) ts hts rest hrest
    (hsame.trans htokens)
  exact ⟨hread.trans h, hr⟩

/-- A bean is read if its members are. -/
theorem bean_reads {kind : BeanKind} {w : Keyword} {body : Language Token}
    (hbody : ∀ scope k, Grammar.Heads (· = .punct .rbrace) k →
      Reads body k (iterate (moreMembers kind scope) #[]) fun _ => True) :
    Reads (Grammar.bean w body) k (bean kind) fun _ => True := by
  simp only [Grammar.bean, mul_assoc]
  refine .behind (.of_silent .takeLead) fun doc => .bind (advance_reads (by simp)) fun _ _ => ?_
  refine .bind ident_reads fun name hname => .bind (string?_reads ?_) fun tag _ => ?_
  · exact .mul (.mul (.token (by decide)))
  refine .getSet (fun s => { s with symbols := (s.symbols.newScope (some s.fileScope)).2 })
    (fun _ => rfl) (fun _ => rfl) (fun _ => rfl) fun s => ?_
  refine .bind (expect_reads (by decide)) fun opening _ => ?_
  refine .bind (hbody _ _ (.mul (.token rfl))) fun members _ => ?_
  refine .before (expect_reads (by decide)) fun closing _ => fun s => ?_
  exact ((Idle.declare hname _ _ _ _).bind fun _ => .pure _ : Idle _) s

/-! ### Groups of specifications -/

/-- Before the end of the file there is more. -/
theorem Reads.atEnd_false {f : Bool → Parse β} (h : Grammar.Heads (· ≠ .eof) (l * k))
    (hf : Reads l k (f false) R) : Reads l k (atEnd >>= f) R := by
  intro s hs ts hts rest hrest htokens
  obtain ⟨t, ht, hp⟩ := h _ (Language.append_mem_mul hts hrest)
  rw [← htokens, s.tokens_cons] at ht
  obtain ⟨left, hleft⟩ := left_of_ne_eof hs.eof (Option.some.inj ht ▸ hp)
  have hmore : s.left.isEmpty = false := by rw [hleft]; rfl
  show s.Reached (f s.left.isEmpty s).2 rest ∧ R (f s.left.isEmpty s).1
  rw [hmore]
  exact hf s hs ts hts rest hrest htokens

section Groups

variable {spec : Option CommentGroup → Nat → β → Parse (α × β)}

/-- A specification that is read is a further one of its group. -/
theorem moreSpecs_reads {sofar : Array α × β}
    (hl : Grammar.Heads (· ∉ [.punct .rparen, .eof]) l)
    (hspec : ∀ doc i b, Reads l k (spec doc i b) fun _ => True) :
    Reads l k (moreSpecs spec sofar) (Further fun _ => True) := by
  refine .check false (heads_apart hl (by simp)).mul ?_
  refine .atEnd_false (hl.mul.imp fun _ h heq => h (by simp [heq])) ?_
  intro s hs ts hts rest hrest htokens
  obtain ⟨hread, -⟩ := hspec s.lead sofar.1.size sofar.2 { s with lead := none }
    ⟨hs.eof, hs.spelled⟩ ts hts rest hrest htokens
  let r := spec s.lead sofar.1.size sofar.2 { s with lead := none }
  have hsplit : s.tokens = ts ++ r.2.tokens := htokens.trans (congrArg (ts ++ ·) hread.tokens.symm)
  have hlength : r.2.left.length ≠ s.left.length := by
    have hlength := congrArg List.length hsplit
    have hpos : ts.length ≠ 0 := fun h0 => not_empty hl (List.length_eq_zero_iff.1 h0 ▸ hts)
    simp only [ParseState.tokens, List.length_append, List.length_map, List.length_cons] at hlength
    omega
  let answer := some (sofar.1.push r.1.1, r.1.2)
  have hstep : (if r.2.left.length = s.left.length then advance >>= fun _ => pure answer
      else pure answer : Parse (Option (Array α × β))) r.2 = (answer, r.2) :=
    congrFun (if_neg hlength) r.2
  have hdone : s.Reached (answer, r.2).2 rest ∧ Further (fun _ => True) (answer, r.2).1 :=
    ⟨⟨hread.eof, hread.tokens, hread.reports⟩, _, rfl, trivial⟩
  rw [← hstep] at hdone
  exact hdone

theorem specGroup_reads {w : Keyword} {start : β}
    (hl : Grammar.Heads (· ∉ [.punct .lparen, .punct .rparen, .eof]) l)
    (hone : ∀ doc i b, Reads l k (spec doc i b) fun _ => True)
    (hmore : ∀ doc i b, Reads l (l∗ * (Grammar.mark .rparen * k)) (spec doc i b) fun _ => True) :
    Reads (Grammar.group w l) k (specGroup spec start) fun _ => True := by
  refine .behind (.of_silent .takeLead) fun doc => .bind (advance_reads (by simp)) fun _ _ => ?_
  refine .add (.check false (heads_apart hl (by simp)).mul ?_) ?_
  · exact .before (hone none 0 start) fun _ _ => .pure _
  rw [mul_assoc]
  refine .check true (.mul (.mul (.token rfl))) (.bind (advance_reads (by decide)) fun _ _ => ?_)
  refine .bind (.repeat (Q := fun _ => True) (not_empty hl) (fun sofar _ => ?_) (fun sofar _ => ?_)
    trivial) fun specs _ => .before (expect_reads (by decide)) fun _ _ => .pure _
  · exact moreSpecs_reads (heads_subset hl (by simp)) hmore
  · have hclosing : Grammar.Heads (fun x => (x == .punct .rparen) = true)
        (1 * (Grammar.mark .rparen * k)) := by
      rw [one_mul]
      exact token_heads _
    exact .check true hclosing (.look hclosing fun _ _ => .pure rfl)

end Groups

theorem importName_reads (hk : Grammar.Heads (· ∉ [.punct .period, .ident]) k) :
    Reads (Grammar.optional (Grammar.mark .period + Grammar.ident)) k importName fun _ => True := by
  refine .add (.kind ((one_mul k).symm ▸ hk) fun c hc => ?_) (.add ?_ ?_)
  · split
    · exact absurd (by simp) hc
    · exact absurd (by simp) hc
    · exact .pure trivial
  · refine .kind (p := (· = .punct .period)) (.mul (.token rfl)) ?_
    rintro _ rfl
    refine .before (advance_reads (by decide)) fun t _ => ?_
    exact (Idle.of_silent (.newIdent _ _)).bind fun _ => .pure _
  · refine .kind (p := (· = .ident)) (.mul (.token rfl)) ?_
    rintro _ rfl
    exact .before ident_reads fun _ _ => .pure _

theorem importPath_reads : Reads (Grammar.token .string) k importPath fun _ => True := by
  refine .look (p := (· = .string)) (.mul (.token rfl)) fun s hs => ?_
  dsimp only
  rw [if_pos hs]
  refine .before (lit_reads (by decide) _) fun path _ => ?_
  have hreport := Idle.report
    (Diagnostic.isSyntaxError_of_words "invalid import path: " path.text s.current.token.span
      (by decide) (by decide))
  split
  · exact hreport.bind fun _ => .pure _
  · exact .pure _

theorem importSpec_reads (hk : Grammar.Heads (· ∉ [.punct .comma, .punct .semicolon]) k)
    (doc : Option CommentGroup) (i : Nat) (b : Unit) :
    Reads Grammar.importSpec k (importSpec doc i b) fun _ => True := by
  simp only [Grammar.importSpec, mul_assoc]
  refine .bind (importName_reads (.mul (.mul (.token (by decide))))) fun name _ => ?_
  refine .bind importPath_reads fun path _ => .before (endOfItem_reads hk) fun _ _ => ?_
  exact (Idle.of_silent .trailing).bind fun _ => .pure _

theorem constValue_reads : Reads
    (Grammar.token .int + Grammar.token .float + Grammar.token .string + Grammar.ident) k constValue
      fun _ => True := by
  refine .add (.add (.add (.kind (p := (· = .int)) (.mul (.token rfl)) ?_)
    (.kind (p := (· = .float)) (.mul (.token rfl)) ?_))
    (.kind (p := (· = .string)) (.mul (.token rfl)) ?_))
    (.kind (p := (· = .ident)) (.mul (.token rfl)) ?_)
  · rintro _ rfl
    exact .before (lit_reads (by decide) _) fun _ _ => .pure _
  · rintro _ rfl
    exact .before (lit_reads (by decide) _) fun _ _ => .pure _
  · rintro _ rfl
    exact .before (lit_reads (by decide) _) fun _ _ => .pure _
  · rintro _ rfl
    exact .before ident_reads fun i _ => (Idle.of_silent (.resolveIdent i)).bind fun _ => .pure _

theorem ownValue_reads (hk : Grammar.Heads (fun x => (x == .punct .assign) = false) k) :
    Reads (Grammar.optional (Grammar.mark .assign *
      (Grammar.token .int + Grammar.token .float + Grammar.token .string + Grammar.ident))) k
        ownValue fun _ => True := by
  refine .optional (.mul (.token rfl)) hk (.bind (advance_reads (by decide)) fun _ _ => ?_)
    (.pure trivial)
  exact .before constValue_reads fun _ _ => .pure _

theorem constSpec_reads
    (hk : Grammar.Heads (· ∉ [.punct .assign, .punct .comma, .punct .semicolon]) k)
    (doc : Option CommentGroup) (i : Nat) (previous : Option Value) :
    Reads Grammar.constSpec k (constSpec doc i previous) fun _ => True := by
  simp only [Grammar.constSpec, mul_assoc]
  refine .bind ident_reads fun name hname => .bind (ownValue_reads ?_) fun own _ => ?_
  · exact .optional (.token (by decide)) (heads_apart hk (by simp))
  refine .before (endOfItem_reads (heads_subset hk (by simp))) fun _ _ => ?_
  refine (Idle.of_silent .trailing).bind fun comment => ?_
  refine Idle.bind ?_ fun _ => ?_
  · have hmissing : (Diagnostic.error "missing constant value" name.span).isSyntaxError = false :=
      Diagnostic.isSyntaxError_eq_false _ (by decide)
    unfold requireValue
    split
    · exact .report hmissing
    · exact .pure _
  · intro s
    exact ((Idle.declare hname _ _ _ _).bind fun _ => .pure _ : Idle _) s

/-! ### Declarations -/

/-- The kinds of token that what follows an import may start with. -/
def afterImport : List Keyword := [.imp, .const, .struct, .protocol, .enum]

/-- A declaration starts with a keyword; what follows is another one, or the end of the file. -/
def startsNext (c : TokenKind) : Prop := c = .eof ∨ ∃ w ∈ afterImport, c = .keyword w

theorem startsNext.apart {cs : List TokenKind} (h : ∀ c ∈ cs, c ≠ .eof ∧ c.isKeyword = false)
    (hk : Grammar.Heads startsNext k) : Grammar.Heads (· ∉ cs) k := by
  refine hk.imp ?_
  rintro c (rfl | ⟨w, -, rfl⟩) hc
  · exact (h _ hc).1 rfl
  · exact absurd (h _ hc).2 (by simp [TokenKind.isKeyword])

theorem imports_reads (hk : Grammar.Heads startsNext k) :
    Reads (Grammar.group .imp Grammar.importSpec) k (Decl.imports <$> specGroup importSpec ())
      fun _ => True := by
  have hheads {cs : List TokenKind} (h : ∀ c ∈ [.punct .period, .ident, .string], c ∉ cs) :
      Grammar.Heads (· ∉ cs) Grammar.importSpec := by
    refine .mul (.optional (.add (.token (h _ ?_)) (.token (h _ ?_))) (.token (h _ ?_))) <;> simp
  have hmore : Grammar.Heads (· ∉ [.punct .comma, .punct .semicolon])
      (Grammar.importSpec∗ * (Grammar.mark .rparen * k)) :=
    .star (hheads (by decide)) (.mul (.token (by decide)))
  have hgroup : Reads (Grammar.group .imp Grammar.importSpec) k (specGroup importSpec ())
      fun _ => True :=
    specGroup_reads (hheads (by decide)) (importSpec_reads (startsNext.apart (by decide) hk))
      (importSpec_reads hmore)
  exact hgroup

theorem consts_reads (hk : Grammar.Heads startsNext k) :
    Reads (Grammar.group .const Grammar.constSpec) k (specGroup constSpec none) fun _ => True := by
  have hheads {cs : List TokenKind} (h : .ident ∉ cs) :
      Grammar.Heads (· ∉ cs) Grammar.constSpec := .mul (.mul (.token h))
  have hmore : Grammar.Heads (· ∉ [.punct .assign, .punct .comma, .punct .semicolon])
      (Grammar.constSpec∗ * (Grammar.mark .rparen * k)) :=
    .star (hheads (by decide)) (.mul (.token (by decide)))
  exact specGroup_reads (hheads (by decide)) (constSpec_reads (startsNext.apart (by decide) hk))
    (constSpec_reads hmore)

theorem decl_reads (hk : Grammar.Heads startsNext k) :
    Reads (Grammar.dataDecl maxTypeNesting) k decl fun _ => True := by
  have hkind {w : Keyword} {l : Language Token} {f : TokenKind → Parse Decl}
      (h : Reads (Grammar.keyword w * l) k (f (.keyword w)) fun _ => True) :
      Reads (Grammar.keyword w * l) k (Parse.kind >>= f) fun _ => True :=
    .kind (p := (· = .keyword w)) (.mul (.mul (.token rfl))) fun c hc => hc ▸ h
  have hbean {kind : BeanKind} {w : Keyword} {body : Language Token} {f : TokenKind → Parse Decl}
      (hf : f (.keyword w) = bean kind >>= fun b => pure (.bean b))
      (hbody : ∀ scope k, Grammar.Heads (· = .punct .rbrace) k →
        Reads body k (iterate (moreMembers kind scope) #[]) fun _ => True) :
      Reads (Grammar.bean w body) k (Parse.kind >>= f) fun _ => True := by
    have h : Reads (Grammar.bean w body) k (f (.keyword w)) fun _ => True := by
      rw [hf]
      exact .before (bean_reads hbody) fun _ _ => .pure _
    simp only [Grammar.bean, mul_assoc] at h ⊢
    exact hkind h
  refine .add (.add (.add ?_ ?_) ?_) ?_
  · exact hkind (.before (consts_reads hk) fun _ _ => .pure _)
  · exact hbean rfl fun scope k hk => fields_reads (.inl rfl) hk scope
  · exact hbean rfl fun scope k hk => fields_reads (.inr rfl) hk scope
  · exact hbean rfl fun scope k hk => enumerators_reads hk scope

/-! ### Files -/

/-- A declaration where there are more is a further one. -/
theorem moreDecls_reads {more : Parse Bool} {one : Parse Decl} {decls : Array Decl}
    (hmore : ∀ f : Bool → Parse (Option (Array Decl)), Reads l k (f true) (Further fun _ => True) →
      Reads l k (more >>= f) (Further fun _ => True))
    (hone : Reads l k one fun _ => True) :
    Reads l k (moreDecls more one decls) (Further fun _ => True) := by
  refine hmore _ (.behind (.of_silent ⟨fun _ => rfl, fun _ => rfl, fun _ => rfl⟩) fun _ => ?_)
  rw [← mul_one l]
  exact .bind ((one_mul k).symm ▸ hone) fun d _ => .pure ⟨_, rfl, trivial⟩

/-- The end of the file is the last token. -/
theorem Reads.atEnd_true {f : Bool → Parse β} (hf : Reads 1 (Grammar.token .eof) (f true) R) :
    Reads 1 (Grammar.token .eof) (atEnd >>= f) R := by
  intro s hs ts hts rest hrest htokens
  obtain rfl : ts = [] := hts
  have hnone : s.left.isEmpty = true := by
    obtain ⟨t, -, rfl⟩ := hrest
    have hlength := congrArg List.length htokens
    simp only [ParseState.tokens, List.length_append, List.length_map, List.length_cons,
      List.length_nil] at hlength
    exact List.isEmpty_iff.2 (List.length_eq_zero_iff.1 (by omega))
  show s.Reached (f s.left.isEmpty s).2 rest ∧ R (f s.left.isEmpty s).1
  rw [hnone]
  exact hf s hs [] Language.nil_mem_one rest hrest htokens

theorem packageName_reads : Reads Grammar.ident k packageName fun _ => True := by
  refine .look (p := fun _ => True) (.mul (.token trivial)) fun s _ => ?_
  refine .before ident_reads fun name _ => ?_
  have hblank : (Diagnostic.error "invalid package name _" name.span).isSyntaxError = false :=
    Diagnostic.isSyntaxError_eq_false _ (by decide)
  dsimp only
  split
  · exact (Idle.report hblank).bind fun _ => .pure _
  · exact .pure _

/-- A sentence is read to the end of the file. -/
theorem file_reads (comments : List CommentGroup) :
    Reads (Grammar.keyword .pkg * (Grammar.ident * (Grammar.semicolon *
      ((Grammar.group .imp Grammar.importSpec)∗ * (Grammar.dataDecl maxTypeNesting)∗))))
        (Grammar.token .eof) (Parse.file comments) fun _ => True := by
  have hdecl : Grammar.Heads (fun c => ∃ w ∈ [Keyword.const, .struct, .protocol, .enum],
      c = .keyword w) (Grammar.dataDecl maxTypeNesting) := by
    refine .add (.add (.add ?_ (.mul (.mul (.mul (.mul (.mul (.token ?_)))))))
      (.mul (.mul (.mul (.mul (.mul (.token ?_))))))) (.mul (.mul (.mul (.mul (.mul (.token ?_))))))
    · exact .mul (.token ⟨_, by simp, rfl⟩)
    all_goals exact ⟨_, by simp, rfl⟩
  have hdecls : Grammar.Heads (fun c => c = .eof ∨ ∃ w ∈ [Keyword.const, .struct, .protocol, .enum],
      c = .keyword w) ((Grammar.dataDecl maxTypeNesting)∗ * Grammar.token .eof) :=
    .star (hdecl.imp fun _ => .inr) (.token (.inl rfl))
  have hnext : Grammar.Heads startsNext
      ((Grammar.dataDecl maxTypeNesting)∗ * Grammar.token .eof) :=
    hdecls.imp fun c hc => hc.imp_right fun ⟨w, hw, h⟩ => ⟨w, List.mem_cons_of_mem _ hw, h⟩
  have himport : Grammar.Heads (· = .keyword .imp) (Grammar.group .imp Grammar.importSpec) :=
    .mul (.token rfl)
  have himports : Grammar.Heads startsNext ((Grammar.group .imp Grammar.importSpec)∗ *
      ((Grammar.dataDecl maxTypeNesting)∗ * Grammar.token .eof)) :=
    .star (himport.imp fun _ h => .inr ⟨.imp, by simp [afterImport], h⟩) hnext
  refine .behind (.of_silent .takeLead) fun doc => .bind (expect_reads (by decide)) fun _ _ => ?_
  refine .bind packageName_reads fun name _ => .bind (endOfItem_reads ?_) fun _ _ => ?_
  · rw [mul_assoc]
    exact startsNext.apart (by decide) himports
  refine .bind (.repeat (Q := fun _ => True) (not_empty himport) (fun decls _ => ?_)
    (fun decls _ => ?_) trivial) fun imports _ => ?_
  · refine moreDecls_reads (fun f hf => .check true ?_ hf) (imports_reads himports)
    exact himport.mul.imp fun c hc => beq_iff_eq.2 hc
  · refine .check false ?_ (.pure rfl)
    rw [one_mul]
    refine hdecls.imp ?_
    rintro c (rfl | ⟨w, hw, rfl⟩)
    · decide
    · refine beq_false_of_ne fun h => ?_
      rw [TokenKind.keyword.inj h] at hw
      simp at hw
  refine .before (.repeat (Q := fun _ => True) (not_empty hdecl) (fun decls _ => ?_)
    (fun decls _ => ?_) trivial) fun decls _ => ?_
  · have hmore {l : Language Token} : Grammar.Heads (· ≠ .eof)
        (Grammar.dataDecl maxTypeNesting * l) := by
      refine hdecl.mul.imp ?_
      rintro c ⟨w, -, rfl⟩
      simp
    exact moreDecls_reads (fun f hf => Reads.atEnd_false (f := fun b => f !b) hmore hf)
      (decl_reads hnext)
  · exact Reads.atEnd_true (f := fun b => if !b then _ else pure none) (.pure rfl)
  · exact (Idle.of_silent .settlePending).bind fun _ => fun s => .refl s

end Parse

/-! ### Sources -/

/-- The tokens of a text that are neither comments nor illegal, the end of the file last. -/
def significantTokens (base : Pos) (text : String) : List Token :=
  (scanSource base text).allTokens.filter fun t => t.kind ≠ .illegal ∧ t.kind ≠ .comment

/-- The parser accepts its grammar.  A source about which it reports nothing, besides what is wrong
with its tokens, is a sentence of the grammar; and a sentence without services, in which types nest
no deeper than the parser allows, is read without a syntax error. -/
theorem parseFile_accepts (s : Source) {files : FileSet} (symbols : SymbolTable)
    (h : files.Admits s) : ∃ r, parseFile files symbols s.name s.text = .ok r ∧
      (r.diagnostics = (scanSource files.next s.text).errors.map (·.toDiagnostic) →
        significantTokens files.next s.text ∈ Grammar.file
          (Grammar.dataDecl maxTypeNesting + Grammar.serviceDecl maxTypeNesting)) ∧
      (significantTokens files.next s.text ∈ Grammar.file (Grammar.dataDecl maxTypeNesting) →
        ∀ d ∈ r.diagnostics, d.isSyntaxError = false) := by
  obtain ⟨r, groups, start, hr, hparsed⟩ :=
    parseFile_parsed files symbols s.name s.text h.begun h.room
  have htokens : start.tokens = significantTokens files.next s.text := hparsed.tokens
  refine ⟨r, hr, fun hquiet => ?_, fun hsentence d hd => ?_⟩
  · rw [← htokens]
    refine Parse.file_accepts groups hparsed.ready ?_
    have hnone := hparsed.reported.symm.trans hquiet
    rw [hparsed.diagnostics]
    exact Array.toList_eq_nil_iff.1 (List.append_right_eq_self.1 hnone)
  · rw [← htokens] at hsentence
    obtain ⟨ts, hts, rest, hrest, hsplit⟩ := Language.mem_mul.1 hsentence
    have hfile : ts ∈ Grammar.keyword .pkg * (Grammar.ident * (Grammar.semicolon *
        ((Grammar.group .imp Grammar.importSpec)∗ * (Grammar.dataDecl maxTypeNesting)∗))) := by
      simpa only [mul_assoc] using hts
    obtain ⟨hread, -⟩ := Parse.file_reads groups start hparsed.ready.fit ts hfile rest hrest
      hsplit.symm
    obtain ⟨new, hnew, hclean⟩ := hread.reports
    rw [hparsed.reported, List.mem_append] at hd
    rcases hd with hd | hd
    · obtain ⟨e, -, rfl⟩ := List.mem_map.1 hd
      exact e.isSyntaxError
    · rw [hnew, hparsed.diagnostics, Array.empty_append, Array.mem_toList_iff] at hd
      exact hclean d hd

/-- A source with a service, about which nothing is reported, is a sentence; and a sentence with the
blank name for a package, which is reported, is read without a syntax error. -/
theorem parseFile_accepts_sentences :
    let service : Source :=
      ⟨"a", "package p service S \x7b f(map<int32, b.T> x, y) z;\n g() // two methods\n \x7d"⟩
    let blank : Source := ⟨"b", "package _"⟩
    FileSet.Admits {} service ∧ FileSet.Admits {} blank ∧
      significantTokens 1 service.text ∈ Grammar.file
        (Grammar.dataDecl maxTypeNesting + Grammar.serviceDecl maxTypeNesting) ∧
      significantTokens 1 blank.text ∈ Grammar.file (Grammar.dataDecl maxTypeNesting) ∧
      ∃ r, parseFile {} {} blank.name blank.text = .ok r ∧ r.diagnostics ≠ [] ∧
        ∀ d ∈ r.diagnostics, d.isSyntaxError = false := by
  intro service blank
  have hservice : FileSet.Admits {} service := ⟨by decide, by decide +kernel⟩
  have hblank : FileSet.Admits {} blank := ⟨by decide, by decide +kernel⟩
  obtain ⟨r, hr, haccepts, -⟩ := parseFile_accepts service {} hservice
  have hquiet : (parseFile {} {} service.name service.text).toOption.map (·.diagnostics) =
      some ((scanSource 1 service.text).errors.map (·.toDiagnostic)) := by decide +kernel
  rw [hr] at hquiet
  have htokens : significantTokens 1 blank.text = [⟨.keyword .pkg, "package", ⟨1, 8⟩⟩] ++
      [⟨.ident, "_", ⟨9, 10⟩⟩] ++ [] ++ [] ++ [] ++ [⟨.eof, "", ⟨10, 10⟩⟩] := by decide +kernel
  have hsentence : significantTokens 1 blank.text ∈
      Grammar.file (Grammar.dataDecl maxTypeNesting) := by
    rw [htokens]
    have hkeyword {k : TokenKind} {text : String} {span : Span} :
        [⟨k, text, span⟩] ∈ Grammar.token k := ⟨_, rfl, rfl⟩
    exact Language.append_mem_mul (Language.append_mem_mul (Language.append_mem_mul
      (Language.append_mem_mul (Language.append_mem_mul hkeyword hkeyword) (.inl rfl))
        (Language.nil_mem_kstar _)) (Language.nil_mem_kstar _)) hkeyword
  obtain ⟨r', hr', -, hclean⟩ := parseFile_accepts blank {} hblank
  have hreported : (parseFile {} {} blank.name blank.text).toOption.map (·.diagnostics.length) =
      some 1 := by decide +kernel
  rw [hr'] at hreported
  refine ⟨hservice, hblank, haccepts (Option.some.inj hquiet), hsentence, r', hr', fun hnil => ?_,
    hclean hsentence⟩
  have hlength : r'.diagnostics.length = 1 := Option.some.inj hreported
  rw [hnil] at hlength
  cases hlength

end Idl
