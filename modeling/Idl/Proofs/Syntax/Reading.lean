/-
Idl/Proofs/Syntax/Reading.lean

Reading words one by one.

Where all words in front of the parser are known, so is every decision: `Parse.Consumes` says that a
rule takes certain words in front of others, with an answer that has a property, and reports
nothing.  That a name is not declared twice needs the names that are declared meanwhile, so these
are part of it, and the names of two rules in a sequence have to be different ones.

The rules for sequences, looks and loops come first, and then those for tokens and names.
-/
import Idl.Proofs.Scopes
import Idl.Proofs.Syntax.Words

namespace Idl

/-! ### Words in front -/

/-- The kind of the first word, where the end of the file is behind the words. -/
def headKind (ws : List Word) : TokenKind := (ws.head?.map (·.kind)).getD .eof

theorem cons_of_headKind {ws : List Word} (h : headKind ws ≠ .eof) : ∃ w us, ws = w :: us :=
  List.exists_cons_of_ne_nil fun hnil => h (hnil ▸ rfl)

namespace ParseState

variable {s t u : ParseState} {w : Word} {ws rest : List Word}

theorem Holds.kind (h : s.Holds ws) : s.current.token.kind = headKind ws := by
  rw [← h.words]
  unfold current
  cases s.left with
  | nil => exact h.eof
  | cons t left => rfl

theorem Holds.nextKind (h : s.Holds (w :: ws)) :
    (s.left.tail.headD s.eof).token.kind = headKind ws := by
  obtain ⟨t, left, hleft, rfl, rfl⟩ := List.map_eq_cons_iff.1 h.words
  rw [hleft]
  cases left with
  | nil => exact h.eof
  | cons u left => rfl

theorem Holds.current (h : s.Holds (w :: ws)) : s.current.token.word s.file = w := by
  obtain ⟨t, left, hleft, rfl, rfl⟩ := List.map_eq_cons_iff.1 h.words
  unfold ParseState.current
  rw [hleft]
  rfl

theorem Holds.trailing (h : s.Holds ws) : s.current.trailing = none := by
  refine (h.bare _ ?_).2
  unfold ParseState.current
  cases s.left with
  | nil => exact List.mem_cons_self
  | cons t left => exact List.mem_cons_self

/-- The first word can be taken. -/
theorem Holds.take (h : s.Holds (w :: ws)) :
    ∃ left, s.left = s.current :: left ∧ (s.took left).Holds ws := by
  obtain ⟨t, left, hleft, rfl, rfl⟩ := List.map_eq_cons_iff.1 h.words
  have hcurrent : s.current = t := by
    unfold ParseState.current
    rw [hleft]
    rfl
  have hbare : ∀ x ∈ left ++ [s.eof], x.lead = none ∧ x.trailing = none := fun x hx =>
    h.bare x (by rw [hleft]; exact List.mem_cons_of_mem t hx)
  refine ⟨left, hcurrent ▸ hleft, rfl, h.eof, ?_, hbare⟩
  show (left.headD s.eof).lead = none
  refine (hbare _ ?_).1
  cases left with
  | nil => exact List.mem_cons_self
  | cons x left => exact List.mem_cons_self

/-! ### Names that are declared -/

/-- None of the names is taken in its scope, and no name occurs twice. -/
structure Free (names : List (ScopeId × String)) (s : ParseState) : Prop where
  apart : names.Nodup
  free : ∀ x ∈ names, s.symbols.lookup? x.1 x.2 = none

/-- Between two states, nothing was reported, and no scope got other names than these. -/
structure Quiet (names : List (ScopeId × String)) (s t : ParseState) : Prop where
  file : t.file = s.file
  fileScope : t.fileScope = s.fileScope
  diagnostics : t.diagnostics = s.diagnostics
  scopes : t.symbols.scopes.size = s.symbols.scopes.size
  lookup : ∀ i name, (i, name) ∉ names → t.symbols.lookup? i name = s.symbols.lookup? i name

variable {names names' : List (ScopeId × String)}

theorem Quiet.of_same (hfile : t.file = s.file) (hscope : t.fileScope = s.fileScope)
    (hdiagnostics : t.diagnostics = s.diagnostics) (hsymbols : t.symbols = s.symbols) :
    Quiet names s t :=
  ⟨hfile, hscope, hdiagnostics, by rw [hsymbols], fun _ _ _ => by rw [hsymbols]⟩

theorem Quiet.trans (h : Quiet names s t) (h' : Quiet names' t u) : Quiet (names ++ names') s u where
  file := h'.file.trans h.file
  fileScope := h'.fileScope.trans h.fileScope
  diagnostics := h'.diagnostics.trans h.diagnostics
  scopes := h'.scopes.trans h.scopes
  lookup i name hx := by
    obtain ⟨hx, hx'⟩ := not_or.1 (mt List.mem_append.2 hx)
    rw [h'.lookup i name hx', h.lookup i name hx]

/-- Names that are still free are free behind the declaration of others. -/
theorem Free.behind (h : Free (names ++ names') s) (hquiet : Quiet names s t) : Free names' t := by
  obtain ⟨-, hnodup, hapart⟩ := List.nodup_append.1 h.apart
  refine ⟨hnodup, fun x hx => ?_⟩
  rw [hquiet.lookup x.1 x.2 fun hmem => hapart x hmem x hx rfl]
  exact h.free x (List.mem_append_right _ hx)

theorem Free.left (h : Free (names ++ names') s) : Free names s :=
  ⟨(List.nodup_append.1 h.apart).1, fun x hx => h.free x (List.mem_append_left _ hx)⟩

end ParseState

namespace Parse

variable {α β : Type} {names names' : List (ScopeId × String)} {w : Word} {ws us rest : List Word}
  {Q : α → Prop} {R : β → Prop}

/-! ### Rules and the words they take -/

/-- In front of the other words, the words are taken, the names are declared and nothing is reported;
the answer has the property. -/
def Consumes (names : List (ScopeId × String)) (ws rest : List Word) (m : Parse α) (Q : α → Prop) :
    Prop :=
  ∀ s : ParseState, s.Holds (ws ++ rest) → s.Free names →
    (m s).2.Holds rest ∧ s.Quiet names (m s).2 ∧ Q (m s).1

namespace Consumes

variable {m : Parse α} {f : α → Parse β}

protected theorem pure {a : α} (h : Q a) : Consumes [] [] rest (pure a) Q :=
  fun _ hs _ => ⟨hs, .of_same rfl rfl rfl rfl, h⟩

protected theorem bind (hm : Consumes names ws (us ++ rest) m Q)
    (hf : ∀ a, Q a → Consumes names' us rest (f a) R) :
    Consumes (names ++ names') (ws ++ us) rest (m >>= f) R := by
  intro s hs hfree
  rw [List.append_assoc] at hs
  obtain ⟨hheld, hquiet, hq⟩ := hm s hs hfree.left
  obtain ⟨hheld', hquiet', hr⟩ := hf _ hq _ hheld (hfree.behind hquiet)
  exact ⟨hheld', hquiet.trans hquiet', hr⟩

theorem imp {Q' : α → Prop} (hm : Consumes names ws rest m Q) (h : ∀ a, Q a → Q' a) :
    Consumes names ws rest m Q' :=
  fun s hs hfree => (hm s hs hfree).imp_right fun h' => h'.imp_right (h _)

/-- Behind a rule that declares nothing. -/
theorem next (hm : Consumes [] ws (us ++ rest) m Q)
    (hf : ∀ a, Q a → Consumes names us rest (f a) R) :
    Consumes names (ws ++ us) rest (m >>= f) R := Consumes.bind hm hf

/-- Behind a single word. -/
theorem cons (hm : Consumes [] [w] (us ++ rest) m Q)
    (hf : ∀ a, Q a → Consumes names us rest (f a) R) :
    Consumes names (w :: us) rest (m >>= f) R := Consumes.bind hm hf

/-- Behind a step that takes no words. -/
theorem behind (hm : Consumes [] [] (ws ++ rest) m Q)
    (hf : ∀ a, Q a → Consumes names ws rest (f a) R) : Consumes names ws rest (m >>= f) R :=
  Consumes.bind hm hf

/-- In front of steps that take no words and declare nothing. -/
theorem before (hm : Consumes names ws rest m Q)
    (hf : ∀ a, Q a → Consumes [] [] rest (f a) R) : Consumes names ws rest (m >>= f) R := by
  have h : Consumes (names ++ []) (ws ++ []) rest (m >>= f) R := .bind hm hf
  rwa [List.append_nil, List.append_nil] at h

/-- In front of steps that take no words. -/
theorem last (hm : Consumes [] ws rest m Q)
    (hf : ∀ a, Q a → Consumes names [] rest (f a) R) : Consumes names ws rest (m >>= f) R := by
  have h : Consumes ([] ++ names) (ws ++ []) rest (m >>= f) R := .bind hm hf
  rwa [List.append_nil] at h

/-- Looking at the state, of which the words are known. -/
theorem look {g : ParseState → α}
    (h : ∀ s, s.Holds (ws ++ rest) → Consumes names ws rest (f (g s)) R) :
    Consumes names ws rest ((fun s => (g s, s) : Parse α) >>= f) R := fun s hs => h s hs s hs

/-- A step that changes neither words nor names. -/
theorem still {g : ParseState → ParseState} {a : ParseState → α} (hQ : ∀ s, s.Holds rest → Q (a s))
    (hleft : ∀ s, (g s).left = s.left ∧ (g s).eof = s.eof) (hlead : ∀ s, s.Holds rest → (g s).lead = none)
    (hquiet : ∀ s, ParseState.Quiet [] s (g s)) :
    Consumes [] [] rest (fun s => (a s, g s)) Q := by
  intro s hs _
  refine ⟨⟨?_, ?_, hlead s hs, ?_⟩, hquiet s, hQ s hs⟩
  · rw [(hleft s).1, (hquiet s).file]
    exact hs.words
  · rw [(hleft s).2]
    exact hs.eof
  · rw [(hleft s).1, (hleft s).2]
    exact hs.bare

theorem kind {f : TokenKind → Parse β} (k : TokenKind) (hk : headKind (ws ++ rest) = k)
    (hf : Consumes names ws rest (f k) R) : Consumes names ws rest (Parse.kind >>= f) R :=
  look fun s hs => by rw [hs.kind, hk]; exact hf

/-- The answer to whether the current token is of a kind is known. -/
theorem check {f : Bool → Parse β} {k : TokenKind} (b : Bool) (hb : (headKind (ws ++ rest) == k) = b)
    (hf : Consumes names ws rest (f b) R) : Consumes names ws rest (Parse.check k >>= f) R :=
  look fun s hs => by rw [hs.kind, hb]; exact hf

/-- The answer to whether all tokens are taken is known. -/
theorem atEnd {f : Bool → Parse β} (b : Bool) (hb : (ws ++ rest).isEmpty = b)
    (hf : Consumes names ws rest (f b) R) : Consumes names ws rest (Parse.atEnd >>= f) R :=
  look fun s hs => by rw [← List.isEmpty_map, hs.words, hb]; exact hf

/-! ### Loops -/

variable {step : α → Parse (Option α)} {a : α}

theorem stop (h : Consumes [] [] rest (step a) (· = none)) (ha : Q a) :
    Consumes [] [] rest (iterate step a) Q := by
  intro s hs hfree
  obtain ⟨hheld, hquiet, hnone⟩ := h s hs hfree
  rw [iterate, show step a s = (none, (step a s).2) from Prod.ext hnone rfl]
  exact ⟨hheld, hquiet, ha⟩

/-- A repetition that takes a word is followed by others. -/
theorem again {P : α → Prop}
    (h : Consumes names (w :: ws) (us ++ rest) (step a) fun r => ∃ b, r = some b ∧ P b)
    (hrest : ∀ b, P b → Consumes names' us rest (iterate step b) Q) :
    Consumes (names ++ names') (w :: ws ++ us) rest (iterate step a) Q := by
  intro s hs hfree
  rw [List.append_assoc] at hs
  obtain ⟨hheld, hquiet, b, hb, hp⟩ := h s hs hfree.left
  have hlt : (step a s).2.left.length < s.left.length := by
    have hlength := congrArg List.length hs.words
    have hlength' := congrArg List.length hheld.words
    simp only [List.length_map, List.length_append, List.length_cons] at hlength hlength'
    omega
  obtain ⟨hheld', hquiet', hq⟩ := hrest b hp _ hheld (hfree.behind hquiet)
  rw [iterate, show step a s = (some b, (step a s).2) from Prod.ext hb rfl]
  dsimp only
  rw [if_pos hlt]
  exact ⟨hheld', hquiet.trans hquiet', hq⟩

end Consumes

/-! ### Tokens -/

theorem advance_consumes : Consumes [] [w] rest advance fun t => t.kind = w.kind ∧ t.text = w.text := by
  intro s hs _
  obtain ⟨left, hleft, hheld⟩ := hs.take
  have hword := hs.current
  rw [advance_of_left hleft]
  exact ⟨hheld, .of_same rfl rfl rfl rfl, congrArg Word.kind hword, congrArg Word.text hword⟩

theorem expect_consumes {k : TokenKind} (hk : w.kind = k) :
    Consumes [] [w] rest (expect k) fun _ => True :=
  .look fun _ _ => .check true (beq_iff_eq.2 hk) (.before advance_consumes fun _ _ => .pure trivial)

/-- The answer is the name that is there. -/
theorem ident_consumes (hk : w.kind = .ident) :
    Consumes [] [w] rest ident fun i => i.name = w.text := by
  intro s hs _
  obtain ⟨left, hleft, hheld⟩ := hs.take
  have hword := hs.current
  rw [ident_of_kind hleft ((congrArg Word.kind hword).trans hk)]
  refine ⟨⟨hheld.words, hheld.eof, hheld.lead, hheld.bare⟩, .of_same rfl rfl rfl rfl, ?_⟩
  exact congrArg Word.text hword

theorem lit_consumes (k : LitKind) :
    Consumes [] [w] rest (lit k) fun l => l.kind = k ∧ l.text = w.text :=
  .before advance_consumes fun _ ht => .pure ⟨rfl, ht.2⟩

/-- Where no string stands, none is taken. -/
theorem string?_consumes (hk : headKind rest ≠ .string) :
    Consumes [] [] rest string? (· = none) :=
  .check false (beq_false_of_ne hk) (.pure rfl)

/-- Where neither a comma nor a semicolon stands, none is taken. -/
theorem endOfItem_consumes (hk : headKind rest ∉ [.punct .comma, .punct .semicolon]) :
    Consumes [] [] rest endOfItem fun _ => True := by
  refine .kind _ rfl ?_
  split
  · next h => exact absurd h fun heq => hk (by rw [← List.nil_append rest, heq]; simp)
  · next h => exact absurd h fun heq => hk (by rw [← List.nil_append rest, heq]; simp)
  · exact .pure trivial

theorem takeLead_consumes : Consumes [] [] rest takeLead (· = none) :=
  .still (fun _ hs => hs.lead) (fun _ => ⟨rfl, rfl⟩) (fun _ _ => rfl) fun _ =>
    .of_same rfl rfl rfl rfl

theorem trailing_consumes : Consumes [] [] rest trailing (· = none) :=
  .still (fun _ hs => hs.trailing) (fun _ => ⟨rfl, rfl⟩) (fun _ hs => hs.lead) fun _ =>
    .of_same rfl rfl rfl rfl

theorem memberOrigin_consumes (index : Nat) : Consumes [] [] rest (memberOrigin index) fun _ => True :=
  .still (fun _ _ => trivial) (fun _ => ⟨rfl, rfl⟩) (fun _ hs => hs.lead) fun _ =>
    .of_same rfl rfl rfl rfl

/-! ### Names -/

/-- Inserting an object changes what its scope has under its name, and nothing else. -/
theorem lookup?_insert {t : SymbolTable} {id : ObjectId} {o : Object} (ho : t.objects[id]? = some o)
    (scope : ScopeId) {i : ScopeId} {name : String} (hne : (i, name) ≠ (scope, o.name)) :
    (t.insert scope id).2.lookup? i name = t.lookup? i name := by
  have hother : ¬ (i = scope ∧ i < t.scopes.size ∧ t.nameOf? id = some name) := by
    rintro ⟨rfl, -, hname⟩
    unfold SymbolTable.nameOf? at hname
    rw [ho] at hname
    exact hne (by rw [← Option.some.inj hname])
  rw [SymbolTable.lookup?_insert_eq, if_neg hother, Option.or_none]

/-- A name that is free is declared without a report. -/
theorem declare_consumes (i : Ident) (kind : ObjectKind) (origin : Origin) (data : Option Int)
    (scope : ScopeId) :
    Consumes [(scope, i.name)] [] rest (declare i kind origin data scope) fun _ => True := by
  intro s hs hfree
  have hnone : s.symbols.lookup? scope i.name = none := hfree.free _ List.mem_cons_self
  rw [declare_snd]
  generalize hnew : s.symbols.newObject ⟨kind, i.name, origin, i.pos, data⟩ = new
  have hobject : new.2.objects[new.1]? = some ⟨kind, i.name, origin, i.pos, data⟩ := by
    rw [← hnew]
    exact Array.getElem?_push_size
  have hlookup (j : ScopeId) (name : String) : new.2.lookup? j name = s.symbols.lookup? j name := by
    rw [← hnew]
    rfl
  have hentered : (new.2.insert scope new.1).1 = none := by
    unfold SymbolTable.insert
    rw [hobject]
    dsimp only
    rw [hlookup, hnone]
  let entered := if i.isBlank then (none, new.2) else new.2.insert scope new.1
  have hquiet : entered.1 = none := by
    by_cases hb : i.isBlank = true
    · exact congrArg Prod.fst (if_pos hb)
    · exact (congrArg Prod.fst (if_neg hb)).trans hentered
  have hkept (j : ScopeId) (name : String) (hne : (j, name) ∉ [(scope, i.name)]) :
      entered.2.lookup? j name = s.symbols.lookup? j name := by
    rw [← hlookup]
    by_cases hb : i.isBlank = true
    · rw [show entered = (none, new.2) from if_pos hb]
    · rw [show entered = new.2.insert scope new.1 from if_neg hb]
      exact lookup?_insert hobject scope fun heq => hne (List.mem_singleton.2 heq)
  have hscopes : entered.2.scopes.size = s.symbols.scopes.size := by
    have hnewScopes : new.2.scopes.size = s.symbols.scopes.size := by
      rw [← hnew]
      rfl
    by_cases hb : i.isBlank = true
    · rw [show entered = (none, new.2) from if_pos hb, hnewScopes]
    · rw [show entered = new.2.insert scope new.1 from if_neg hb,
        SymbolTable.scopes_size_insert, hnewScopes]
  have hreports : s.diagnostics ++ (entered.1.map fun o =>
      redeclaredAt s.file i (entered.2.posOf o)).toArray = s.diagnostics := by
    rw [hquiet]
    exact Array.append_empty
  exact ⟨⟨hs.words, hs.eof, hs.lead, hs.bare⟩, ⟨rfl, rfl, hreports, hscopes, hkept⟩, trivial⟩

theorem resolveIdent_consumes (i : Ident) :
    Consumes [] [] rest (resolveIdent i) fun _ => True := by
  intro s hs _
  rw [resolveIdent_snd]
  split
  · exact ⟨hs, .of_same rfl rfl rfl rfl, trivial⟩
  · split <;> exact ⟨⟨hs.words, hs.eof, hs.lead, hs.bare⟩, .of_same rfl rfl rfl rfl, trivial⟩

theorem resolveTypeExpr_consumes (t : TypeExpr) :
    Consumes [] [] rest (resolveTypeExpr t) fun _ => True := by
  induction t with
  | bad => exact .pure trivial
  | basic => exact .pure trivial
  | named qualifier name =>
    cases qualifier with
    | none => exact resolveIdent_consumes name
    | some q =>
      exact .still (fun _ _ => trivial) (fun _ => ⟨rfl, rfl⟩) (fun _ hs => hs.lead) fun _ =>
        .of_same rfl rfl rfl rfl
  | array pos elem size closing ih =>
    refine .before ih fun _ _ => ?_
    cases size with
    | ident i => exact resolveIdent_consumes i
    | _ => exact .pure trivial
  | vector pos elem closing ih => exact ih
  | map pos key value closing ihk ihv => exact .before ihk fun _ _ => ihv

theorem resolveMemberType_consumes (t : MemberType) :
    Consumes [] [] rest (resolveMemberType t) fun _ => True := by
  have hparams (ps : List Param) :
      Consumes [] [] rest (ps.forM fun p => resolveTypeExpr p.type) fun _ => True := by
    induction ps with
    | nil => exact .pure trivial
    | cons p ps ih => exact .before (resolveTypeExpr_consumes p.type) fun _ _ => ih
  cases t with
  | plain t => exact resolveTypeExpr_consumes t
  | func sig =>
    refine .before (hparams sig.params) fun _ _ => ?_
    cases sig.result with
    | none => exact .pure trivial
    | some t => exact resolveTypeExpr_consumes t

end Parse

end Idl
