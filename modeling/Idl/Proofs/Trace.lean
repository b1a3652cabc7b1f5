/-
Idl/Proofs/Trace.lean

What parsing does, act by act.

Whatever the grammar makes of a file, it changes the state of parsing in few ways: it takes a
token, numbers an identifier, reports something, or handles a name.  `Step` lists these ways, with
what is known when each happens, and a `Run` is a sequence of them.  What holds of every parse is
proved here by induction on runs, once, and not for every rule of the grammar.

Main results: the identifiers of a run are numbered in order (`Run.ids`), they stand in the order
of their positions and nothing but stand-ins shares a place (`Run.idents_ordered`), and
everything that is reported is an error with a place in the file (`Run.reports`).
-/
import Idl.Syntax.File
import Mathlib.Data.List.Basic

namespace Idl

/-! ### Steps applied to a state -/

namespace Parse

variable {α β : Type} (s : ParseState)

theorem bind_apply (m : Parse α) (f : α → Parse β) : (m >>= f) s = f (m s).1 (m s).2 := rfl

theorem pure_apply (a : α) : (pure a : Parse α) s = (a, s) := rfl

theorem get_apply : (get : Parse ParseState) s = (s, s) := rfl

theorem modify_apply (f : ParseState → ParseState) :
    (modify f : Parse PUnit) s = ((), f s) := rfl

/-- The error about a name that an object at `previous` has. -/
def redeclaredAt (file : SourceFile) (i : Ident) (previous : Pos) : Diagnostic :=
  .error (redeclaredMessage i.name
    (if previous.isValid then some (file.position previous) else none)) i.span

/-- Everything that a declaration changes. -/
theorem declare_snd (i : Ident) (kind : ObjectKind) (origin : Origin) (data : Option Int)
    (scope : ScopeId) :
    (declare i kind origin data scope s).2 =
      let new := s.symbols.newObject ⟨kind, i.name, origin, i.pos, data⟩
      let entered := if i.isBlank then (none, new.2) else new.2.insert scope new.1
      { s with
        symbols := entered.2
        resolutions := s.resolutions.set i.id new.1
        diagnostics := s.diagnostics ++
          (entered.1.map fun o => redeclaredAt s.file i (entered.2.posOf o)).toArray } := by
  cases hb : i.isBlank with
  | true => simp [declare, hb, bind_apply, get_apply, modify_apply, Parse.bind]
  | false =>
    simp only [declare, hb, Bool.false_eq_true, ↓reduceIte]
    simp only [bind_apply, get_apply, modify_apply, Parse.bind]
    cases ((s.symbols.newObject ⟨kind, i.name, origin, i.pos, data⟩).2.insert scope
        (s.symbols.newObject ⟨kind, i.name, origin, i.pos, data⟩).1).1 with
    | none => simp [pure_apply]
    | some e => simp [report, bind_apply, get_apply, redeclaredAt]; rfl

/-- Everything that the use of a name changes. -/
theorem resolveIdent_snd (i : Ident) :
    (resolveIdent i s).2 =
      if i.isBlank then s
      else match s.symbols.resolve? s.fileScope i.name with
        | some o => { s with resolutions := s.resolutions.set i.id o }
        | none => { s with pending := s.pending.push i } := by
  cases hb : i.isBlank with
  | true => simp [resolveIdent, hb, pure_apply]
  | false =>
    simp only [resolveIdent, hb, Bool.false_eq_true, ↓reduceIte, bind_apply, get_apply]
    cases s.symbols.resolve? s.fileScope i.name <;> rfl

end Parse

/-! ### Acts -/

/-- What happens to a name while a file is parsed. -/
inductive NameEvent where
  /-- A scope is created for the members of a bean. -/
  | enter
  /-- A name is declared. -/
  | declare (scope : ScopeId) (kind : ObjectKind) (origin : Origin) (data : Option Int) (i : Ident)
  /-- A name is used. -/
  | refer (i : Ident)
  /-- A name of another package is used. -/
  | qualify (q : QualifiedRef)

namespace NameEvent

/-- Lets a name event happen. -/
def run : NameEvent → Parse Unit
  | .enter => modify fun s => { s with symbols := (s.symbols.newScope (some s.fileScope)).2 }
  | .declare scope kind origin data i => Parse.declare i kind origin data scope
  | .refer i => Parse.resolveIdent i
  | .qualify q => modify fun s => { s with qualified := s.qualified.push q }

/-- A name event changes what is known of names, may report something, and does nothing else. -/
theorem run_frame (e : NameEvent) (s : ParseState) :
    ∃ symbols resolutions pending qualified reported, (e.run s).2 =
      { s with symbols, resolutions, pending, qualified, diagnostics := s.diagnostics ++ reported } := by
  cases e with
  | enter =>
    refine ⟨(s.symbols.newScope (some s.fileScope)).2, s.resolutions, s.pending, s.qualified, #[], ?_⟩
    simp [run, Parse.modify_apply]
  | declare scope kind origin data i =>
    exact ⟨_, _, s.pending, s.qualified, _, Parse.declare_snd s i kind origin data scope⟩
  | refer i =>
    rw [run, Parse.resolveIdent_snd]
    split
    · exact ⟨s.symbols, s.resolutions, s.pending, s.qualified, #[], by simp⟩
    · split
      · next o _ =>
        exact ⟨s.symbols, s.resolutions.set i.id o, s.pending, s.qualified, #[], by simp⟩
      · exact ⟨s.symbols, s.resolutions, s.pending.push i, s.qualified, #[], by simp⟩
  | qualify q =>
    refine ⟨s.symbols, s.resolutions, s.pending, s.qualified.push q, #[], ?_⟩
    simp [run, Parse.modify_apply]

end NameEvent

/-- One thing that parsing does. -/
inductive Act where
  /-- A token is taken. -/
  | take (t : Token)
  /-- A token is taken, and the identifier that it is gets its number. -/
  | name (t : Token) (i : Ident)
  /-- An identifier that stands in for a missing one gets its number. -/
  | standIn (i : Ident)
  /-- A token that is used like an identifier is taken and gets a number. -/
  | mark (t : Token) (i : Ident)
  | report (d : Diagnostic)
  | handle (e : NameEvent)
  /-- The parser notes something for itself. -/
  | note

/-- The kind of literal that a token of the kind is. -/
def TokenKind.litKind? : TokenKind → Option LitKind
  | .int => some .int
  | .float => some .float
  | .char => some .char
  | .string => some .string
  | _ => none

namespace Act

/-- The token that is taken. -/
def token? : Act → Option Token
  | .take t => some t
  | .name t _ => some t
  | .mark t _ => some t
  | _ => none

/-- The identifier that gets its number, whether it is there or missing. -/
def ident? : Act → Option Ident
  | .name _ i => some i
  | .standIn i => some i
  | _ => none

/-- The identifier that is there and gets its number. -/
def named? : Act → Option Ident
  | .name _ i => some i
  | _ => none

/-- What is used like an identifier and gets a number. -/
def mark? : Act → Option Ident
  | .mark _ i => some i
  | _ => none

/-- Whatever gets a number. -/
def numbered? : Act → Option Ident
  | .name _ i => some i
  | .standIn i => some i
  | .mark _ i => some i
  | _ => none

/-- The literal that is taken. -/
def lit? : Act → Option Lit
  | .take t => t.kind.litKind?.map fun k => ⟨t.pos, k, t.text⟩
  | _ => none

/-- What is reported. -/
def report? : Act → Option Diagnostic
  | .report d => some d
  | _ => none

/-- What happens to a name. -/
def event? : Act → Option NameEvent
  | .handle e => some e
  | _ => none

end Act

/-! ### Parts of a trace -/

/-- What parsing did, in order. -/
abbrev Trace := List Act

namespace Trace

/-- The tokens that were taken. -/
def tokens (tr : Trace) : List Token := tr.filterMap Act.token?

/-- The identifiers, those that were missing among them. -/
def idents (tr : Trace) : List Ident := tr.filterMap Act.ident?

/-- The identifiers that were there. -/
def named (tr : Trace) : List Ident := tr.filterMap Act.named?

/-- What was used like an identifier. -/
def marks (tr : Trace) : List Ident := tr.filterMap Act.mark?

/-- All that got a number. -/
def numbered (tr : Trace) : List Ident := tr.filterMap Act.numbered?

/-- The literals that were taken. -/
def lits (tr : Trace) : List Lit := tr.filterMap Act.lit?

/-- What was reported, except on names that were declared twice. -/
def reports (tr : Trace) : List Diagnostic := tr.filterMap Act.report?

/-- What happened to names. -/
def events (tr : Trace) : List NameEvent := tr.filterMap Act.event?

variable (tr tr' : Trace)

theorem idents_append : idents (tr ++ tr') = idents tr ++ idents tr' := List.filterMap_append
theorem named_append : named (tr ++ tr') = named tr ++ named tr' := List.filterMap_append
theorem marks_append : marks (tr ++ tr') = marks tr ++ marks tr' := List.filterMap_append
theorem lits_append : lits (tr ++ tr') = lits tr ++ lits tr' := List.filterMap_append
theorem reports_append : reports (tr ++ tr') = reports tr ++ reports tr' := List.filterMap_append
theorem events_append : events (tr ++ tr') = events tr ++ events tr' := List.filterMap_append

end Trace

/-! ### Messages -/

/-- A message from the end of its first word on. -/
def afterFirstWord (message : String) : List Char := message.toList.dropWhile (· ≠ ' ')

/-- An error that cannot be taken for one about a name that is declared twice. -/
structure Diagnostic.Plain (d : Diagnostic) : Prop where
  isError : d.isError = true
  message : (afterFirstWord d.message).take 2 ≠ [' ', 'r']

/-! ### States from which parsing goes on -/

namespace ParseState

/-- The tokens from the current one on, the end of the file last. -/
def tokens (s : ParseState) : List Token := s.left.map (·.token) ++ [s.eof.token]

/-- The state after the current token is taken and `rest` is left. -/
def took (s : ParseState) (rest : List SignificantToken) : ParseState :=
  { s with left := rest, lead := (rest.headD s.eof).lead }

end ParseState

/-- Whether a position is the position of something in the file. -/
def SourceFile.Owns (f : SourceFile) (p : Pos) : Prop := p ≠ 0 ∧ f.contains p = true

theorem SourceFile.owns_iff {f : SourceFile} {p : Pos} :
    f.Owns p ↔ p ≠ 0 ∧ f.base ≤ p ∧ p ≤ f.base + f.size := by
  unfold Owns contains
  rw [Bool.and_eq_true, decide_eq_true_eq, decide_eq_true_eq]

/-- A span lies in the file. -/
structure SourceFile.Holds (f : SourceFile) (s : Span) : Prop where
  start : f.base ≤ s.start
  ordered : s.start ≤ s.stop
  stop : s.stop ≤ f.base + f.size

/-- Whatever lies in a file starts at a place of the file. -/
theorem SourceFile.Holds.owns {f : SourceFile} {s : Span} (h : f.Holds s) (hbase : f.base ≠ 0) :
    f.Owns s.start := by
  refine owns_iff.2 ⟨fun h0 => hbase (Nat.le_zero.1 (h0 ▸ h.start)), h.start, ?_⟩
  exact Nat.le_trans h.ordered h.stop

/-- The error about a constant that the file ends before.  The identifier that stands in for its name
is a byte wide, and that byte lies behind the file. -/
def SourceFile.constAtEnd (f : SourceFile) : Diagnostic :=
  .error "missing constant value" (.ofWidth (f.base + f.size) 1)

/-- A token is spelled as its kind asks for. -/
def Token.Spelled (t : Token) : Prop :=
  match t.kind with
  | .ident => ∃ c cs, isIdentStart c = true ∧ cs.all isIdentContinue = true ∧
      t.text = String.ofList (c :: cs)
  | .keyword k => t.text = k.spelling
  | .punct p => t.text = String.ofList [p.char]
  | _ => True

/-- The tokens of a state are those of a file: they come in order, lie in the file and are
spelled right, and the end of the file comes last. -/
structure ParseState.Ready (s : ParseState) : Prop where
  increasing : s.tokens.Pairwise fun t u => t.pos < u.pos
  owned : ∀ t ∈ s.tokens, s.file.Owns t.pos
  held : ∀ t ∈ s.tokens, s.file.Holds t.span
  spelled : ∀ t ∈ s.tokens, t.Spelled
  /-- An identifier covers its text and nothing else. -/
  width : ∀ t ∈ s.tokens, t.kind = .ident → t.span = .ofWidth t.pos t.text.utf8ByteSize
  eof : s.eof.token.kind = .eof

/-- The last of the tokens that are left, before the end of the file, is of the kind. -/
def ParseState.EndsIn (s : ParseState) (k : TokenKind) : Prop :=
  ∃ t ∈ s.left.getLast?, t.token.kind = k

/-- Where a report may be placed: in the file, unless the file ends in the middle of a constant. -/
def ParseState.Shows (s : ParseState) (d : Diagnostic) : Prop :=
  s.file.Holds d.span ∨ s.EndsIn (.keyword .const) ∧ d = s.file.constAtEnd

/-! ### Steps and runs -/

/-- The kinds of token that are used like identifiers. -/
def TokenKind.isMark : TokenKind → Bool
  | .keyword .required | .keyword .optional | .punct .period => true
  | _ => false

/-- An act leads from one state to another. -/
inductive Step (s : ParseState) : Act → ParseState → Prop
  | take {t : SignificantToken} {rest : List SignificantToken} (h : s.left = t :: rest) :
    Step s (.take t.token) (s.took rest)
  | name {t : SignificantToken} {rest : List SignificantToken} (h : s.left = t :: rest)
      (hkind : t.token.kind = .ident) :
    Step s (.name t.token ⟨s.nextIdent, t.token.text, t.token.pos⟩)
      { s.took rest with nextIdent := s.nextIdent + 1 }
  | standIn (hkind : s.current.token.kind ≠ .ident) :
    Step s (.standIn ⟨s.nextIdent, "_", s.current.token.pos⟩)
      { s with nextIdent := s.nextIdent + 1 }
  | mark {t : SignificantToken} {rest : List SignificantToken} (h : s.left = t :: rest)
      (hkind : t.token.kind.isMark = true) :
    Step s (.mark t.token ⟨s.nextIdent, t.token.text, t.token.pos⟩)
      { s.took rest with nextIdent := s.nextIdent + 1 }
  | report {d : Diagnostic} (hplain : d.Plain) (howned : s.file.Owns d.span.start) :
    Step s (.report d) { s with diagnostics := s.diagnostics.push d }
  | handle (e : NameEvent) : Step s (.handle e) (e.run s).2
  | note (lead : Option CommentGroup) (declIndex : Nat) (syncPos : Pos) (syncStops : Nat) :
    Step s .note { s with lead, declIndex, syncPos, syncStops }

/-- A sequence of acts leads from one state to another. -/
inductive Run : ParseState → Trace → ParseState → Prop
  | nil (s : ParseState) : Run s [] s
  | cons {s s' s'' : ParseState} {a : Act} {tr : Trace} (h : Step s a s') (r : Run s' tr s'') :
    Run s (a :: tr) s''

variable {s s' s'' : ParseState} {a : Act} {tr tr' : Trace}

theorem Run.append (r : Run s tr s') (r' : Run s' tr' s'') : Run s (tr ++ tr') s'' := by
  induction r with
  | nil => exact r'
  | cons h _ ih => exact .cons h (ih r')

theorem Step.run (h : Step s a s') : Run s [a] s' := .cons h (.nil s')

/-! ### What stays -/

/-- Where the file is and what it is called never changes while it is parsed. -/
theorem Step.frame (h : Step s a s') :
    s'.file = s.file ∧ s'.fileId = s.fileId ∧ s'.fileScope = s.fileScope ∧ s'.eof = s.eof := by
  cases h with
  | handle e =>
    obtain ⟨_, _, _, _, _, he⟩ := e.run_frame s
    rw [he]
    exact ⟨rfl, rfl, rfl, rfl⟩
  | _ => exact ⟨rfl, rfl, rfl, rfl⟩

theorem Run.frame (r : Run s tr s') :
    s'.file = s.file ∧ s'.fileId = s.fileId ∧ s'.fileScope = s.fileScope ∧ s'.eof = s.eof := by
  induction r with
  | nil => exact ⟨rfl, rfl, rfl, rfl⟩
  | cons h _ ih =>
    obtain ⟨h1, h2, h3, h4⟩ := h.frame
    rw [← h1, ← h2, ← h3, ← h4]
    exact ih

/-! ### Tokens -/

theorem Step.tokens (h : Step s a s') : s.tokens = a.token?.toList ++ s'.tokens := by
  cases h with
  | take h => simp [ParseState.tokens, h, ParseState.took, Act.token?]
  | name h => simp [ParseState.tokens, h, ParseState.took, Act.token?]
  | mark h => simp [ParseState.tokens, h, ParseState.took, Act.token?]
  | handle e =>
    obtain ⟨_, _, _, _, _, he⟩ := e.run_frame s
    rw [he]
    rfl
  | _ => rfl

/-- Tokens are only ever taken from the front. -/
theorem Run.tokens (r : Run s tr s') : s.tokens = Trace.tokens tr ++ s'.tokens := by
  induction r with
  | nil => rfl
  | cons h _ ih =>
    rw [h.tokens, ih, ← List.append_assoc]
    congr 1
    unfold Trace.tokens
    cases ha : Act.token? _ <;> simp [ha]

theorem Step.ready (h : Step s a s') (hs : s.Ready) : s'.Ready := by
  obtain ⟨hfile, -, -, heof⟩ := h.frame
  have hsub : s'.tokens.Sublist s.tokens := h.tokens ▸ List.sublist_append_right ..
  constructor
  · exact hs.increasing.sublist hsub
  · rw [hfile]
    exact fun t ht => hs.owned t (hsub.subset ht)
  · rw [hfile]
    exact fun t ht => hs.held t (hsub.subset ht)
  · exact fun t ht => hs.spelled t (hsub.subset ht)
  · exact fun t ht => hs.width t (hsub.subset ht)
  · rw [heof]
    exact hs.eof

theorem Run.ready (r : Run s tr s') (hs : s.Ready) : s'.Ready := by
  induction r with
  | nil => exact hs
  | cons h _ ih => exact ih (h.ready hs)

theorem ParseState.current_mem (s : ParseState) : s.current.token ∈ s.tokens := by
  unfold current tokens
  cases s.left <;> simp

theorem ParseState.Ready.owns_current (hs : s.Ready) : s.file.Owns s.current.token.pos :=
  hs.owned _ s.current_mem

theorem ParseState.Ready.holds_current (hs : s.Ready) : s.file.Holds s.current.token.span :=
  hs.held _ s.current_mem

/-! ### Numbers of identifiers -/

theorem Step.numbered (h : Step s a s') :
    (a.numbered?.toList).map (·.id) = List.range' s.nextIdent a.numbered?.toList.length ∧
      s'.nextIdent = s.nextIdent + a.numbered?.toList.length := by
  cases h with
  | handle e =>
    obtain ⟨_, _, _, _, _, he⟩ := e.run_frame s
    rw [he]
    exact ⟨rfl, rfl⟩
  | _ => exact ⟨rfl, rfl⟩

/-- Identifiers are numbered one after the other. -/
theorem Run.numbered (r : Run s tr s') :
    (Trace.numbered tr).map (·.id) = List.range' s.nextIdent (Trace.numbered tr).length ∧
      s'.nextIdent = s.nextIdent + (Trace.numbered tr).length := by
  induction r with
  | nil => exact ⟨rfl, rfl⟩
  | @cons s s' s'' a tr h r ih =>
    have hcons : Trace.numbered (a :: tr) = a.numbered?.toList ++ Trace.numbered tr := by
      unfold Trace.numbered
      cases ha : a.numbered? <;> simp [ha]
    obtain ⟨h1, h2⟩ := h.numbered
    rw [hcons, List.map_append, List.length_append, h1, ih.1, ih.2, h2]
    refine ⟨?_, Nat.add_assoc ..⟩
    rw [← List.range'_append_1]

theorem Run.numbered_lt (r : Run s tr s') :
    (Trace.numbered tr).Pairwise fun i j => i.id < j.id := by
  rw [← List.pairwise_map (f := fun i : Ident => i.id) (R := (· < ·)), r.numbered.1]
  exact List.pairwise_lt_range'

theorem Trace.idents_sublist (tr : Trace) : (Trace.idents tr).Sublist (Trace.numbered tr) := by
  induction tr with
  | nil => exact .slnil
  | cons a tr ih =>
    cases a with
    | mark t i => exact ih.cons i
    | name t i => exact ih.cons_cons i
    | standIn i => exact ih.cons_cons i
    | _ => exact ih

/-! ### Identifiers and their places -/

/-- An identifier that is there is a token. -/
theorem Run.named_token (r : Run s tr s') {i : Ident} (hi : i ∈ Trace.named tr) :
    ∃ t ∈ Trace.tokens tr, t.kind = .ident ∧ t.text = i.name ∧ t.pos = i.pos := by
  induction r with
  | nil => simp [Trace.named] at hi
  | @cons s s' s'' a tr h r ih =>
    have hsub : (Trace.tokens tr).Sublist (Trace.tokens (a :: tr)) := by
      unfold Trace.tokens
      exact (List.sublist_cons_self a tr).filterMap _
    have hmem : a.named? = some i ∨ i ∈ Trace.named tr := by
      unfold Trace.named at hi ⊢
      rw [List.mem_filterMap] at hi ⊢
      obtain ⟨b, hb, hbi⟩ := hi
      rcases List.mem_cons.1 hb with rfl | hb
      · exact .inl hbi
      · exact .inr ⟨b, hb, hbi⟩
    rcases hmem with ha | hi
    · cases h with
      | @name t rest hleft hkind =>
        have hti : (⟨s.nextIdent, t.token.text, t.token.pos⟩ : Ident) = i := Option.some.inj ha
        refine ⟨t.token, ?_, hkind, ?_, ?_⟩
        · simp [Trace.tokens, Act.token?]
        · rw [← hti]
        · rw [← hti]
      | _ => simp [Act.named?] at ha
    · obtain ⟨t, ht, h⟩ := ih hi
      exact ⟨t, hsub.subset ht, h⟩

theorem ParseState.tokens_eq_cons (s : ParseState) :
    ∃ rest, s.tokens = s.current.token :: rest := by
  unfold tokens current
  cases s.left with
  | nil => exact ⟨[], rfl⟩
  | cons t rest => exact ⟨rest.map (·.token) ++ [s.eof.token], rfl⟩

/-- No token that is left stands before the current one. -/
theorem ParseState.Ready.current_le (hs : s.Ready) {t : Token} (ht : t ∈ s.tokens) :
    s.current.token.pos ≤ t.pos := by
  obtain ⟨rest, hrest⟩ := s.tokens_eq_cons
  have hinc := hs.increasing
  rw [hrest] at hinc ht
  rcases List.mem_cons.1 ht with rfl | ht
  · exact Nat.le_refl _
  · exact Nat.le_of_lt ((List.pairwise_cons.1 hinc).1 t ht)

/-- Nothing is left where the file ends. -/
theorem ParseState.Ready.left_eq_nil (hs : s.Ready)
    (hpos : s.current.token.pos = s.file.base + s.file.size) : s.left = [] := by
  cases hleft : s.left with
  | nil => rfl
  | cons t rest =>
    have hcurrent : s.current = t := by simp [ParseState.current, hleft]
    have hlt : t.token.pos < s.eof.token.pos := by
      have hinc := hs.increasing
      simp only [ParseState.tokens, hleft, List.map_cons, List.cons_append] at hinc
      exact (List.pairwise_cons.1 hinc).1 _ (by simp)
    have howned := SourceFile.owns_iff.1 (hs.owned s.eof.token (by simp [ParseState.tokens]))
    rw [hcurrent] at hpos
    exact absurd howned.2.2 (Nat.not_le.2 (hpos ▸ hlt))

/-- When a single token is left, the file ends in it. -/
theorem Run.endsIn (r : Run s tr s') {t : SignificantToken} (hleft : s'.left = [t]) :
    s.EndsIn t.token.kind := by
  have htokens := r.tokens
  simp only [ParseState.tokens, hleft, r.frame.2.2.2, ← List.append_assoc] at htokens
  have hlast := congrArg List.getLast? (List.append_cancel_right htokens)
  rw [List.map_singleton, List.getLast?_concat, List.getLast?_map] at hlast
  obtain ⟨u, hu, htoken⟩ := Option.map_eq_some_iff.1 hlast
  exact ⟨u, hu, htoken ▸ rfl⟩

theorem Run.current_le (r : Run s tr s') (hs : s.Ready) :
    s.current.token.pos ≤ s'.current.token.pos := by
  apply hs.current_le
  rw [r.tokens]
  exact List.mem_append_right _ s'.current_mem

/-- An identifier starts where the token is that is current when it gets its number, and if it is
there, the next token stands behind it. -/
theorem Step.ident (h : Step s a s') (hs : s.Ready) {i : Ident} (hi : a.ident? = some i) :
    i.pos = s.current.token.pos ∧
      (a.named? = some i → i.pos < s'.current.token.pos) ∧
      (a.named? = none → s.current.token.kind ≠ .ident) := by
  cases h with
  | @name t rest hleft hkind =>
    have hti : (⟨s.nextIdent, t.token.text, t.token.pos⟩ : Ident) = i := Option.some.inj hi
    have hcur : s.current = t := by simp [ParseState.current, hleft]
    have htok := (Step.name hleft hkind).tokens
    refine ⟨by rw [hcur, ← hti], fun _ => ?_, fun h => by simp [Act.named?] at h⟩
    have hinc := hs.increasing
    rw [htok] at hinc
    have hlt := (List.pairwise_cons.1 hinc).1 _ (ParseState.current_mem _)
    rw [← hti]
    exact hlt
  | standIn hkind =>
    have hti : (⟨s.nextIdent, "_", s.current.token.pos⟩ : Ident) = i := Option.some.inj hi
    exact ⟨by rw [← hti], fun h => by simp [Act.named?] at h, fun _ => hkind⟩
  | _ => simp [Act.ident?] at hi

theorem Run.le_ident (r : Run s tr s') (hs : s.Ready) {i : Ident} (hi : i ∈ Trace.idents tr) :
    s.current.token.pos ≤ i.pos := by
  induction r with
  | nil => simp [Trace.idents] at hi
  | @cons s s' s'' a tr h r ih =>
    rcases List.mem_filterMap.1 hi with ⟨b, hb, hbi⟩
    rcases List.mem_cons.1 hb with rfl | hb
    · exact Nat.le_of_eq (h.ident hs hbi).1.symm
    · have htail : i ∈ Trace.idents tr := List.mem_filterMap.2 ⟨b, hb, hbi⟩
      exact Nat.le_trans (h.run.current_le hs) (ih (h.ready hs) htail)

/-- Identifiers come in the order of their places, and two of them share a place only where no
identifier is. -/
theorem Run.idents_ordered (r : Run s tr s') (hs : s.Ready) :
    (Trace.idents tr).Pairwise fun i j =>
      i.pos ≤ j.pos ∧ (i.pos = j.pos → ∀ t ∈ s.tokens, t.kind = .ident → t.pos ≠ i.pos) := by
  induction r with
  | nil => exact .nil
  | @cons s s' s'' a tr h r ih =>
    have htail : (Trace.idents tr).Pairwise fun i j =>
        i.pos ≤ j.pos ∧ (i.pos = j.pos → ∀ t ∈ s.tokens, t.kind = .ident → t.pos ≠ i.pos) := by
      refine (ih (h.ready hs)).imp_of_mem fun {i j} hi _ hij => ⟨hij.1, fun heq t ht hkind => ?_⟩
      rw [h.tokens] at ht
      rcases List.mem_append.1 ht with ht | ht
      · -- a token that is taken before stands before
        have hinc := hs.increasing
        rw [h.tokens] at hinc
        have hlt := (List.pairwise_append.1 hinc).2.2 t ht _ s'.current_mem
        exact Nat.ne_of_lt (Nat.lt_of_lt_of_le hlt (r.le_ident (h.ready hs) hi))
      · exact hij.2 heq t ht hkind
    cases ha : a.ident? with
    | none =>
      have hcons : Trace.idents (a :: tr) = Trace.idents tr := List.filterMap_cons_none ha
      rw [hcons]
      exact htail
    | some i =>
      have hcons : Trace.idents (a :: tr) = i :: Trace.idents tr := List.filterMap_cons_some ha
      rw [hcons]
      obtain ⟨hpos, hnamed, hmissing⟩ := h.ident hs ha
      refine List.pairwise_cons.2 ⟨fun j hj => ?_, htail⟩
      have hle := r.le_ident (h.ready hs) hj
      have hstep := h.run.current_le hs
      refine ⟨hpos ▸ Nat.le_trans hstep hle, fun heq t ht hkind htpos => ?_⟩
      cases hn : a.named? with
      | some i' =>
        have hi' : i' = i := by cases a <;> simp_all [Act.ident?, Act.named?]
        have hlt := hnamed (hi' ▸ hn)
        exact absurd heq (Nat.ne_of_lt (Nat.lt_of_lt_of_le hlt hle))
      | none =>
        obtain ⟨rest, hrest⟩ := s.tokens_eq_cons
        have hinc := hs.increasing
        rw [hrest] at hinc ht
        rcases List.mem_cons.1 ht with rfl | ht
        · exact hmissing hn hkind
        · have hlt := (List.pairwise_cons.1 hinc).1 t ht
          rw [htpos, hpos] at hlt
          exact Nat.lt_irrefl _ hlt

/-- An identifier that is missing has the blank name. -/
theorem Run.named_of_ne (r : Run s tr s') {i : Ident} (hi : i ∈ Trace.idents tr)
    (hname : i.name ≠ "_") : i ∈ Trace.named tr := by
  induction r with
  | nil => simp [Trace.idents] at hi
  | @cons s s' s'' a tr h r ih =>
    rcases List.mem_filterMap.1 hi with ⟨b, hb, hbi⟩
    rcases List.mem_cons.1 hb with rfl | hb
    · cases h with
      | name hleft hkind => exact List.mem_filterMap.2 ⟨_, List.mem_cons_self, hbi⟩
      | standIn hkind => exact absurd (congrArg Ident.name (Option.some.inj hbi)).symm hname
      | _ => simp [Act.ident?] at hbi
    · obtain ⟨c, hc, hci⟩ := List.mem_filterMap.1 (ih (List.mem_filterMap.2 ⟨b, hb, hbi⟩))
      exact List.mem_filterMap.2 ⟨c, List.mem_cons_of_mem _ hc, hci⟩

/-! ### What else stands in the file -/

/-- Whatever gets a number has a place in the file. -/
theorem Run.numbered_owned (r : Run s tr s') (hs : s.Ready) {i : Ident}
    (hi : i ∈ Trace.numbered tr) : s.file.Owns i.pos := by
  induction r with
  | nil => simp [Trace.numbered] at hi
  | @cons s s' s'' a tr h r ih =>
    rcases List.mem_filterMap.1 hi with ⟨b, hb, hbi⟩
    rcases List.mem_cons.1 hb with rfl | hb
    · have hcur (t : SignificantToken) (rest : List SignificantToken) (hleft : s.left = t :: rest) :
          s.file.Owns t.token.pos := hs.owned _ (by simp [ParseState.tokens, hleft])
      cases h with
      | name hleft _ => exact Option.some.inj hbi ▸ hcur _ _ hleft
      | standIn _ => exact Option.some.inj hbi ▸ hs.owns_current
      | mark hleft _ => exact Option.some.inj hbi ▸ hcur _ _ hleft
      | _ => simp [Act.numbered?] at hbi
    · rw [← h.frame.1]
      exact ih (h.ready hs) (List.mem_filterMap.2 ⟨b, hb, hbi⟩)

/-- A literal is a token. -/
theorem Act.lit_token {l : Lit} (h : a.lit? = some l) :
    ∃ t, a.token? = some t ∧ t.pos = l.pos ∧ t.text = l.text := by
  cases a with
  | take t =>
    obtain ⟨k, -, hl⟩ := Option.map_eq_some_iff.1 h
    exact ⟨t, rfl, congrArg Lit.pos hl, congrArg Lit.text hl⟩
  | _ => simp [Act.lit?] at h

theorem Run.lit_owned (r : Run s tr s') (hs : s.Ready) {l : Lit} (hl : l ∈ Trace.lits tr) :
    s.file.Owns l.pos := by
  obtain ⟨a, ha, hal⟩ := List.mem_filterMap.1 hl
  obtain ⟨t, hat, hpos, -⟩ := Act.lit_token hal
  have ht : t ∈ s.tokens := by
    rw [r.tokens]
    exact List.mem_append_left _ (List.mem_filterMap.2 ⟨a, ha, hat⟩)
  exact hpos ▸ hs.owned t ht

/-- Literals come in the order of their places. -/
theorem Run.lits_ordered (r : Run s tr s') (hs : s.Ready) :
    (Trace.lits tr).Pairwise fun l m => l.pos < m.pos := by
  have hinc := hs.increasing
  rw [r.tokens] at hinc
  have htokens := (List.pairwise_append.1 hinc).1
  unfold Trace.tokens at htokens
  rw [List.pairwise_filterMap] at htokens
  unfold Trace.lits
  rw [List.pairwise_filterMap]
  refine htokens.imp fun {a b} h l hl m hm => ?_
  obtain ⟨t, hat, htl, -⟩ := Act.lit_token hl
  obtain ⟨u, hbu, hum, -⟩ := Act.lit_token hm
  exact htl ▸ hum ▸ h t hat u hbu

/-- An identifier that is there lies in the file. -/
theorem Run.named_held (r : Run s tr s') (hs : s.Ready) {i : Ident} (hi : i ∈ Trace.named tr) :
    s.file.Holds i.span := by
  obtain ⟨t, ht, hkind, htext, hpos⟩ := r.named_token hi
  have hmem : t ∈ s.tokens := by
    rw [r.tokens]
    exact List.mem_append_left _ ht
  have hspan : t.span = i.span := by
    rw [hs.width t hmem hkind, htext, hpos]
    rfl
  exact hspan ▸ hs.held t hmem

/-- An identifier lies in the file, unless it is missing where the file ends. -/
theorem Run.ident_held (r : Run s tr s') (hs : s.Ready) {i : Ident} (hi : i ∈ Trace.idents tr) :
    s.file.Holds i.span ∨ i.span = .ofWidth (s.file.base + s.file.size) 1 := by
  by_cases hname : i.name = "_"
  · have hspan : i.span = .ofWidth i.pos 1 := by
      rw [Ident.span, hname]
      rfl
    have howned := r.numbered_owned hs (tr.idents_sublist.subset hi)
    obtain ⟨-, hlow, hhigh⟩ := SourceFile.owns_iff.1 howned
    rw [hspan]
    by_cases hend : i.pos = s.file.base + s.file.size
    · exact .inr (by rw [hend])
    · have hlt : i.pos < s.file.base + s.file.size := Nat.lt_of_le_of_ne hhigh hend
      exact .inl ⟨hlow, Nat.le_add_right .., hlt⟩
  · exact .inl (r.named_held hs (r.named_of_ne hi hname))

/-- Whatever is reported is an error with a place in the file. -/
theorem Run.reports (r : Run s tr s') {d : Diagnostic} (hd : d ∈ Trace.reports tr) :
    d.Plain ∧ s.file.Owns d.span.start := by
  induction r with
  | nil => simp [Trace.reports] at hd
  | @cons s s' s'' a tr h r ih =>
    rcases List.mem_filterMap.1 hd with ⟨b, hb, hbd⟩
    rcases List.mem_cons.1 hb with rfl | hb
    · cases h with
      | report hplain howned => exact Option.some.inj hbd ▸ ⟨hplain, howned⟩
      | _ => simp [Act.report?] at hbd
    · rw [← h.frame.1]
      exact ih (List.mem_filterMap.2 ⟨b, hb, hbd⟩)

/-! ### Scopes -/

/-- The number of scopes that name events create. -/
def NameEvent.enters (es : List NameEvent) : Nat := es.countP fun
  | .enter => true
  | _ => false

theorem NameEvent.run_scopes_size (e : NameEvent) (s : ParseState) :
    (e.run s).2.symbols.scopes.size = s.symbols.scopes.size + NameEvent.enters [e] := by
  cases e with
  | enter => simp [run, Parse.modify_apply, SymbolTable.newScope, enters]
  | declare scope kind origin data i =>
    rw [run, Parse.declare_snd]
    simp only [SymbolTable.newObject]
    split
    · rfl
    · unfold SymbolTable.insert
      split
      · rfl
      · split <;> simp [enters]
  | refer i =>
    rw [run, Parse.resolveIdent_snd]
    split
    · rfl
    · split <;> rfl
  | qualify q => rfl

theorem Step.scopes_size (h : Step s a s') :
    s'.symbols.scopes.size = s.symbols.scopes.size + NameEvent.enters a.event?.toList := by
  cases h with
  | handle e => exact e.run_scopes_size s
  | _ => rfl

/-- Scopes are created by name events and nothing else. -/
theorem Run.scopes_size (r : Run s tr s') :
    s'.symbols.scopes.size = s.symbols.scopes.size + NameEvent.enters (Trace.events tr) := by
  induction r with
  | nil => rfl
  | @cons s s' s'' a tr h r ih =>
    have hcons : Trace.events (a :: tr) = a.event?.toList ++ Trace.events tr := by
      unfold Trace.events
      cases ha : a.event? <;> simp [ha]
    rw [ih, h.scopes_size, hcons, NameEvent.enters, NameEvent.enters, NameEvent.enters,
      List.countP_append, Nat.add_assoc]

end Idl
