/-
Idl/Proofs/Trace/Grammar.lean

Every rule of the grammar does what its tree tells.

Rule by rule, the accounts of the parts that a rule takes add up to the account of the tree that it
answers with.  Two rules need more than that.  A bean is told of with the number of the scope that
it creates, which the scopes created before determine; and a constant without a value of its own
repeats the value before it, so a group keeps in mind what it has told of (`Inherits`).

Main result: a file is parsed as its account tells (`file_told`).
-/
import Idl.Proofs.Trace.Tree

namespace Idl

namespace Parse

variable {index : Nat} {s₀ : ParseState} {pre : Account}

/-! ### Taking tokens -/

theorem advance_of_nil {s : ParseState} (h : s.left = []) : advance s = (s.eof.token, s) := by
  unfold advance
  rw [h]

theorem advance_of_left {s : ParseState} {t : SignificantToken} {rest : List SignificantToken}
    (h : s.left = t :: rest) : advance s = (t.token, s.took rest) := by
  unfold advance
  rw [h]
  rfl

theorem left_of_kind {s : ParseState} (hs : s.Ready) (h : s.current.token.kind ≠ .eof) :
    ∃ rest, s.left = s.current :: rest := by
  unfold ParseState.current at *
  cases hl : s.left with
  | nil =>
    rw [hl] at h
    exact absurd hs.eof h
  | cons t rest => exact ⟨rest, rfl⟩

theorem advance_accounts : Accounts index s₀ advance fun _ => {} := by
  intro pre s hs
  rw [Account.append_nil]
  cases hl : s.left with
  | nil => rwa [advance_of_nil hl]
  | cons t rest =>
    rw [advance_of_left hl]
    exact hs.quiet (.take hl) rfl rfl rfl

theorem takeLead_accounts : Accounts index s₀ takeLead fun _ => {} := by
  intro pre s hs
  rw [Account.append_nil]
  exact hs.quiet (.note none s.declIndex s.syncPos s.syncStops) rfl rfl rfl

/-- What is known of the tokens behind the current one is known of those that are left. -/
theorem advance_told {Q : List SignificantToken → Prop} :
    Leads (fun s => Told index s₀ pre s ∧ Q s.left.tail) advance
      fun _ s => Told index s₀ pre s ∧ Q s.left := by
  refine advance_accounts.keeps_told.and fun s hq => ?_
  cases hl : s.left with
  | nil =>
    rw [advance_of_nil hl]
    rwa [hl] at hq ⊢
  | cons t rest =>
    rw [advance_of_left hl]
    rwa [hl] at hq

theorem takeLead_told {Q : List SignificantToken → Prop} :
    Leads (fun s => Told index s₀ pre s ∧ Q s.left) takeLead
      fun _ s => Told index s₀ pre s ∧ Q s.left :=
  takeLead_accounts.keeps_told.and fun _ hq => hq

/-- A literal of the right kind is taken as it is. -/
theorem lit_told (k : LitKind) :
    Leads (fun s => Told index s₀ pre s ∧ s.current.token.kind.litKind? = some k) (lit k)
      fun l => Told index s₀ (pre ++ { lits := [l] }) := by
  rintro s ⟨hs, hk⟩
  obtain ⟨rest, hl⟩ := left_of_kind hs.ready (s := s) (by intro h; simp [h, TokenKind.litKind?] at hk)
  show Told index s₀ (pre ++ { lits := [⟨(advance s).1.pos, k, (advance s).1.text⟩] }) (advance s).2
  rw [advance_of_left hl]
  have h := hs.step (.take hl) rfl nofun
  simp only [Act.account, hk] at h
  exact h

/-- A literal stands where the token does that it is taken from. -/
theorem lit_pos (k : LitKind) (s : ParseState) : (lit k s).1.pos = s.current.token.pos := by
  show (advance s).1.pos = _
  unfold advance ParseState.current
  cases s.left <;> rfl

/-! ### Reports -/

theorem report_accounts {d : Diagnostic} (hp : d.Plain) (ho : s₀.file.Owns d.span.start)
    (hd : s₀.Shows d) : Accounts index s₀ (report d) fun _ => { faults := [d.span.start] } := by
  intro pre s hs
  exact hs.step (.report hp (hs.file.symm ▸ ho)) rfl fun e he => Option.some.inj he ▸ hd

/-- The second word of a message decides whether it is about a name that is declared twice. -/
theorem plain_of_words (w rest : String) (span : Span) (hw : w.toList.all (· ≠ ' ') = true)
    (hr : rest.toList.head? ≠ some 'r') : (Diagnostic.error (w ++ " " ++ rest) span).Plain := by
  refine ⟨rfl, fun h => hr ?_⟩
  have hafter : afterFirstWord (w ++ " " ++ rest) = ' ' :: rest.toList := by
    unfold afterFirstWord
    rw [String.toList_append, String.toList_append, List.append_assoc,
      List.dropWhile_append_of_pos fun c hc => List.all_eq_true.1 hw c hc]
    rfl
  have htake : (' ' :: rest.toList).take 2 = [' ', 'r'] := hafter ▸ h
  cases hl : rest.toList with
  | nil => simp [hl] at htake
  | cons c cs =>
    rw [hl] at htake
    simpa using htake

theorem plain_expected {what : String} (found : String) (span : Span)
    (h : what.toList.head? ∉ [none, some 'r']) :
    (Diagnostic.error ("expected " ++ what ++ ", found " ++ found) span).Plain := by
  have hmessage : "expected " ++ what ++ ", found " ++ found =
      "expected" ++ " " ++ (what ++ ", found " ++ found) := by
    rw [show "expected " = "expected" ++ " " by decide]
    simp only [String.append_assoc]
  rw [hmessage]
  refine plain_of_words "expected" _ span (by decide) ?_
  rw [String.append_assoc, String.toList_append]
  cases hw : what.toList with
  | nil => simp [hw] at h
  | cons c cs => simpa [hw] using h

theorem plain_invalidImportPath (path : String) (span : Span) :
    (Diagnostic.error ("invalid import path: " ++ path) span).Plain := by
  have hmessage : "invalid import path: " ++ path =
      "invalid" ++ " " ++ ("import path: " ++ path) := by
    rw [show "invalid import path: " = "invalid" ++ " " ++ "import path: " by decide]
    simp only [String.append_assoc]
  rw [hmessage]
  refine plain_of_words _ _ _ (by decide) ?_
  rw [String.toList_append]
  simp

theorem reportExpected_told {what : String} {p : Pos} (h : what.toList.head? ∉ [none, some 'r']) :
    Leads (fun s => Told index s₀ pre s ∧ s.current.token.pos = p) (reportExpected what)
      fun _ => Told index s₀ (pre ++ { faults := [p] }) := by
  rintro s ⟨hs, rfl⟩
  exact report_accounts (plain_expected s.current.token.foundName s.current.token.span h)
    hs.owns_current (.inl hs.holds_current) pre s hs

theorem reportExpected_accounts {what : String} (h : what.toList.head? ∉ [none, some 'r']) :
    Accounts index s₀ (reportExpected what) fun _ => {} := by
  intro pre s hs
  rw [Account.append_nil]
  exact (reportExpected_told h s ⟨hs, rfl⟩).within (Account.within_append rfl)

theorem expectedName_head (k : TokenKind) : k.expectedName.toList.head? ∉ [none, some 'r'] := by
  have h : k.expectedName.toList.head? = some '\'' := by
    unfold TokenKind.expectedName
    split
    · next hk =>
      cases k with
      | punct p => rw [TokenKind.name, String.toList_ofList]; rfl
      | _ => simp [TokenKind.isPunct] at hk
    · rw [String.append_assoc, String.toList_append]; rfl
  rw [h]
  decide

/-! ### Taking what is expected -/

/-- The answer lies in the file, whether or not the token is there. -/
theorem expect_spot (k : TokenKind) :
    Accounts index s₀ (expect k) fun p => { spots := [p] } := by
  intro pre
  refine .pos fun p => .check fun b => ?_
  have hspot : Leads (Told index s₀ (pre ++ { spots := [p] }))
      (do
        if b then
          let _ ← advance
        else
          reportExpected k.expectedName
        return p)
      fun q => Told index s₀ (pre ++ { spots := [q] }) :=
    .ite (fun _ => advance_accounts.skip fun _ => .done rfl)
      fun _ => (reportExpected_accounts (expectedName_head k)).skip fun _ => .done rfl
  refine hspot.imp fun s hs => ?_
  obtain ⟨⟨hs, rfl⟩, -⟩ := hs
  exact hs.again rfl rfl rfl rfl rfl (by simp) (by simpa using hs.owns_current)

/-- What is not there is reported at the token that stands in its place. -/
theorem expect_missing (k : TokenKind) :
    Leads (fun s => Told index s₀ pre s ∧ s.current.token.kind ≠ k) (expect k)
      fun p => Told index s₀ (pre ++ { faults := [p], spots := [p] }) := by
  rintro s ⟨hs, hk⟩
  have hcheck : (s.current.token.kind == k) = false := by simpa using hk
  have hexpect : expect k s =
      (s.current.token.pos, (reportExpected k.expectedName s).2) := by
    simp only [expect, bind_apply, pos, check, hcheck, Bool.false_eq_true, ↓reduceIte]
    rfl
  rw [hexpect]
  have htold := reportExpected_told (expectedName_head k) s ⟨hs, rfl⟩
  have hspot := htold.again (b := { spots := [s.current.token.pos] }) rfl rfl rfl rfl rfl (by simp)
    (by simpa using hs.owns_current)
  rwa [Account.append_assoc] at hspot

theorem expect_accounts (k : TokenKind) : Accounts index s₀ (expect k) fun _ => {} := by
  intro pre s hs
  rw [Account.append_nil]
  exact (expect_spot k pre s hs).within (Account.within_append rfl)

theorem endOfItem_accounts : Accounts index s₀ endOfItem fun _ => {} := by
  intro pre
  refine .kind fun k => .forget ?_
  have hcomma : (TokenKind.punct .semicolon).name.toList.head? ∉ [none, some 'r'] := by decide
  split
  · exact (reportExpected_accounts hcomma).skip fun _ => advance_accounts.skip fun _ => .nothing
  · exact advance_accounts.skip fun _ => .nothing
  · exact .nothing

theorem ident_of_kind {s : ParseState} {rest : List SignificantToken}
    (hl : s.left = s.current :: rest) (hk : s.current.token.kind = .ident) :
    ident s = (⟨s.nextIdent, s.current.token.text, s.current.token.pos⟩,
      { s.took rest with nextIdent := s.nextIdent + 1 }) := by
  simp only [ident, bind_apply, current, hk, ↓reduceIte, advance_of_left hl]
  rfl

/-- An identifier that is there is known not to be missing, and it is spelled like one. -/
theorem ident_told :
    Leads (fun s => Told index s₀ pre s ∧ s.current.token.kind = .ident) ident
      fun i s => Told index s₀ (pre ++ { idents := [i], solid := [i] }) s ∧ i.name ≠ "." := by
  rintro s ⟨hs, hk⟩
  obtain ⟨rest, hl⟩ := left_of_kind hs.ready (s := s) (by rw [hk]; decide)
  rw [ident_of_kind hl hk]
  refine ⟨hs.step (.name hl hk) rfl nofun, fun hperiod => ?_⟩
  have hspelled := hs.ready.spelled _ s.current_mem
  unfold Token.Spelled at hspelled
  rw [hk] at hspelled
  obtain ⟨c, cs, hc, -, htext⟩ := hspelled
  have hlist : ['.'] = c :: cs :=
    (congrArg String.toList (hperiod.symm.trans htext)).trans String.toList_ofList
  obtain ⟨rfl, -⟩ := List.cons.inj hlist
  exact absurd hc (by decide)

theorem ident_accounts : Accounts index s₀ ident Ident.account := by
  intro pre s hs
  by_cases hk : s.current.token.kind = .ident
  · exact (ident_told s ⟨hs, hk⟩).1.within Account.within_solid
  · have hident : ident s = newIdent "_" s.current.token.pos (expect .ident s).2 := by
      simp only [ident, bind_apply, current, hk, ↓reduceIte]
    have hcheck : (s.current.token.kind == TokenKind.ident) = false := by simpa using hk
    have hexpect : (expect .ident s).2 = (reportExpected (TokenKind.expectedName .ident) s).2 := by
      simp only [expect, bind_apply, pos, check, hcheck, Bool.false_eq_true, ↓reduceIte]
      rfl
    have htold := reportExpected_accounts (expectedName_head .ident) pre s hs
    rw [← hexpect] at htold
    have hstand : (expect .ident s).2.current.token.kind ≠ .ident := by rw [hexpect]; exact hk
    have hpos : s.current.token.pos = (expect .ident s).2.current.token.pos := by rw [hexpect]; rfl
    rw [hident, hpos]
    exact (htold.within (Account.within_append rfl)).step (.standIn hstand) rfl nofun

/-- An identifier stands where the token does that is current before. -/
theorem ident_pos (s : ParseState) : (ident s).1.pos = s.current.token.pos := by
  by_cases hk : s.current.token.kind = .ident
  · simp only [ident, bind_apply, current, hk, ↓reduceIte]
    rfl
  · simp only [ident, bind_apply, current, hk, ↓reduceIte]
    rfl

/-- An identifier lies in the file, unless nothing is left of it. -/
theorem ident_held {φ : Prop} :
    Leads (fun s => Told index s₀ pre s ∧ (s.left = [] → φ)) ident fun i s =>
      Told index s₀ (pre ++ i.account) s ∧ (s₀.file.Holds i.span ∨
        φ ∧ i.span = .ofWidth (s₀.file.base + s₀.file.size) 1) := by
  rintro s ⟨hs, hφ⟩
  have htold := ident_accounts pre s hs
  have hmem : (ident s).1 ∈ (pre ++ (ident s).1.account).idents := by simp
  refine ⟨htold, (htold.holds_ident hmem).imp id fun hspan => ⟨hφ (hs.left_eq_nil ?_), hspan⟩⟩
  rw [← ident_pos]
  exact congrArg Span.start hspan

theorem string?_accounts :
    Accounts index s₀ string? fun tag => { lits := tag.toList } := by
  intro pre
  refine .check fun b => .ite (fun hb => ?_) fun _ => .forget (.done (Account.append_nil _).symm)
  refine Leads.bind ((lit_told .string).imp fun s hs => ⟨hs.1, ?_⟩) fun l => .done rfl
  have hk : s.current.token.kind = .string := by simpa [hb] using hs.2
  rw [hk]
  rfl

/-- A token that is used like an identifier is marked, under its own text. -/
theorem mark_bind {β : Type} {k : TokenKind} {f : Ident → Parse β} {Q : β → ParseState → Prop}
    (hk : k.isMark = true)
    (hf : ∀ i, (∃ t : Token, t.Spelled ∧ t.kind = k ∧ t.text = i.name) →
      Leads (Told index s₀ (pre ++ { marks := [i] })) (f i) Q) :
    Leads (fun s => Told index s₀ pre s ∧ s.current.token.kind = k)
      (advance >>= fun t => newIdent t.text t.pos >>= f) Q := by
  rintro s ⟨hs, rfl⟩
  obtain ⟨rest, hl⟩ := left_of_kind hs.ready (s := s) (by intro h; simp [h, TokenKind.isMark] at hk)
  have hspelled := hs.ready.spelled _ s.current_mem
  simp only [bind_apply, advance_of_left hl]
  refine hf _ ⟨s.current.token, hspelled, rfl, rfl⟩ _ ?_
  exact hs.step (.mark hl hk) rfl nofun

theorem identList_accounts : Accounts index s₀ identList (.all Ident.account) := by
  intro pre
  refine ident_accounts.bind fun first => ?_
  refine Leads.bind (Leads.loop pre (fun names : Array Ident => .all Ident.account names.toList)
    (by simp) fun names => ?_) fun names => .done rfl
  refine .check fun b => .forget (.ite (fun _ => ?_) fun _ => .pure fun _ hs => hs)
  refine advance_accounts.skip fun _ => ident_accounts.bind fun i => .pure fun s hs => ?_
  simpa [Account.append_assoc] using hs

/-! ### Types -/

theorem arraySize_accounts : Accounts index s₀ arraySize Value.account := by
  intro pre
  refine .kind fun k => ?_
  split
  · refine Leads.bind ((lit_told .int).imp fun s hs => ⟨hs.1, ?_⟩) fun l => .done rfl
    rw [hs.2]
    rfl
  · exact .forget (ident_accounts.bind fun i => .done rfl)
  · refine .forget (.pos fun p => ?_)
    exact (reportExpected_told (by decide)).bind fun _ => .done rfl

/-- Reporting the current token itself, and not what was expected in its place. -/
theorem report_current {message : String} {t : SignificantToken}
    (h : (Diagnostic.error message t.token.span).Plain) :
    Leads (fun s => Told index s₀ pre s ∧ s.current = t) (report (.error message t.token.span))
      fun _ => Told index s₀ (pre ++ { faults := [t.token.pos] }) :=
  .use (φ := s₀.file.Owns t.token.pos ∧ s₀.file.Holds t.token.span)
    (fun _ hs => hs.2 ▸ ⟨hs.1.owns_current, hs.1.holds_current⟩)
    fun ho => (report_accounts h ho.1 (.inl ho.2) pre).forget

theorem typeNested_accounts (levels : Nat) :
    Accounts index s₀ (typeNested levels) TypeExpr.account := by
  induction levels with
  | zero =>
    intro pre
    refine .current fun t => .ite (fun _ => ?_) fun _ => ?_
    · have hplain : (Diagnostic.error "type nesting too deep" t.token.span).Plain :=
        plain_of_words "type" "nesting too deep" _ (by decide) (by decide)
      exact (report_current hplain).bind fun _ => .done rfl
    · refine Leads.bind ((reportExpected_told (p := t.token.pos) (by decide)).imp fun s hs => ?_)
        fun _ => .done rfl
      exact ⟨hs.1, by rw [hs.2]⟩
  | succ levels ih =>
    intro pre
    refine .check fun b => .ite (fun _ => ?_) fun hb => ?_
    · exact .forget (.pos fun p => (reportExpected_told (by decide)).bind fun _ => .done rfl)
    have hb' : b = true := by simpa using hb
    refine Leads.bind (ident_told.imp fun s hs => ⟨hs.1, by simpa [hb'] using hs.2⟩) fun name => ?_
    refine .forget (.check fun b => .forget (.ite (fun _ => ?_) fun _ => ?_))
    · refine advance_accounts.skip fun _ => ident_accounts.bind fun n => .done ?_
      rw [Account.append_assoc]
      rfl
    -- from here on the name may count for an identifier or for nothing
    have hname {m : Parse TypeExpr} {Q : TypeExpr → ParseState → Prop}
        (h : Leads (Told index s₀ (pre ++ name.account)) m Q) :
        Leads (Told index s₀ (pre ++ { idents := [name], solid := [name] })) m Q :=
      h.imp fun s hs => hs.within Account.within_solid
    have hword {m : Parse TypeExpr} {Q : TypeExpr → ParseState → Prop}
        (h : Leads (Told index s₀ pre) m Q) :
        Leads (Told index s₀ (pre ++ { idents := [name], solid := [name] })) m Q :=
      h.imp fun s hs => hs.within (Account.within_append rfl)
    split
    · exact hname (.done rfl)
    · refine hword ((expect_accounts _).skip fun _ => ih.bind fun key => ?_)
      refine (expect_accounts _).skip fun _ => ih.bind fun value => ?_
      exact (expect_accounts _).skip fun _ => .done (Account.append_assoc ..)
    · refine hword ((expect_accounts _).skip fun _ => ih.bind fun elem => ?_)
      refine (expect_accounts _).skip fun _ => arraySize_accounts.bind fun size => ?_
      exact (expect_accounts _).skip fun _ => .done (Account.append_assoc ..)
    · refine hword ((expect_accounts _).skip fun _ => ih.bind fun elem => ?_)
      exact (expect_accounts _).skip fun _ => .done rfl
    · exact hname (.done rfl)

theorem typeExpr_accounts : Accounts index s₀ typeExpr TypeExpr.account := typeNested_accounts _

/-! ### Signatures -/

theorem param_accounts (sofar : ParamsSoFar) :
    Leads (Told index s₀ (pre ++ .all Param.account sofar.params.toList)) (param sofar)
      fun r => Told index s₀ (pre ++ .all Param.account (r.getD sofar).params.toList) := by
  refine .check fun b => .forget (.atEnd fun e => .forget ?_)
  refine .ite (fun _ => .pure fun _ hs => hs) fun _ => ?_
  refine typeExpr_accounts.bind fun type => .kind fun k => .forget ?_
  have hnone : Account.all Param.account (sofar.params.push ⟨type, none⟩).toList =
      .all Param.account sofar.params.toList ++ type.account := by
    simp [Param.account]
  have hsome (name : Ident) : Account.all Param.account (sofar.params.push ⟨type, some name⟩).toList =
      .all Param.account sofar.params.toList ++ type.account ++ name.account := by
    simp [Param.account, Account.append_assoc]
  split
  · refine ident_accounts.bind fun name => .check fun b => .forget (.ite (fun _ => ?_) fun _ => ?_)
    · refine advance_accounts.skip fun _ => .pure fun s hs => ?_
      simpa only [Option.getD_some, hsome, Account.append_assoc] using hs
    · refine .pure fun s hs => ?_
      simpa only [Option.getD_some, hsome, Account.append_assoc] using hs
  · refine advance_accounts.skip fun _ => .pure fun s hs => ?_
    simpa only [Option.getD_some, hnone, Account.append_assoc] using hs
  · refine .pure fun s hs => ?_
    simpa only [Option.getD_some, hnone, Account.append_assoc] using hs
  · refine .current fun t => ?_
    have hplain : (Diagnostic.error ("unexpected token " ++ t.token.display ++ " after type")
        t.token.span).Plain := by
      have h : "unexpected token " ++ t.token.display ++ " after type" =
          "unexpected" ++ " " ++ ("token " ++ t.token.display ++ " after type") := by
        rw [show "unexpected token " = "unexpected" ++ " " ++ "token " by decide]
        simp only [String.append_assoc]
      rw [h]
      refine plain_of_words _ _ _ (by decide) ?_
      rw [String.append_assoc, String.toList_append]
      simp
    refine (report_current hplain).bind fun _ => .pure fun s hs => ?_
    rw [Option.getD_some, hnone, ← Account.append_assoc]
    exact hs.within (Account.within_append rfl)

theorem paramList_accounts :
    Accounts index s₀ paramList fun l => .all Param.account l.params := by
  intro pre
  refine (expect_accounts _).skip fun opening => ?_
  refine Leads.bind (Leads.loop pre (fun p : ParamsSoFar => .all Param.account p.params.toList)
    (by simp) param_accounts) fun sofar => ?_
  split
  · exact .done rfl
  · exact (expect_accounts _).skip fun _ => .done rfl

theorem methodResult_accounts (openLine : Nat) :
    Accounts index s₀ (methodResult openLine) fun r => .all TypeExpr.account r.toList := by
  intro pre
  refine .check fun b => .forget (.line fun l => .nextKind fun k => .ite (fun _ => ?_) fun _ => ?_)
  · exact typeExpr_accounts.bind fun t => .done (by simp)
  · exact .nothing

theorem signature_accounts :
    Accounts index s₀ signature fun sig => (MemberType.func sig).account := by
  intro pre
  refine .line fun l => paramList_accounts.bind fun params => ?_
  exact (methodResult_accounts l).bind fun result => .done (Account.append_assoc ..)

/-! ### Names -/

theorem handle_accounts (e : NameEvent) : Accounts index s₀ e.run fun _ => { events := [e] } := by
  intro pre s hs
  refine hs.step (.handle e) ?_ nofun
  obtain ⟨_, _, _, _, _, he⟩ := e.run_frame s
  rw [he]

theorem declare_accounts (i : Ident) (kind : ObjectKind) (origin : Origin) (data : Option Int)
    (scope : ScopeId) : Accounts index s₀ (declare i kind origin data scope)
      fun _ => { events := [.declare scope kind origin data i] } :=
  handle_accounts (.declare scope kind origin data i)

theorem resolveIdent_accounts (i : Ident) :
    Accounts index s₀ (resolveIdent i) fun _ => { events := [.refer i] } :=
  handle_accounts (.refer i)

/-- Names that are declared one after the other. -/
theorem declare_all (kind : ObjectKind) (origin : Origin) (data : Option Int) (scope : ScopeId)
    (names : List Ident) : Accounts index s₀
      (names.forM fun name => declare name kind origin data scope)
      fun _ => { events := names.map (.declare scope kind origin data) } := by
  induction names with
  | nil => exact fun pre => .nothing
  | cons name names ih =>
    exact fun pre => (declare_accounts name kind origin data scope).bind fun _ =>
      ih.last fun _ => Account.append_assoc ..

theorem resolveTypeExpr_accounts (t : TypeExpr) :
    Accounts index s₀ (resolveTypeExpr t) fun _ => { events := t.events } := by
  induction t with
  | bad p => exact fun pre => .nothing
  | basic name b => exact fun pre => .nothing
  | array p elem size closing ih =>
    intro pre
    refine ih.bind fun _ => ?_
    cases size with
    | ident i => exact (resolveIdent_accounts i).last fun _ => Account.append_assoc ..
    | _ => exact .done rfl
  | vector p elem closing ih => exact ih
  | map p key value closing ihk ihv =>
    exact fun pre => ihk.bind fun _ => ihv.last fun _ => Account.append_assoc ..
  | named qualifier name =>
    cases qualifier with
    | none => exact resolveIdent_accounts name
    | some q => exact handle_accounts (.qualify ⟨q, name⟩)

theorem resolve_all (params : List Param) : Accounts index s₀
      (params.forM fun p => resolveTypeExpr p.type)
      fun _ => { events := params.flatMap (·.type.events) } := by
  induction params with
  | nil => exact fun pre => .nothing
  | cons p params ih =>
    exact fun pre => (resolveTypeExpr_accounts p.type).bind fun _ =>
      ih.last fun _ => Account.append_assoc ..

theorem resolveMemberType_accounts (t : MemberType) :
    Accounts index s₀ (resolveMemberType t) fun _ => { events := t.events } := by
  cases t with
  | plain t => exact resolveTypeExpr_accounts t
  | func sig =>
    refine fun pre => (resolve_all sig.params).bind fun _ => ?_
    cases h : sig.result with
    | none =>
      refine .done ?_
      simp [MemberType.events, h]
    | some t =>
      refine (resolveTypeExpr_accounts t).last fun _ => ?_
      rw [Account.append_assoc]
      simp only [MemberType.events, h, Option.toList_some, List.flatMap_singleton]
      rfl

/-! ### Members -/

theorem fieldOptions_accounts : Accounts index s₀ fieldOptions fun is => { marks := is } := by
  intro pre
  refine Leads.bind (Leads.loop pre (fun options : Array Ident => { marks := options.toList })
    (pre.append_nil).symm fun options => ?_) fun options => .done rfl
  have hpush (i : Ident) : pre ++ { marks := options.toList } ++ { marks := [i] } =
      pre ++ ({ marks := (options.push i).toList } : Account) := by
    rw [Account.append_assoc, Array.toList_push]
    rfl
  refine .kind fun k => ?_
  split
  · exact mark_bind rfl fun i _ => .pure fun s hs => hpush i ▸ hs
  · exact mark_bind rfl fun i _ => .pure fun s hs => hpush i ▸ hs
  · exact .pure fun s hs => hs.1

theorem typeAndNames_accounts : Accounts index s₀ typeAndNames
    fun r => r.1.account ++ .all Ident.account r.2 := by
  intro pre
  refine .check fun b => .forget (.ite (fun _ => ?_) fun _ => ?_)
  · refine advance_accounts.skip fun _ => typeExpr_accounts.bind fun t => .done ?_
    rw [Account.all_nil, Account.append_nil]
  · exact typeExpr_accounts.bind fun t => identList_accounts.bind fun names =>
      .done (Account.append_assoc ..)

theorem memberOrigin_bind {β : Type} {i : Nat} {f : Origin → Parse β} {Q : β → ParseState → Prop}
    (hf : Leads (Told index s₀ pre) (f (.field s₀.fileId index i)) Q) :
    Leads (Told index s₀ pre) (memberOrigin i >>= f) Q := by
  intro s hs
  have h := hf s hs
  rw [← hs.index, ← hs.fileId] at h
  exact h

theorem field_accounts {kind : BeanKind} (hk : kind = .struct ∨ kind = .protocol)
    (scope : ScopeId) (i : Nat) : Accounts index s₀ (field scope i) fun m =>
      m.account kind ++ { events := m.events kind scope (.field s₀.fileId index i) i } := by
  intro pre
  refine takeLead_accounts.skip fun doc => fieldOptions_accounts.bind fun options =>
    typeAndNames_accounts.bind fun p => string?_accounts.bind fun tag =>
    endOfItem_accounts.skip fun _ => .trailing fun comment => memberOrigin_bind ?_
  refine (declare_all .var _ none scope p.2).bind fun _ =>
    (resolveTypeExpr_accounts p.1).bind fun _ => .done ?_
  have hservice : kind ≠ .service := by rcases hk with rfl | rfl <;> decide
  have henum : kind ≠ .enum := by rcases hk with rfl | rfl <;> decide
  have hkind : kind.memberKind = .var := by rcases hk with rfl | rfl <;> rfl
  simp only [Member.account, Member.events, hservice, henum, hkind, ↓reduceIte]
  simp [Account.append_assoc, MemberType.account, MemberType.events]
  rfl

theorem account_of_methodName? {t : TypeExpr} {name : Ident} (h : methodName? t = some name) :
    t.account = name.account := by
  cases t with
  | named qualifier n =>
    cases qualifier with
    | none => exact congrArg Ident.account (Option.some.inj h)
    | some q => simp [methodName?] at h
  | basic n b => exact congrArg Ident.account (Option.some.inj h)
  | _ => simp [methodName?] at h

theorem nameAndType_accounts : Accounts index s₀ nameAndType
    fun r => .all Ident.account r.1.toList ++ r.2.account := by
  intro pre
  refine typeExpr_accounts.bind fun first => .check fun opens => .forget ?_
  cases h : if opens then methodName? first else none with
  | none => exact .done rfl
  | some name =>
    have hname : methodName? first = some name := by
      cases opens with
      | true => simpa using h
      | false => simp at h
    rw [account_of_methodName? hname]
    refine signature_accounts.bind fun sig => .done ?_
    simp [Account.append_assoc]

theorem method_accounts (scope : ScopeId) (i : Nat) :
    Accounts index s₀ (method scope i) fun m => m.account .service ++
      { events := m.events .service scope (.field s₀.fileId index i) i } := by
  intro pre
  refine takeLead_accounts.skip fun doc => nameAndType_accounts.bind fun p =>
    endOfItem_accounts.skip fun _ => .trailing fun comment => memberOrigin_bind ?_
  refine (declare_all .func _ none scope p.1.toList).bind fun _ =>
    (resolveMemberType_accounts p.2).bind fun _ => .done ?_
  simp [Member.account, Member.events, Account.append_assoc, BeanKind.memberKind]
  rfl

theorem enumValue_accounts : Accounts index s₀ enumValue Value.account := by
  intro pre
  refine .kind fun k => ?_
  split
  · refine Leads.bind ((lit_told .int).imp fun s hs => ⟨hs.1, ?_⟩) fun l => .done rfl
    rw [hs.2]
    rfl
  · exact .forget (ident_accounts.bind fun i => .done rfl)
  · exact .forget (.pos fun p => (reportExpected_told (by decide)).bind fun _ => .done rfl)

theorem endOfEnumerator_accounts : Accounts index s₀ endOfEnumerator fun _ => {} := by
  intro pre
  refine .check fun b => .forget (.ite (fun _ => ?_) fun _ => .nothing)
  exact (expect_accounts _).skip fun _ => .nothing

theorem enumerator_accounts (scope : ScopeId) (i : Nat) :
    Accounts index s₀ (enumerator scope i) fun m => m.account .enum ++
      { events := m.events .enum scope (.field s₀.fileId index i) i } := by
  intro pre
  refine takeLead_accounts.skip fun doc => ident_accounts.bind fun name =>
    (expect_accounts _).skip fun _ => enumValue_accounts.bind fun value =>
    endOfEnumerator_accounts.skip fun _ => .trailing fun comment => memberOrigin_bind ?_
  refine (declare_accounts name .const _ _ scope).bind fun _ => .done ?_
  simp [Member.account, Member.events, Account.append_assoc, BeanKind.memberKind]

theorem member?_accounts (kind : BeanKind) (scope : ScopeId) (i : Nat) :
    Accounts index s₀ (member? kind scope i) fun m => .all (fun m => m.account kind ++
      { events := m.events kind scope (.field s₀.fileId index i) i }) m.toList := by
  intro pre
  refine .current fun t => .forget ?_
  split
  case h_1 => exact (method_accounts scope i).option pre
  case h_2 => exact (enumerator_accounts scope i).option pre
  case h_11 => exact .nothing
  case h_3 | h_4 | h_5 | h_6 => exact (field_accounts (.inl rfl) scope i).option pre
  case h_7 | h_8 | h_9 | h_10 => exact (field_accounts (.inr rfl) scope i).option pre

/-- A further member is told of behind those before it. -/
theorem membersAccount_push (kind : BeanKind) (scope : ScopeId) (file : FileId) (decl i : Nat)
    (ms : List Member) (m : Member) :
    membersAccount kind scope file decl i (ms ++ [m]) = membersAccount kind scope file decl i ms ++
      (m.account kind ++
        { events := m.events kind scope (.field file decl (i + ms.length)) (i + ms.length) }) := by
  induction ms generalizing i with
  | nil => simp [membersAccount]
  | cons x ms ih =>
    have h : i + 1 + ms.length = i + (ms.length + 1) := by omega
    rw [List.cons_append, membersAccount, ih, h, membersAccount]
    exact (Account.append_assoc ..).symm

/-- Creating a scope. -/
theorem enter_bind {β : Type} {t : ParseState} {f : PUnit → Parse β} {Q : β → ParseState → Prop}
    (hf : Leads (Told index s₀ (pre ++ { events := [.enter] })) (f ()) Q) :
    Leads (fun s => Told index s₀ pre s ∧ s = t)
      (set { t with symbols := (t.symbols.newScope (some t.fileScope)).2 } >>= f) Q := by
  rintro s ⟨hs, rfl⟩
  exact hf _ (handle_accounts .enter pre s hs)

/-- The members of a bean get the next scope. -/
theorem bean_accounts (kind : BeanKind) :
    Leads (Told index s₀ pre) (bean kind) fun b => Told index s₀
      (pre ++ b.account s₀.fileScope (s₀.symbols.scopes.size + NameEvent.enters pre.events)
        s₀.fileId index) := by
  refine takeLead_accounts.skip fun doc => advance_accounts.skip fun t =>
    ident_accounts.bind fun name => string?_accounts.bind fun tag => .get fun t => ?_
  refine .use (φ := t.fileScope = s₀.fileScope ∧ t.symbols.scopes.size =
      s₀.symbols.scopes.size + NameEvent.enters pre.events) (fun s hs => ?_) fun ht => ?_
  · obtain ⟨hs, rfl⟩ := hs
    refine ⟨hs.fileScope, ?_⟩
    rw [hs.scopes_size]
    simp
  obtain ⟨hfileScope, hscope⟩ := ht
  simp only [SymbolTable.newScope, hscope]
  refine enter_bind ((expect_accounts _).skip fun opening => ?_)
  refine Leads.bind (Leads.loop _ (fun members : Array Member => membersAccount kind
    (s₀.symbols.scopes.size + NameEvent.enters pre.events) s₀.fileId index 0 members.toList)
    (Account.append_nil _).symm fun members => ?_) fun members => ?_
  · refine (member?_accounts kind _ members.size).bind fun m => .pure fun s hs => ?_
    cases m with
    | none => simpa using hs
    | some m =>
      simp only [Option.map_some, Option.getD_some, Array.toList_push, membersAccount_push]
      simpa [Account.append_assoc] using hs
  refine (expect_accounts _).skip fun closing => .get fun t' => ?_
  refine .use (φ := t'.fileId = s₀.fileId ∧ t'.declIndex = index) (fun s hs => ?_) fun ht => ?_
  · obtain ⟨hs, rfl⟩ := hs
    exact ⟨hs.fileId, hs.index⟩
  obtain ⟨hfileId, hindex⟩ := ht
  rw [hfileId, hindex, hfileScope]
  refine .forget ((declare_accounts name .bean _ none _).bind fun _ => .done ?_)
  simp [Bean.account, Account.append_assoc]
  rfl

/-! ### Groups of specifications -/

/-- A group adds up accounts when each of its specifications does.  `R` says what the ones before
leave behind for the next one, and `φ` is known if nothing is left behind the keyword. -/
theorem specGroup_accounts {α β : Type} {spec : Option CommentGroup → Nat → β → Parse (α × β)}
    {start : β} {A : List α → Account} {R : List α → β → Prop} {φ : Prop} (hA : A [] = {})
    (hR : R [] start)
    (h : ∀ pre doc xs b, R xs b → Leads (fun s => Told index s₀ (pre ++ A xs) s ∧ (s.left = [] → φ))
      (spec doc xs.length b)
      fun r s => Told index s₀ (pre ++ A (xs ++ [r.1])) s ∧ R (xs ++ [r.1]) r.2) :
    Leads (fun s => Told index s₀ pre s ∧ (s.left.tail = [] → φ)) (specGroup spec start)
      fun g => Told index s₀ (pre ++ A g.specs) := by
  refine Leads.bind (takeLead_told (Q := fun left => left.tail = [] → φ)) fun doc => ?_
  refine Leads.bind (advance_told (Q := fun left => left = [] → φ)) fun t => ?_
  refine .check fun b => .forget (.ite (fun _ => ?_) fun _ => ?_)
  · refine .forget (advance_accounts.skip fun t' => ?_)
    let I : Array α × β → ParseState → Prop := fun sofar s =>
      Told index s₀ (pre ++ A sofar.1.toList) s ∧ R sofar.1.toList sofar.2
    refine Leads.bind (Q := I) (Leads.imp (Leads.iterate (I := I) (fun sofar => ?_) (#[], start))
      fun s hs => ⟨by simpa [hA] using hs, hR⟩) fun sofar => ?_
    · refine .use (φ := R sofar.1.toList sofar.2) (fun s hs => hs.2) fun hb => .forget ?_
      refine .check fun closes => .forget (.atEnd fun e => .ite (fun _ => ?_) fun hmore => ?_)
      · exact .pure fun s hs => ⟨hs.1, hb⟩
      -- something is left of the file, so nothing is claimed of its end
      have hopen (s : ParseState) (he : s.left.isEmpty = e) (hnil : s.left = []) : φ := by
        rw [hnil] at he
        simp [← he] at hmore
      refine .get fun s => .forget ?_
      refine Leads.bind (Leads.imp (takeLead_told (Q := fun left => left = [] → φ))
        fun s hs => ⟨hs.1, hopen s hs.2⟩) fun doc => ?_
      refine Leads.bind (h pre doc sofar.1.toList sofar.2 hb) fun r => ?_
      refine .use (φ := R (sofar.1.toList ++ [r.1]) r.2) (fun s hs => hs.2) fun hr => .forget ?_
      have hdone (s : ParseState) (hs : Told index s₀ (pre ++ A (sofar.1.toList ++ [r.1])) s) :
          I (sofar.1.push r.1, r.2) s := by
        show Told index s₀ (pre ++ A (sofar.1.push r.1).toList) s ∧ R (sofar.1.push r.1).toList r.2
        rw [Array.toList_push]
        exact ⟨hs, hr⟩
      refine .get fun s => .forget (.ite (fun _ => ?_) fun _ => .pure hdone)
      exact advance_accounts.skip fun _ => .pure hdone
    · exact .forget ((expect_accounts _).skip fun _ => .done rfl)
  · refine Leads.bind ((h pre none [] start hR).imp fun s hs => by simpa [hA] using hs) fun r => ?_
    exact .forget (.done rfl)

/-! ### Imports -/

theorem importName_accounts : Accounts index s₀ importName fun r =>
    match r with
    | none => {}
    | some i => if i.name = "." then { marks := [i] } else i.account := by
  intro pre
  refine .kind fun k => ?_
  split
  · refine mark_bind rfl fun i hi => .done ?_
    obtain ⟨t, hspelled, hkind, htext⟩ := hi
    have hname : i.name = "." := by
      rw [← htext]
      unfold Token.Spelled at hspelled
      rw [hkind] at hspelled
      exact hspelled
    simp [hname]
  · refine Leads.bind ident_told fun i => .use (fun s hs => hs.2) fun hi => .forget ?_
    refine .pure fun s hs => ?_
    simp only [if_neg hi]
    exact hs.within Account.within_solid
  · exact .forget (.done (Account.append_nil _).symm)

theorem importPath_accounts : Accounts index s₀ importPath Lit.pathAccount := by
  intro pre
  refine .current fun t => .ite (fun hk => ?_) fun hk => ?_
  · refine .use (φ := s₀.file.Owns t.token.pos ∧ s₀.file.Holds t.token.span)
      (fun s hs => hs.2 ▸ ⟨hs.1.owns_current, hs.1.holds_current⟩) fun ho => ?_
    have htold : Leads (fun s => Told index s₀ pre s ∧ s.current = t) (lit .string)
        fun l s => Told index s₀ (pre ++ { lits := [l] }) s ∧ l.pos = t.token.pos := by
      rintro s ⟨hs, rfl⟩
      exact ⟨lit_told .string s ⟨hs, by rw [hk]; rfl⟩, lit_pos .string s⟩
    refine Leads.bind htold fun path => .use (fun s hs => hs.2) fun hpos => .forget ?_
    -- the literal stands in the file, and what is told besides are reports
    have hdone (a : Account) (ha : a.events = [])
        (hfaults : ∀ p ∈ path.pathAccount.faults, p ∈ a.faults) (s : ParseState)
        (hs : Told index s₀ (pre ++ { lits := [path] } ++ a) s) :
        Told index s₀ (pre ++ path.pathAccount) s := by
      have hspot : ∀ p ∈ path.pathAccount.spots, s₀.file.Owns p := by
        intro p hp
        rw [List.mem_singleton.1 hp]
        exact hs.owns_lit (by simp)
      have hall := hs.again (b := path.pathAccount) rfl rfl rfl rfl rfl
        (fun p hp => List.mem_append_right _ (hfaults p hp)) hspot
      rw [Account.append_assoc pre] at hall
      exact hall.within (Account.within_insert ha)
    refine .ite (fun _ => ?_) fun hvalid => .pure fun s hs => ?_
    · have hplain := plain_invalidImportPath path.text t.token.span
      refine (report_accounts hplain ho.1 (.inl ho.2)).bind fun _ => ?_
      refine .pure (hdone _ rfl fun p hp => ?_)
      exact List.mem_singleton.2 ((Lit.mem_faults_pathAccount.1 hp).2.trans hpos)
    · refine hdone {} rfl (fun p hp => ?_) s (by rwa [Account.append_nil])
      simp [(Lit.mem_faults_pathAccount.1 hp).1] at hvalid
  · exact Leads.bind ((expect_missing .string).imp fun s hs => ⟨hs.1, hs.2 ▸ hk⟩) fun p => .done rfl

theorem importSpec_accounts (doc : Option CommentGroup) (i : Nat) :
    Accounts index s₀ (importSpec doc i ()) fun r => r.1.account := fun _ =>
  importName_accounts.bind fun _ => importPath_accounts.bind fun _ =>
    endOfItem_accounts.skip fun _ => .trailing fun _ => .done (Account.append_assoc ..)

/-! ### Constants -/

theorem constValue_accounts : Accounts index s₀ constValue Value.ownAccount := by
  intro pre
  have hlit (k : LitKind) (tk : TokenKind) (htk : tk.litKind? = some k) :
      Leads (fun s => Told index s₀ pre s ∧ s.current.token.kind = tk) (do return Value.lit (← lit k))
        fun v => Told index s₀ (pre ++ v.ownAccount) :=
    Leads.bind ((lit_told k).imp fun s hs => ⟨hs.1, by rw [hs.2, htk]⟩) fun l => .done rfl
  refine .kind fun k => ?_
  split
  · exact hlit .int .int rfl
  · exact hlit .float .float rfl
  · exact hlit .string .string rfl
  · exact .forget (ident_accounts.bind fun i => (resolveIdent_accounts i).bind fun _ =>
      .done (Account.append_assoc ..))
  · exact .forget (.pos fun p => (reportExpected_told (by decide)).bind fun _ => .done rfl)

theorem ownValue_accounts :
    Accounts index s₀ ownValue fun r => .all Value.ownAccount r.toList := by
  intro pre
  refine .check fun b => .forget (.ite (fun _ => ?_) fun _ => .nothing)
  exact advance_accounts.skip fun _ => constValue_accounts.bind fun v => .done (by simp)

/-- Only the first constant of a group is reported for having no value. -/
theorem requireValue_accounts (name : Ident) (i : Nat) (own : Option Value)
    (ho : s₀.file.Owns name.pos)
    (hd : s₀.Shows (.error "missing constant value" name.span)) :
    Accounts index s₀ (requireValue name i own) fun _ =>
      if own = none ∧ i = 0 then { faults := [name.pos] } else {} := by
  intro pre
  have hplain : (Diagnostic.error "missing constant value" name.span).Plain :=
    plain_of_words "missing" "constant value" _ (by decide) (by decide)
  refine .ite (fun h => ?_) fun h => ?_
  · have hn : own = none ∧ i = 0 := by simpa using h
    refine (report_accounts hplain ho hd).last fun _ => ?_
    rw [if_pos hn]
    rfl
  · have hn : ¬ (own = none ∧ i = 0) := by simpa using h
    refine .done ?_
    rw [if_neg hn, Account.append_nil]

/-- What the constants so far leave behind for the next one: the value of the last of them, which
was told of, and where the first of them stands. -/
structure Inherits (a : Account) (first : Option Pos) (previous : Option Value) : Prop where
  missing : previous = none → ∀ p ∈ first, p ∈ a.faults
  bad : ∀ p, previous = some (.bad p) → p ∈ a.faults
  ident : ∀ i, previous = some (.ident i) → i ∈ a.idents
  lit : ∀ l, previous = some (.lit l) → l ∈ a.lits

namespace Inherits

variable {first : Option Pos} {previous : Option Value} {s : ParseState}

theorem mono (h : Inherits pre first previous) (a : Account) : Inherits (pre ++ a) first previous where
  missing hn p hp := List.mem_append_left _ (h.missing hn p hp)
  bad p hp := List.mem_append_left _ (h.bad p hp)
  ident i hi := List.mem_append_left _ (h.ident i hi)
  lit l hl := List.mem_append_left _ (h.lit l hl)

theorem mono_left (h : Inherits pre first previous) (a : Account) :
    Inherits (a ++ pre) first previous where
  missing hn p hp := List.mem_append_right _ (h.missing hn p hp)
  bad p hp := List.mem_append_right _ (h.bad p hp)
  ident i hi := List.mem_append_right _ (h.ident i hi)
  lit l hl := List.mem_append_right _ (h.lit l hl)

/-- What is inherited was told of before. -/
theorem told (h : Inherits pre first previous) (hs : Told index s₀ pre s) {p : Pos}
    (hp : first = none → p ∈ pre.faults) :
    Told index s₀ (pre ++ constValueAccount previous (first.getD p) previous) s := by
  have hfault {q : Pos} (hq : q ∈ pre.faults) : Told index s₀ (pre ++ { faults := [q] }) s :=
    hs.again rfl rfl rfl rfl rfl (by simpa using hq) (by simp)
  have hsame {v : Value} (hv : ∀ q, v ≠ .bad q) (q : Pos) :
      constValueAccount (some v) q (some v) = {} := by
    cases v with
    | bad q => exact absurd rfl (hv q)
    | _ => exact if_pos rfl
  cases previous with
  | none =>
    refine hfault ?_
    cases first with
    | none => exact hp rfl
    | some q => exact h.missing rfl q rfl
  | some v =>
    cases v with
    | bad q => exact hfault (h.bad q rfl)
    | ident i => rwa [hsame (by simp), Account.append_nil]
    | lit l => rwa [hsame (by simp), Account.append_nil]

/-- What is not inherited is told of now: an identifier or literal that was told of before would be
told of twice. -/
theorem own {v : Value} (h : Inherits pre first previous)
    (hs : Told index s₀ (pre ++ v.ownAccount) s) (p : Pos) :
    constValueAccount previous p (some v) = v.ownAccount := by
  cases v with
  | bad q => rfl
  | ident i =>
    have hne : previous ≠ some (.ident i) := by
      intro heq
      have hnodup := hs.idents_nodup
      exact (List.nodup_append.1 hnodup).2.2 i (h.ident i heq) i (List.mem_singleton.2 rfl) rfl
    exact if_neg hne
  | lit l =>
    have hne : previous ≠ some (.lit l) := by
      intro heq
      have hnodup := hs.lits_nodup
      exact (List.nodup_append.1 hnodup).2.2 l (h.lit l heq) l (List.mem_singleton.2 rfl) rfl
    exact if_neg hne

/-- What a constant leaves behind for the next one. -/
theorem next (outer : ScopeId) (file : FileId) (decl i : Nat) (spec : ConstSpec)
    (h : Inherits pre first previous) :
    Inherits (pre ++ spec.account outer file decl i previous first)
      (first <|> some spec.name.pos) spec.value where
  missing hn p hp := by
    have hp : p = first.getD spec.name.pos := by
      cases first with
      | none => exact (Option.some.inj hp).symm
      | some q => exact (Option.some.inj hp).symm
    simp [ConstSpec.account, hn, constValueAccount, hp]
  bad p hp := by simp [ConstSpec.account, hp, constValueAccount]
  ident i hi := by
    by_cases heq : previous = some (.ident i)
    · exact List.mem_append_left _ (h.ident i heq)
    · simp [ConstSpec.account, hi, constValueAccount, heq, Value.ownAccount]
  lit l hl := by
    by_cases heq : previous = some (.lit l)
    · exact List.mem_append_left _ (h.lit l heq)
    · simp [ConstSpec.account, hl, constValueAccount, heq, Value.ownAccount, Value.account]

end Inherits

theorem constSpec_told {first : Option Pos} {previous : Option Value} (doc : Option CommentGroup)
    (i : Nat) (h : Inherits pre first previous) (hfirst : first = none → i = 0) :
    Leads (fun s => Told index s₀ pre s ∧ (s.left = [] → s₀.EndsIn (.keyword .const)))
      (constSpec doc i previous) fun r s => Told index s₀ (pre ++ r.1.account s₀.fileScope s₀.fileId index i previous first) s ∧
        r.2 = r.1.value := by
  refine Leads.bind ident_held fun name => .use (fun s hs => hs.2) fun hheld => .forget ?_
  refine ownValue_accounts.bind fun own =>
    endOfItem_accounts.skip fun _ => .trailing fun comment => ?_
  have hd : s₀.Shows (.error "missing constant value" name.span) :=
    hheld.imp id fun h => ⟨h.1, by rw [h.2]; rfl⟩
  refine .use (φ := s₀.file.Owns name.pos) (fun s hs => hs.owns_ident (by simp)) fun ho => ?_
  refine (requireValue_accounts name i own ho hd).bind fun _ => ?_
  have hvalue (s : ParseState) (hs : Told index s₀ (pre ++ name.account ++
      Account.all Value.ownAccount own.toList ++
      if own = none ∧ i = 0 then { faults := [name.pos] } else {}) s) :
      Told index s₀ (pre ++ name.account ++
        constValueAccount previous (first.getD name.pos) (own <|> previous)) s := by
    cases own with
    | none =>
      have hfault (hn : first = none) : name.pos ∈ (pre ++ name.account ++ ({} : Account) ++
          if (none : Option Value) = none ∧ i = 0 then { faults := [name.pos] } else {}).faults := by
        simp [hfirst hn]
      have htold := (((h.mono name.account).mono {}).mono _).told hs hfault
      rw [Account.append_nil] at htold
      refine htold.within (Account.within_insert ?_)
      split <;> rfl
    | some v =>
      have hs : Told index s₀ (pre ++ name.account ++ v.ownAccount) s := by simpa using hs
      show Told index s₀ (pre ++ name.account ++ constValueAccount _ _ (some v)) s
      rw [(h.mono name.account).own hs]
      exact hs
  refine Leads.imp ?_ hvalue
  refine .get fun t => ?_
  refine .use (φ := t.fileId = s₀.fileId ∧ t.declIndex = index ∧ t.fileScope = s₀.fileScope)
    (fun s hs => ?_) fun ht => ?_
  · obtain ⟨hs, rfl⟩ := hs
    exact ⟨hs.fileId, hs.index, hs.fileScope⟩
  obtain ⟨hfileId, hindex, hfileScope⟩ := ht
  rw [hfileId, hindex, hfileScope]
  refine .forget ((declare_accounts name .const _ _ _).bind fun _ => .pure fun s hs => ⟨?_, rfl⟩)
  rw [ConstSpec.account, ← Account.append_assoc, ← Account.append_assoc]
  exact hs

/-- A further constant is told of behind those before it. -/
theorem constsAccount_push (outer : ScopeId) (file : FileId) (decl i : Nat)
    (previous : Option Value) (first : Option Pos) (ss : List ConstSpec) (s : ConstSpec) :
    constsAccount outer file decl i previous first (ss ++ [s]) =
      constsAccount outer file decl i previous first ss ++
        s.account outer file decl (i + ss.length) ((ss.getLast?.map (·.value)).getD previous)
          (first <|> ss.head?.map (·.name.pos)) := by
  induction ss generalizing i previous first with
  | nil => simp [constsAccount]
  | cons x ss ih =>
    have hlength : i + 1 + ss.length = i + (ss.length + 1) := by omega
    have hlast : (ss.getLast?.map (·.value)).getD x.value =
        (((x :: ss).getLast?).map (·.value)).getD previous := by
      cases h : ss.getLast? with
      | none => simp [List.getLast?_eq_none_iff.1 h]
      | some y => simp [List.getLast?_cons, h]
    have hfirst : ((first <|> some x.name.pos) <|> ss.head?.map (·.name.pos)) =
        (first <|> (x :: ss).head?.map (·.name.pos)) := by
      cases first <;> rfl
    rw [List.cons_append, constsAccount, ih, hlength, hlast, hfirst, constsAccount]
    exact (Account.append_assoc ..).symm

theorem consts_told : Leads
    (fun s => Told index s₀ pre s ∧ (s.left.tail = [] → s₀.EndsIn (.keyword .const)))
    (specGroup constSpec none) fun g => Told index s₀ (pre ++
      constsAccount s₀.fileScope s₀.fileId index 0 none none g.specs) := by
  let A : List ConstSpec → Account := constsAccount s₀.fileScope s₀.fileId index 0 none none
  let R (ss : List ConstSpec) (previous : Option Value) : Prop :=
    previous = (ss.getLast?.map (·.value)).getD none ∧
      Inherits (A ss) (ss.head?.map (·.name.pos)) previous
  refine specGroup_accounts (A := A) (R := R) rfl ⟨rfl, by constructor <;> simp⟩ ?_
  intro pre doc ss previous hR
  obtain ⟨hprevious, hinherits⟩ := hR
  have hfirst (hn : ss.head?.map (·.name.pos) = none) : ss.length = 0 := by
    rw [Option.map_eq_none_iff, List.head?_eq_none_iff] at hn
    rw [hn]
    rfl
  intro s hs
  obtain ⟨htold, hvalue⟩ := constSpec_told doc ss.length (hinherits.mono_left pre) hfirst s hs
  have hpush (x : ConstSpec) : A (ss ++ [x]) =
      A ss ++ x.account s₀.fileScope s₀.fileId index ss.length previous
        (ss.head?.map (·.name.pos)) := by
    show constsAccount _ _ _ _ _ _ _ = _
    rw [constsAccount_push, Nat.zero_add, ← hprevious]
    rfl
  refine ⟨?_, ?_, ?_⟩
  · rw [hpush, ← Account.append_assoc]
    exact htold
  · rw [hvalue]
    simp
  · rw [hpush, hvalue]
    have hnext := hinherits.next s₀.fileScope s₀.fileId index ss.length
      (constSpec doc ss.length previous s).1.1
    cases ss with
    | nil => exact hnext
    | cons x ss => exact hnext

theorem imports_accounts : Accounts index s₀ (specGroup importSpec ()) fun g =>
    .all ImportSpec.account g.specs := by
  intro pre
  refine Leads.imp (specGroup_accounts (A := .all ImportSpec.account) (R := fun _ _ => True)
    (φ := True) rfl trivial ?_) fun s hs => ⟨hs, fun _ => trivial⟩
  rintro pre doc ss _ _ s ⟨hs, -⟩
  refine ⟨?_, trivial⟩
  rw [Account.all_append, ← Account.append_assoc]
  simpa using importSpec_accounts doc ss.length _ s hs

/-! ### Declarations -/

/-- The parser notes where it stopped. -/
theorem note_bind {β : Type} {t : ParseState} {p : Pos} {n : Nat} {f : PUnit → Parse β}
    {Q : β → ParseState → Prop} (hf : Leads (Told index s₀ pre) (f ()) Q) :
    Leads (fun s => Told index s₀ pre s ∧ s = t)
      (set { t with syncPos := p, syncStops := n } >>= f) Q := by
  rintro s ⟨hs, rfl⟩
  exact hf _ (hs.quiet (.note s.lead s.declIndex p n) rfl rfl rfl)

theorem skipToDecl_accounts : Accounts index s₀ skipToDecl fun _ => {} := by
  intro pre
  refine Leads.loop pre (fun _ => {}) pre.append_nil.symm fun _ => ?_
  rw [Account.append_nil]
  refine .get fun t => .ite (fun _ => .forget (.pure fun _ hs => hs)) fun _ => ?_
  refine .ite (fun _ => note_bind (.pure fun _ hs => hs)) fun _ => ?_
  refine .ite (fun _ => note_bind (.pure fun _ hs => hs)) fun _ => ?_
  exact .forget (advance_accounts.skip fun _ => .pure fun _ hs => hs)

/-- A bean gets the next scope for its members. -/
theorem decl_accounts :
    Leads (Told index s₀ pre) decl fun d => Told index s₀ (pre ++ d.account s₀.fileScope
      (s₀.symbols.scopes.size + NameEvent.enters pre.events) s₀.fileId index) := by
  refine .kind fun k => ?_
  split
  · refine Leads.bind (consts_told.imp fun s hs => ⟨hs.1, fun hleft => ?_⟩) fun g =>
      .pure fun _ hs => hs
    obtain ⟨rest, hl⟩ := left_of_kind hs.1.ready (s := s) (by rw [hs.2]; decide)
    have hrest : rest = [] := by rwa [hl] at hleft
    exact hs.2 ▸ hs.1.endsIn (hrest ▸ hl)
  · exact .forget (Leads.bind (bean_accounts .struct) fun b => .pure fun _ hs => hs)
  · exact .forget (Leads.bind (bean_accounts .protocol) fun b => .pure fun _ hs => hs)
  · exact .forget (Leads.bind (bean_accounts .service) fun b => .pure fun _ hs => hs)
  · exact .forget (Leads.bind (bean_accounts .enum) fun b => .pure fun _ hs => hs)
  · refine .forget (.pos fun start => ?_)
    refine Leads.bind (reportExpected_told (by decide)) fun _ => ?_
    refine skipToDecl_accounts.skip fun _ => .pos fun stop => .pure fun s hs => ?_
    exact hs.1

/-! ### Files -/

/-- A further declaration is told of behind those before it. -/
theorem declsAccount_push (outer scope : ScopeId) (file : FileId) (i : Nat) (ds : List Decl)
    (d : Decl) :
    declsAccount outer scope file i (ds ++ [d]) = declsAccount outer scope file i ds ++
      d.account outer (scope + (ds.map Decl.scopeCount).sum) file (i + ds.length) := by
  induction ds generalizing scope i with
  | nil => simp [declsAccount]
  | cons x ds ih =>
    have hlength : i + 1 + ds.length = i + (ds.length + 1) := by omega
    have hscope : scope + x.scopeCount + (ds.map Decl.scopeCount).sum =
        scope + ((x :: ds).map Decl.scopeCount).sum := by
      rw [List.map_cons, List.sum_cons, Nat.add_assoc]
    rw [List.cons_append, declsAccount, ih, hlength, hscope, declsAccount]
    exact (Account.append_assoc ..).symm

/-- Declarations add up, with one index after the other. -/
theorem declsWhile_told {more : Parse Bool} {one : Parse Decl} {decls : Array Decl}
    (hmore : ∀ s, (more s).2 = s) (hpre : NameEvent.enters pre.events = 0)
    (hone : ∀ i pre, Leads (Told i s₀ pre) one fun d => Told i s₀ (pre ++
      d.account s₀.fileScope (s₀.symbols.scopes.size + NameEvent.enters pre.events) s₀.fileId i)) :
    let I (decls : Array Decl) (s : ParseState) : Prop := ∃ i, Told i s₀ (pre ++
      declsAccount s₀.fileScope s₀.symbols.scopes.size s₀.fileId 0 decls.toList) s
    Leads (I decls) (declsWhile more one decls) I := by
  intro I
  refine Leads.iterate (fun decls => ?_) decls
  refine Leads.bind (Q := fun _ => I decls) (fun s hs => by rw [hmore]; exact hs) fun b => ?_
  refine .ite (fun _ => ?_) fun _ => .pure fun _ hs => hs
  let before : Account := pre ++
    declsAccount s₀.fileScope s₀.symbols.scopes.size s₀.fileId 0 decls.toList
  have hindex : Leads (I decls) (modify fun s => { s with declIndex := decls.size })
      fun _ => Told decls.size s₀ before := by
    rintro s ⟨i, hs⟩
    obtain ⟨tr, r, htr⟩ := hs.run
    refine ⟨hs.start, rfl, tr ++ [.note], r.append (Step.note s.lead _ s.syncPos s.syncStops).run, ?_⟩
    simpa [Act.account] using htr.append (Act.tells .note nofun)
  refine Leads.bind hindex fun _ => Leads.bind (hone decls.size before) fun d => ?_
  refine .pure fun s hs => ⟨decls.size, ?_⟩
  have hscope : NameEvent.enters before.events = (decls.toList.map Decl.scopeCount).sum := by
    rw [Account.events_append, NameEvent.enters_append, hpre, enters_declsAccount, Nat.zero_add]
  rw [Option.getD_some, Array.toList_push, declsAccount_push, ← Account.append_assoc, ← hscope,
    Nat.zero_add, Array.length_toList]
  exact hs

theorem packageName_accounts : Accounts index s₀ packageName Ident.account := by
  intro pre
  refine .current fun t => ?_
  by_cases hkind : t.token.kind = .ident
  · refine Leads.bind (ident_told.imp fun s hs => ⟨hs.1, by rw [hs.2, hkind]⟩) fun name => ?_
    refine .forget (.use (φ := s₀.file.Owns name.pos ∧ s₀.file.Holds name.span)
      (fun s hs => ⟨hs.owns_ident (by simp), hs.holds_solid (by simp)⟩) fun ho => ?_)
    refine Leads.imp (.ite (fun _ => ?_) fun _ => .done rfl) fun s hs =>
      hs.within Account.within_solid
    have hplain : (Diagnostic.error "invalid package name _" name.span).Plain :=
      plain_of_words "invalid" "package name _" _ (by decide) (by decide)
    exact (report_accounts hplain ho.1 (.inl ho.2)).bind fun _ => .pure fun s hs =>
      hs.within (Account.within_append rfl)
  · refine .forget (ident_accounts.bind fun name => ?_)
    exact .ite (fun h => by simp [hkind] at h) fun _ => .done rfl

/-- A file is parsed as its account tells, and then its pending names get another look. -/
theorem file_told (comments : List CommentGroup) :
    Leads (Told index s₀ {}) (file comments) fun f s =>
      (f.id = s₀.fileId ∧ f.filename = s₀.file.name ∧ f.scope = s₀.fileScope ∧
        f.qualified = s.qualified.toList ∧ f.resolutions = s.resolutions) ∧
      ∃ i s₁, Told i s₀ (f.account s₀.symbols.scopes.size) s₁ ∧
        settlePending s₁ = (f.unresolved, s) := by
  refine takeLead_accounts.skip fun doc => (expect_spot _).bind fun packagePos =>
    packageName_accounts.bind fun name => endOfItem_accounts.skip fun _ => ?_
  let before : Account := { spots := [packagePos] } ++ name.account
  let I (decls : Array Decl) (s : ParseState) : Prop := ∃ i, Told i s₀ (before ++
    declsAccount s₀.fileScope s₀.symbols.scopes.size s₀.fileId 0 decls.toList) s
  have himports (i : Nat) (pre : Account) :
      Leads (Told i s₀ pre) (Decl.imports <$> specGroup importSpec ()) fun d => Told i s₀ (pre ++
        d.account s₀.fileScope (s₀.symbols.scopes.size + NameEvent.enters pre.events)
          s₀.fileId i) := .map (imports_accounts pre)
  have hbefore : NameEvent.enters before.events = 0 := rfl
  refine Leads.bind (Q := I) (Leads.imp (declsWhile_told (fun _ => rfl) hbefore himports)
    fun s hs => ⟨index, by simpa [before, declsAccount] using hs⟩) fun imports => ?_
  refine Leads.bind (Q := I) (declsWhile_told (fun _ => rfl) hbefore
    fun _ _ => decl_accounts) fun decls => ?_
  rintro s ⟨i, hs⟩
  have hsettled : ((settlePending s).2.fileId = s₀.fileId ∧
      (settlePending s).2.file.name = s₀.file.name ∧ (settlePending s).2.fileScope = s₀.fileScope) :=
    ⟨hs.fileId, congrArg SourceFile.name hs.file, hs.fileScope⟩
  refine ⟨⟨hsettled.1, hsettled.2.1, hsettled.2.2, rfl, rfl⟩, i, s, ?_, rfl⟩
  show Told i s₀ (before ++ declsAccount (settlePending s).2.fileScope _
    (settlePending s).2.fileId 0 decls.toList) s
  rw [hsettled.2.2, hsettled.1]
  exact hs

end Parse

end Idl
