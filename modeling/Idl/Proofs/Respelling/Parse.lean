/-
Idl/Proofs/Respelling/Parse.lean

Parsing a respelled file.

`s.Follows ρ s'` says that the state `s'` is the state `s`, respelled; its file has the lines of the
file of `s`, and as much has been reported, if in other words, since messages quote the sources and
name places in them.  `Respells ρ φ m n` says that the step `n` does in such a state what `m` does in
the state that it follows.  Steps that read or change the state do so one by one, and the rest of the
module goes through the grammar.

Where the grammar takes the text of a token it knows the kind of the token, and that is what says how
the text is respelled: `FollowsAt` keeps the kind of the current token in mind for those steps.

Main result: the tree of a respelled file is the tree of the file, respelled (`file_respells`).
-/
import Idl.Proofs.Alike
import Idl.Proofs.Respelling

namespace Idl

/-- The kind of the tokens that are literals of the given kind. -/
def LitKind.token : LitKind → TokenKind
  | .int => .int
  | .float => .float
  | .char => .char
  | .string => .string

/-- The second state is the first one, respelled, with the lines of its file and as many reports. -/
inductive ParseState.Follows (ρ : Respelling) (s : ParseState) : ParseState → Prop
  | intro (file : SourceFile) (reports : Array Diagnostic) (hname : file.name = s.file.name)
      (hline : ∀ p, file.lineOf (ρ.pos p) = s.file.lineOf p)
      (hreports : reports.map (·.severity) = s.diagnostics.map (·.severity)) :
      Follows ρ s { s.respelled ρ with file := file, diagnostics := reports }

/-- Moreover the current token is of the given kind. -/
def ParseState.FollowsAt (ρ : Respelling) (k : TokenKind) (s s' : ParseState) : Prop :=
  s.Follows ρ s' ∧ s.current.token.kind = k

namespace ParseState.Follows

variable {ρ : Respelling} {s s' : ParseState}

theorem left (h : s.Follows ρ s') : s'.left = s.left.map (SignificantToken.respelled ρ) := by
  cases h
  rfl

theorem length_left (h : s.Follows ρ s') : s'.left.length = s.left.length := by
  rw [h.left, List.length_map]

theorem current (h : s.Follows ρ s') : s'.current = s.current.respelled ρ := by
  cases h
  unfold ParseState.current ParseState.respelled
  cases s.left <;> rfl

theorem eof (h : s.Follows ρ s') : s'.eof = s.eof.respelled ρ := by
  cases h
  rfl

theorem symbols (h : s.Follows ρ s') : s'.symbols = s.symbols.respelled ρ := by
  cases h
  rfl

theorem severities (h : s.Follows ρ s') :
    s'.diagnostics.map (·.severity) = s.diagnostics.map (·.severity) := by
  cases h with
  | intro file reports hname hline hreports => exact hreports

end ParseState.Follows

namespace Parse

variable {ρ : Respelling}

/-- `n` does in states that follow what `m` does, and answers with `φ` of its answer. -/
abbrev Respells {α β : Type} (ρ : Respelling) (φ : α → β) (m : Parse α) (n : Parse β) : Prop :=
  Alike (ParseState.Follows ρ) (ParseState.Follows ρ) (fun a b => b = φ a) m n

/-! ### The current token -/

theorem current_respells : Respells ρ (SignificantToken.respelled ρ) current current :=
  fun _ _ hs => ⟨hs.current, hs⟩

theorem kind_respells : Respells ρ id kind kind := by
  intro s s' hs
  refine ⟨?_, hs⟩
  show s'.current.token.kind = s.current.token.kind
  rw [hs.current]
  rfl

/-- The steps behind a look at the current token know its kind. -/
theorem current_bind {α β : Type} {Q : α → β → Prop} {k : SignificantToken → Parse α}
    {l : SignificantToken → Parse β}
    (h : ∀ t, Alike (ParseState.FollowsAt ρ t.token.kind) (ParseState.Follows ρ) Q (k t)
      (l (t.respelled ρ))) :
    Alike (ParseState.Follows ρ) (ParseState.Follows ρ) Q (current >>= k) (current >>= l) := by
  intro s s' hs
  show Q (k s.current s).1 (l s'.current s').1 ∧
    ParseState.Follows ρ (k s.current s).2 (l s'.current s').2
  rw [hs.current]
  exact h _ s s' ⟨hs, rfl⟩

/-- What the steps behind the question for the kind of the current token do may depend on the kind. -/
theorem kind_bind {α β : Type} {Q : α → β → Prop} {k : TokenKind → Parse α}
    {l : TokenKind → Parse β}
    (h : ∀ kind, Alike (ParseState.FollowsAt ρ kind) (ParseState.Follows ρ) Q (k kind) (l kind)) :
    Alike (ParseState.Follows ρ) (ParseState.Follows ρ) Q (kind >>= k) (kind >>= l) := by
  intro s s' hs
  have hkind : s'.current.token.kind = s.current.token.kind := (kind_respells s s' hs).1
  show Q (k s.current.token.kind s).1 (l s'.current.token.kind s').1 ∧
    ParseState.Follows ρ (k s.current.token.kind s).2 (l s'.current.token.kind s').2
  rw [hkind]
  exact h _ s s' ⟨hs, rfl⟩

theorem pos_respells : Respells ρ ρ.pos pos pos :=
  fun _ _ hs => ⟨congrArg (fun t : SignificantToken => t.token.pos) hs.current, hs⟩

theorem line_respells : Respells ρ id line line := by
  intro s s' hs
  refine ⟨?_, hs⟩
  show s'.file.lineOf s'.current.token.pos = s.file.lineOf s.current.token.pos
  rw [hs.current]
  cases hs with
  | intro file reports hname hline hreports => exact hline _

theorem nextKind_respells : Respells ρ id nextKind nextKind := by
  rintro s _ ⟨file, reports, hname, hline, hreports⟩
  refine ⟨?_, .intro file reports hname hline hreports⟩
  rcases h : s.left with - | ⟨t, - | ⟨t', rest⟩⟩ <;>
    simp [nextKind, ParseState.respelled, h]

theorem atEnd_respells : Respells ρ id atEnd atEnd := by
  intro s s' hs
  refine ⟨?_, hs⟩
  show s'.left.isEmpty = s.left.isEmpty
  rw [hs.left, List.isEmpty_map]

theorem check_respells (k : TokenKind) : Respells ρ id (check k) (check k) := by
  intro s s' hs
  refine ⟨?_, hs⟩
  show (s'.current.token.kind == k) = (s.current.token.kind == k)
  rw [hs.current]
  rfl

/-- The steps behind a question that is answered with yes know the kind of the current token. -/
theorem check_bind {α β : Type} {Q : α → β → Prop} {k : TokenKind} {m m' : Parse α}
    {n n' : Parse β}
    (h : Alike (ParseState.FollowsAt ρ k) (ParseState.Follows ρ) Q m n)
    (h' : Alike (ParseState.Follows ρ) (ParseState.Follows ρ) Q m' n') :
    Alike (ParseState.Follows ρ) (ParseState.Follows ρ) Q
      (check k >>= fun b => if b then m else m') (check k >>= fun b => if b then n else n') := by
  intro s s' hs
  have hcheck : (s'.current.token.kind == k) = (s.current.token.kind == k) :=
    (check_respells k s s' hs).1
  show Q ((if s.current.token.kind == k then m else m') s).1
      ((if s'.current.token.kind == k then n else n') s').1 ∧
    ParseState.Follows ρ ((if s.current.token.kind == k then m else m') s).2
      ((if s'.current.token.kind == k then n else n') s').2
  rw [hcheck]
  split
  · next hk => exact h s s' ⟨hs, eq_of_beq hk⟩
  · exact h' s s' hs

theorem advance_respells : Respells ρ (Token.respelled ρ) advance advance := by
  intro s s' hs
  unfold advance
  rw [hs.left]
  cases s.left with
  | nil => exact ⟨congrArg SignificantToken.token hs.eof, hs⟩
  | cons t rest =>
    obtain ⟨file, reports, hname, hline, hreports⟩ := hs
    -- the comments in front are those of the token that is current now
    have hlead : ((rest.map (SignificantToken.respelled ρ)).headD (s.eof.respelled ρ)).lead =
        (rest.headD s.eof).lead.map (CommentGroup.respelled ρ) := by
      cases rest <;> rfl
    refine ⟨rfl, ?_⟩
    simp only [List.map_cons, ParseState.respelled, hlead]
    exact .intro file reports hname hline hreports

/-- The token that is taken is the current one. -/
theorem advance_at (k : TokenKind) : Alike (ParseState.FollowsAt ρ k) (ParseState.Follows ρ)
    (fun a b => b = a.respelled ρ ∧ a.kind = k) advance advance := by
  rintro s s' ⟨hs, hk⟩
  obtain ⟨htoken, hs'⟩ := advance_respells s s' hs
  refine ⟨⟨htoken, ?_⟩, hs'⟩
  rw [← hk]
  unfold advance ParseState.current
  cases s.left <;> rfl

theorem takeLead_respells :
    Respells ρ (Option.map (CommentGroup.respelled ρ)) takeLead takeLead := by
  rintro s _ ⟨file, reports, hname, hline, hreports⟩
  exact ⟨rfl, .intro file reports hname hline hreports⟩

theorem trailing_respells :
    Respells ρ (Option.map (CommentGroup.respelled ρ)) trailing trailing :=
  fun _ _ hs => ⟨congrArg SignificantToken.trailing hs.current, hs⟩

/-! ### Reports -/

/-- Two errors are as bad as one another, whatever they say. -/
theorem report_respells {message message' : String} {span span' : Span} :
    Respells ρ id (report (.error message span)) (report (.error message' span')) := by
  rintro s _ ⟨file, reports, hname, hline, hreports⟩
  refine ⟨rfl, .intro file (reports.push (.error message' span')) hname hline ?_⟩
  show (reports.push _).map (·.severity) = (s.diagnostics.push _).map (·.severity)
  rw [Array.map_push, Array.map_push, hreports]
  rfl

theorem reportExpected_respells (what : String) :
    Respells ρ id (reportExpected what) (reportExpected what) :=
  current_respells.next fun _ => report_respells

/-! ### Taking what is expected -/

theorem expect_respells (k : TokenKind) : Respells ρ ρ.pos (expect k) (expect k) := by
  refine pos_respells.next fun p => (check_respells k).next_id fun b => .ite ?_ ?_
  · exact advance_respells.next fun _ => .pure rfl
  · exact (reportExpected_respells _).next fun _ => .pure rfl

theorem endOfItem_respells : Respells ρ id endOfItem endOfItem := by
  refine kind_respells.next_id fun k => ?_
  split
  · exact (reportExpected_respells _).next fun _ => advance_respells.next fun _ => .pure rfl
  · exact advance_respells.next fun _ => .pure rfl
  · exact .pure rfl

theorem newIdent_respells (name : String) (p : Pos) :
    Respells ρ (Ident.respelled ρ) (newIdent name p) (newIdent name (ρ.pos p)) := by
  rintro s _ ⟨file, reports, hname, hline, hreports⟩
  exact ⟨rfl, .intro file reports hname hline hreports⟩

/-- Only the texts of string literals and comments are respelled. -/
theorem text_eq_of_ne {k : TokenKind} (hstring : k ≠ .string) (hcomment : k ≠ .comment)
    (t : String) : ρ.text k t = t := by
  cases k with
  | string => exact absurd rfl hstring
  | comment => exact absurd rfl hcomment
  | _ => rfl

/-- A word that is taken names an identifier, whatever is made of that. -/
theorem word_bind {α β : Type} {Q : α → β → Prop} {k : TokenKind} (hstring : k ≠ .string)
    (hcomment : k ≠ .comment) {f : Ident → Parse α} {g : Ident → Parse β}
    (h : ∀ i, Alike (ParseState.Follows ρ) (ParseState.Follows ρ) Q (f i) (g (i.respelled ρ))) :
    Alike (ParseState.FollowsAt ρ k) (ParseState.Follows ρ) Q
      (advance >>= fun t => newIdent t.text t.pos >>= f)
      (advance >>= fun t => newIdent t.text t.pos >>= g) := by
  refine (advance_at k).bind fun t t' ⟨ht, hk⟩ => ?_
  rw [ht, Token.respelled_text, hk, text_eq_of_ne hstring hcomment]
  exact (newIdent_respells _ _).next h

theorem ident_respells : Respells ρ (Ident.respelled ρ) ident ident := by
  refine current_respells.next fun t => ?_
  have hkind : (t.respelled ρ).token.kind = t.token.kind := rfl
  simp only [hkind]
  by_cases hk : t.token.kind = .ident
  · have htext : (t.respelled ρ).token.text = t.token.text := by
      rw [SignificantToken.respelled_token, Token.respelled_text, hk]
      rfl
    rw [if_pos hk, if_pos hk, htext]
    exact advance_respells.next fun _ => newIdent_respells _ _
  · rw [if_neg hk, if_neg hk]
    exact (expect_respells _).next fun _ => newIdent_respells _ _

theorem lit_respells (k : LitKind) :
    Alike (ParseState.FollowsAt ρ k.token) (ParseState.Follows ρ) (fun a b => b = a.respelled ρ)
      (lit k) (lit k) := by
  refine (advance_at k.token).bind fun t t' ⟨ht, hk⟩ => .pure ?_
  rw [ht, Token.respelled_text, hk]
  cases k <;> rfl

theorem string?_respells : Respells ρ (Option.map (Lit.respelled ρ)) string? string? := by
  refine check_bind (k := .string) ?_ (.pure rfl)
  exact (lit_respells .string).next fun _ => .pure rfl

/-- Repetition of steps, each of which does in states that follow what it does. -/
theorem iterate_respells {α β : Type} {φ : α → β} {step : α → Parse (Option α)}
    {step' : β → Parse (Option β)} (h : ∀ a, Respells ρ (Option.map φ) (step a) (step' (φ a)))
    {a : α} {b : β} (hab : φ a = b) : Respells ρ φ (iterate step a) (iterate step' b) :=
  Alike.iterate (fun _ _ hs => hs.length_left) h hab

theorem identList_respells :
    Respells ρ (List.map (Ident.respelled ρ)) identList identList := by
  refine ident_respells.next fun first => ?_
  refine (iterate_respells (φ := Array.map (Ident.respelled ρ)) (fun names => ?_) (by simp)).next
    fun names => .pure Array.toList_map
  refine (check_respells _).next_id fun b => .ite ?_ (.pure rfl)
  exact advance_respells.next fun _ => ident_respells.next fun i =>
    .pure (congrArg some Array.map_push.symm)

/-! ### Types -/

theorem arraySize_respells : Respells ρ (Value.respelled ρ) arraySize arraySize := by
  refine kind_bind fun k => ?_
  split
  · exact (lit_respells .int).next fun _ => .pure rfl
  · refine .weaken ?_ fun _ _ hs => hs.1
    exact ident_respells.next fun _ => .pure rfl
  · refine .weaken ?_ fun _ _ hs => hs.1
    exact pos_respells.next fun _ => (reportExpected_respells _).next fun _ => .pure rfl

theorem typeNested_respells (levels : Nat) :
    Respells ρ (TypeExpr.respelled ρ) (typeNested levels) (typeNested levels) := by
  induction levels with
  | zero =>
    refine current_respells.next fun t => .ite ?_ ?_
    · exact report_respells.next fun _ => .pure rfl
    · exact (reportExpected_respells _).next fun _ => .pure rfl
  | succ levels ih =>
    refine (check_respells _).next_id fun b => .ite ?_ ?_
    · exact pos_respells.next fun _ => (reportExpected_respells _).next fun _ => .pure rfl
    refine ident_respells.next fun name => (check_respells _).next_id fun b => .ite ?_ ?_
    · exact advance_respells.next fun _ => ident_respells.next fun _ => .pure rfl
    rw [Ident.respelled_name]
    split
    · exact .pure rfl
    · exact (expect_respells _).next fun _ => ih.next fun _ => (expect_respells _).next fun _ =>
        ih.next fun _ => (expect_respells _).next fun _ => .pure rfl
    · exact (expect_respells _).next fun _ => ih.next fun _ => (expect_respells _).next fun _ =>
        arraySize_respells.next fun _ => (expect_respells _).next fun _ => .pure rfl
    · exact (expect_respells _).next fun _ => ih.next fun _ => (expect_respells _).next fun _ =>
        .pure rfl
    · exact .pure rfl

theorem typeExpr_respells : Respells ρ (TypeExpr.respelled ρ) typeExpr typeExpr :=
  typeNested_respells _

/-! ### Signatures -/

/-- Parameters, respelled. -/
def ParamsSoFar.respelled (ρ : Respelling) (p : ParamsSoFar) : ParamsSoFar :=
  ⟨p.params.map (Param.respelled ρ), p.broken.map ρ.pos⟩

theorem ParamsSoFar.respelled_push (p : ParamsSoFar) (q : Param) (broken : Option Pos) :
    ParamsSoFar.respelled ρ ⟨p.params.push q, broken⟩ =
      ⟨(p.respelled ρ).params.push (q.respelled ρ), broken.map ρ.pos⟩ := by
  unfold respelled
  rw [Array.map_push]

theorem param_respells (p : ParamsSoFar) :
    Respells ρ (Option.map (ParamsSoFar.respelled ρ)) (param p) (param (p.respelled ρ)) := by
  refine (check_respells _).next_id fun b => atEnd_respells.next_id fun e => ?_
  rw [show (p.respelled ρ).broken.isSome = p.broken.isSome from Option.isSome_map ..]
  refine .ite (.pure rfl) (typeExpr_respells.next fun type => kind_respells.next_id fun k => ?_)
  split
  · refine ident_respells.next fun name => (check_respells _).next_id fun b => .ite ?_ ?_
    · exact advance_respells.next fun _ =>
        .pure (congrArg some (p.respelled_push ⟨type, some name⟩ none).symm)
    · exact .pure (congrArg some (p.respelled_push ⟨type, some name⟩ none).symm)
  · exact advance_respells.next fun _ =>
      .pure (congrArg some (p.respelled_push ⟨type, none⟩ none).symm)
  · exact .pure (congrArg some (p.respelled_push ⟨type, none⟩ none).symm)
  · exact current_respells.next fun t => report_respells.next fun _ =>
      .pure (congrArg some (p.respelled_push ⟨type, none⟩ (some t.token.pos)).symm)

/-- A parameter list, respelled. -/
def ParamList.respelled (ρ : Respelling) (l : ParamList) : ParamList :=
  ⟨ρ.pos l.opening, l.params.map (Param.respelled ρ), ρ.pos l.closing⟩

theorem paramList_respells : Respells ρ (ParamList.respelled ρ) paramList paramList := by
  refine (expect_respells _).next fun opening => ?_
  refine (iterate_respells (φ := ParamsSoFar.respelled ρ) param_respells
    (by simp [ParamsSoFar.respelled])).next fun p => ?_
  have hparams : (p.respelled ρ).params.toList = p.params.toList.map (Param.respelled ρ) :=
    Array.toList_map
  rw [show (p.respelled ρ).broken = p.broken.map ρ.pos from rfl, hparams]
  cases p.broken with
  | none => exact (expect_respells _).next fun _ => .pure rfl
  | some c => exact .pure rfl

theorem methodResult_respells (openLine : Nat) :
    Respells ρ (Option.map (TypeExpr.respelled ρ)) (methodResult openLine)
      (methodResult openLine) := by
  refine (check_respells _).next_id fun b => line_respells.next_id fun l =>
    nextKind_respells.next_id fun k => .ite ?_ (.pure rfl)
  exact typeExpr_respells.next fun _ => .pure rfl

theorem signature_respells : Respells ρ (Signature.respelled ρ) signature signature :=
  line_respells.next_id fun _ => paramList_respells.next fun _ =>
    (methodResult_respells _).next fun _ => .pure rfl

/-! ### Binding names -/

theorem bind_respells (i : Ident) (o : ObjectId) :
    Respells ρ id (Parse.bind i o) (Parse.bind (i.respelled ρ) o) := by
  rintro s _ ⟨file, reports, hname, hline, hreports⟩
  exact ⟨rfl, .intro file reports hname hline hreports⟩

theorem setSymbols_respells (t : SymbolTable) :
    Respells ρ id (modify fun s => { s with symbols := t })
      (modify fun s => { s with symbols := t.respelled ρ }) := by
  rintro s _ ⟨file, reports, hname, hline, hreports⟩
  exact ⟨rfl, .intro file reports hname hline hreports⟩

/-- A name that is declared twice is so in the respelled file. -/
theorem declare_respells (i : Ident) (kind : ObjectKind) (origin : Origin) (data : Option Int)
    (scope : ScopeId) : Respells ρ id (declare i kind origin data scope)
      (declare (i.respelled ρ) kind origin data scope) := by
  refine Alike.get.bind fun s s' hs => ?_
  have hnew : s'.symbols.newObject
        ⟨kind, (i.respelled ρ).name, origin, (i.respelled ρ).pos, data⟩ =
      ((s.symbols.newObject ⟨kind, i.name, origin, i.pos, data⟩).1,
        (s.symbols.newObject ⟨kind, i.name, origin, i.pos, data⟩).2.respelled ρ) := by
    rw [hs.symbols]
    exact s.symbols.newObject_respelled ρ ⟨kind, i.name, origin, i.pos, data⟩
  rw [hnew]
  generalize s.symbols.newObject ⟨kind, i.name, origin, i.pos, data⟩ = new
  obtain ⟨object, symbols⟩ := new
  refine (setSymbols_respells symbols).next fun _ => (bind_respells i object).next fun _ =>
    .ite (.pure rfl) ?_
  rw [SymbolTable.insert_respelled]
  generalize symbols.insert scope object = inserted
  obtain ⟨existing, symbols⟩ := inserted
  refine (setSymbols_respells symbols).next fun _ => ?_
  cases existing with
  | none => exact .pure rfl
  | some existing => exact Alike.get.bind fun _ _ _ => report_respells

theorem resolveIdent_respells (i : Ident) :
    Respells ρ id (resolveIdent i) (resolveIdent (i.respelled ρ)) := by
  refine .ite (.pure rfl) (Alike.get.bind fun s s' hs => ?_)
  obtain ⟨file, reports, hname, hline, hreports⟩ := hs
  have h : (s.respelled ρ).symbols.resolve? (s.respelled ρ).fileScope i.name =
      s.symbols.resolve? s.fileScope i.name := s.symbols.resolve?_respelled ρ _ _
  rw [Ident.respelled_name, h]
  cases s.symbols.resolve? s.fileScope i.name with
  | some object => exact bind_respells i object
  | none =>
    have hp : (s.respelled ρ).pending.push (i.respelled ρ) =
        (s.pending.push i).map (Ident.respelled ρ) := Array.map_push.symm
    rw [hp]
    exact .set (.intro file reports hname hline hreports)

theorem resolveTypeExpr_respells (t : TypeExpr) :
    Respells ρ id (resolveTypeExpr t) (resolveTypeExpr (t.respelled ρ)) := by
  induction t with
  | bad p => exact .pure rfl
  | basic name b => exact .pure rfl
  | array p elem size closing ih =>
    refine ih.next fun _ => ?_
    cases size with
    | bad p => exact .pure rfl
    | ident i => exact resolveIdent_respells i
    | lit l => exact .pure rfl
  | vector p elem closing ih => exact ih
  | map p key value closing ihk ihv => exact ihk.next fun _ => ihv
  | named qualifier name =>
    cases qualifier with
    | none => exact resolveIdent_respells name
    | some q =>
      refine .modify ?_
      rintro s s' ⟨file, reports, hname, hline, hreports⟩
      have hq : (s.respelled ρ).qualified.push (QualifiedRef.respelled ρ ⟨q, name⟩) =
          (s.qualified.push ⟨q, name⟩).map (QualifiedRef.respelled ρ) := Array.map_push.symm
      show ParseState.Follows ρ _ { s.respelled ρ with
        file := file, diagnostics := reports
        qualified := (s.respelled ρ).qualified.push (QualifiedRef.respelled ρ ⟨q, name⟩) }
      rw [hq]
      exact .intro file reports hname hline hreports

theorem resolveMemberType_respells (t : MemberType) :
    Respells ρ id (resolveMemberType t) (resolveMemberType (t.respelled ρ)) := by
  cases t with
  | plain t => exact resolveTypeExpr_respells t
  | func sig =>
    refine (Alike.forM (φ := Param.respelled ρ) (fun p => resolveTypeExpr_respells p.type)
      sig.params).next_id fun _ => ?_
    have h : (sig.respelled ρ).result = sig.result.map (TypeExpr.respelled ρ) := rfl
    rw [h]
    cases sig.result with
    | none => exact .pure rfl
    | some t => exact resolveTypeExpr_respells t

/-! ### Members -/

theorem memberOrigin_respells (index : Nat) :
    Respells ρ id (memberOrigin index) (memberOrigin index) := by
  rintro s _ ⟨file, reports, hname, hline, hreports⟩
  exact ⟨rfl, .intro file reports hname hline hreports⟩

theorem fieldOptions_respells :
    Respells ρ (List.map (Ident.respelled ρ)) fieldOptions fieldOptions := by
  refine (iterate_respells (φ := Array.map (Ident.respelled ρ)) (fun options => ?_) (by simp)).next
    fun _ => .pure Array.toList_map
  refine kind_bind fun k => ?_
  split
  · exact word_bind (by simp) (by simp) fun i => .pure (congrArg some Array.map_push.symm)
  · exact word_bind (by simp) (by simp) fun i => .pure (congrArg some Array.map_push.symm)
  · exact .weaken (.pure rfl) fun _ _ hs => hs.1

theorem typeAndNames_respells :
    Respells ρ (fun p => (p.1.respelled ρ, p.2.map (Ident.respelled ρ))) typeAndNames
      typeAndNames := by
  refine (check_respells _).next_id fun b => .ite ?_ ?_
  · exact advance_respells.next fun _ => typeExpr_respells.next fun _ => .pure rfl
  · exact typeExpr_respells.next fun _ => identList_respells.next fun _ => .pure rfl

theorem field_respells (scope : ScopeId) (index : Nat) :
    Respells ρ (Member.respelled ρ) (field scope index) (field scope index) := by
  refine takeLead_respells.next fun doc => fieldOptions_respells.next fun options =>
    typeAndNames_respells.next fun p => string?_respells.next fun tag =>
    endOfItem_respells.next_id fun _ => trailing_respells.next fun comment =>
    (memberOrigin_respells index).next_id fun origin => ?_
  refine (Alike.forM (φ := Ident.respelled ρ)
    (fun name => declare_respells name .var origin none scope) p.2).next_id fun _ => ?_
  exact (resolveTypeExpr_respells p.1).next_id fun _ => .pure rfl

theorem methodName?_respelled (t : TypeExpr) :
    methodName? (t.respelled ρ) = (methodName? t).map (Ident.respelled ρ) := by
  cases t with
  | named qualifier name => cases qualifier <;> rfl
  | _ => rfl

theorem nameAndType_respells :
    Respells ρ (fun p => (p.1.map (Ident.respelled ρ), p.2.respelled ρ)) nameAndType
      nameAndType := by
  refine typeExpr_respells.next fun first => (check_respells _).next_id fun opens => ?_
  have h : (if opens then methodName? (first.respelled ρ) else none) =
      (if opens then methodName? first else none).map (Ident.respelled ρ) := by
    rw [methodName?_respelled]
    cases opens <;> rfl
  rw [h]
  cases if opens then methodName? first else none with
  | none => exact .pure rfl
  | some name => exact signature_respells.next fun _ => .pure rfl

theorem method_respells (scope : ScopeId) (index : Nat) :
    Respells ρ (Member.respelled ρ) (method scope index) (method scope index) := by
  refine takeLead_respells.next fun doc => nameAndType_respells.next fun p =>
    endOfItem_respells.next_id fun _ => trailing_respells.next fun comment =>
    (memberOrigin_respells index).next_id fun origin => ?_
  have hnames : (p.1.map (Ident.respelled ρ)).toList = p.1.toList.map (Ident.respelled ρ) :=
    Option.toList_map ..
  rw [hnames]
  refine (Alike.forM (φ := Ident.respelled ρ)
    (fun name => declare_respells name .func origin none scope) p.1.toList).next_id fun _ => ?_
  exact (resolveMemberType_respells p.2).next_id fun _ => .pure rfl

theorem enumValue_respells : Respells ρ (Value.respelled ρ) enumValue enumValue := by
  refine kind_bind fun k => ?_
  split
  · exact (lit_respells .int).next fun _ => .pure rfl
  · refine .weaken ?_ fun _ _ hs => hs.1
    exact ident_respells.next fun _ => .pure rfl
  · refine .weaken ?_ fun _ _ hs => hs.1
    exact pos_respells.next fun _ => (reportExpected_respells _).next fun _ => .pure rfl

theorem endOfEnumerator_respells : Respells ρ id endOfEnumerator endOfEnumerator :=
  (check_respells _).next_id fun _ =>
    .ite ((expect_respells _).next fun _ => .pure rfl) (.pure rfl)

theorem enumerator_respells (scope : ScopeId) (index : Nat) :
    Respells ρ (Member.respelled ρ) (enumerator scope index) (enumerator scope index) := by
  refine takeLead_respells.next fun doc => ident_respells.next fun name =>
    (expect_respells _).next fun _ => enumValue_respells.next fun value =>
    endOfEnumerator_respells.next_id fun _ => trailing_respells.next fun comment =>
    (memberOrigin_respells index).next_id fun origin => ?_
  exact (declare_respells name .const origin _ scope).next_id fun _ => .pure rfl

theorem member?_respells (kind : BeanKind) (scope : ScopeId) (index : Nat) :
    Respells ρ (Option.map (Member.respelled ρ)) (member? kind scope index)
      (member? kind scope index) := by
  refine current_respells.next fun t => ?_
  rw [SignificantToken.respelled_token, Token.respelled_kind]
  split
  case h_1 => exact (method_respells scope index).map fun _ _ h => congrArg some h
  case h_2 => exact (enumerator_respells scope index).map fun _ _ h => congrArg some h
  case h_11 => exact .pure rfl
  all_goals exact (field_respells scope index).map fun _ _ h => congrArg some h

theorem moreMembers_respells (kind : BeanKind) (scope : ScopeId) (members : Array Member) :
    Respells ρ (Option.map (Array.map (Member.respelled ρ))) (moreMembers kind scope members)
      (moreMembers kind scope (members.map (Member.respelled ρ))) := by
  unfold moreMembers
  rw [Array.size_map]
  refine (member?_respells kind scope members.size).next fun m => .pure ?_
  cases m with
  | none => rfl
  | some m => exact congrArg some Array.map_push.symm

theorem bean_respells (kind : BeanKind) :
    Respells ρ (Bean.respelled ρ) (bean kind) (bean kind) := by
  refine takeLead_respells.next fun doc => advance_respells.next fun start =>
    ident_respells.next fun name => string?_respells.next fun tag =>
    Alike.get.bind fun s s' hs => ?_
  obtain ⟨file, reports, hname, hline, hreports⟩ := hs
  have hnew : (s.respelled ρ).symbols.newScope (some (s.respelled ρ).fileScope) =
      ((s.symbols.newScope (some s.fileScope)).1,
        (s.symbols.newScope (some s.fileScope)).2.respelled ρ) :=
    s.symbols.newScope_respelled ρ (some s.fileScope)
  dsimp only
  rw [hnew]
  generalize s.symbols.newScope (some s.fileScope) = new
  obtain ⟨scope, symbols⟩ := new
  have hset : ParseState.Follows ρ { s with symbols := symbols }
      { s.respelled ρ with
        file := file, diagnostics := reports, symbols := symbols.respelled ρ } :=
    .intro file reports hname hline hreports
  refine (Alike.set hset).next fun _ => (expect_respells _).next fun opening => ?_
  refine (iterate_respells (φ := Array.map (Member.respelled ρ)) (moreMembers_respells kind scope)
    (by simp)).next fun members => ?_
  refine (expect_respells _).next fun closing => Alike.get.bind fun t t' ht => ?_
  have horigin : Origin.decl t'.fileId t'.declIndex = .decl t.fileId t.declIndex := by
    cases ht
    rfl
  rw [horigin]
  refine (declare_respells name .bean (.decl t.fileId t.declIndex) none s.fileScope).next
    fun _ => .pure ?_
  simp only [Bean.respelled, MemberList.respelled, Array.toList_map, Token.respelled_pos]

/-! ### Declarations -/

theorem moreSpecs_respells {α β : Type} {φ : α → α} {ψ : β → β}
    {spec : Option CommentGroup → Nat → β → Parse (α × β)}
    (h : ∀ doc index b, Respells ρ (Prod.map φ ψ) (spec doc index b)
      (spec (doc.map (CommentGroup.respelled ρ)) index (ψ b))) (sofar : Array α × β) :
    Respells ρ (Option.map (Prod.map (Array.map φ) ψ)) (moreSpecs spec sofar)
      (moreSpecs spec (Prod.map (Array.map φ) ψ sofar)) := by
  refine (check_respells _).next_id fun closes => atEnd_respells.next_id fun e =>
    .ite (.pure rfl) (Alike.get.bind fun s s' hs => takeLead_respells.next fun doc => ?_)
  rw [hs.length_left, Prod.map_fst, Array.size_map, Prod.map_snd]
  refine (h doc sofar.1.size sofar.2).next fun r => Alike.get.bind fun t t' ht => ?_
  rw [ht.length_left]
  refine .ite (advance_respells.next fun _ => .pure ?_) (.pure ?_)
  all_goals exact congrArg some (Prod.ext Array.map_push.symm rfl)

theorem specGroup_respells {α β : Type} {φ : α → α} {ψ : β → β}
    {spec : Option CommentGroup → Nat → β → Parse (α × β)}
    (h : ∀ doc index b, Respells ρ (Prod.map φ ψ) (spec doc index b)
      (spec (doc.map (CommentGroup.respelled ρ)) index (ψ b))) {start : β}
    (hstart : ψ start = start) :
    Respells ρ (SpecGroup.respelled ρ φ) (specGroup spec start) (specGroup spec start) := by
  refine takeLead_respells.next fun doc => advance_respells.next fun t =>
    (check_respells _).next_id fun b => .ite (advance_respells.next fun t' => ?_) ?_
  · refine (iterate_respells (φ := Prod.map (Array.map φ) ψ) (moreSpecs_respells h)
      (by simp [hstart])).next fun sofar => (expect_respells _).next fun _ => .pure ?_
    simp only [SpecGroup.respelled, Array.toList_map, Option.map_some,
      Token.respelled_pos]
  · have hspec := h none 0 start
    rw [hstart] at hspec
    exact hspec.next fun r => .pure rfl

theorem importName_respells :
    Respells ρ (Option.map (Ident.respelled ρ)) importName importName := by
  refine kind_bind fun k => ?_
  split
  · exact word_bind (by simp) (by simp) fun i => .pure rfl
  · refine .weaken ?_ fun _ _ hs => hs.1
    exact ident_respells.next fun _ => .pure rfl
  · exact .weaken (.pure rfl) fun _ _ hs => hs.1

/-- A respelled literal spells an import path if the literal does. -/
theorem isImportPath_respelled (l : Lit) :
    isImportPath (l.respelled ρ).text = isImportPath l.text := by
  unfold isImportPath
  rw [Lit.unquote?_respelled]

theorem importPath_respells : Respells ρ (Lit.respelled ρ) importPath importPath := by
  refine current_bind fun t => ?_
  have hkind : (t.respelled ρ).token.kind = t.token.kind := rfl
  simp only [hkind]
  by_cases hk : t.token.kind = .string
  · rw [if_pos hk, if_pos hk, hk]
    refine (lit_respells .string).next fun path => ?_
    rw [isImportPath_respelled]
    exact .ite (report_respells.next fun _ => .pure rfl) (.pure rfl)
  · rw [if_neg hk, if_neg hk]
    refine .weaken ?_ fun _ _ hs => hs.1
    exact (expect_respells _).next fun p => .pure (congrArg (Lit.mk _ _) ρ.literal_empty.symm)

theorem importSpec_respells (doc : Option CommentGroup) (index : Nat) (u : Unit) :
    Respells ρ (Prod.map (ImportSpec.respelled ρ) id) (importSpec doc index u)
      (importSpec (doc.map (CommentGroup.respelled ρ)) index u) :=
  importName_respells.next fun _ => importPath_respells.next fun _ =>
    endOfItem_respells.next_id fun _ => trailing_respells.next fun _ => .pure rfl

theorem constValue_respells : Respells ρ (Value.respelled ρ) constValue constValue := by
  refine kind_bind fun k => ?_
  split
  · exact (lit_respells .int).next fun _ => .pure rfl
  · exact (lit_respells .float).next fun _ => .pure rfl
  · exact (lit_respells .string).next fun _ => .pure rfl
  · refine .weaken ?_ fun _ _ hs => hs.1
    exact ident_respells.next fun i => (resolveIdent_respells i).next fun _ => .pure rfl
  · refine .weaken ?_ fun _ _ hs => hs.1
    exact pos_respells.next fun _ => (reportExpected_respells _).next fun _ => .pure rfl

theorem ownValue_respells : Respells ρ (Option.map (Value.respelled ρ)) ownValue ownValue := by
  refine (check_respells _).next_id fun b => .ite ?_ (.pure rfl)
  exact advance_respells.next fun _ => constValue_respells.next fun _ => .pure rfl

theorem requireValue_respells (name : Ident) (index : Nat) (own : Option Value) :
    Respells ρ id (requireValue name index own)
      (requireValue (name.respelled ρ) index (own.map (Value.respelled ρ))) := by
  unfold requireValue
  rw [Option.isNone_map]
  exact .ite report_respells (.pure rfl)

theorem constSpec_respells (doc : Option CommentGroup) (index : Nat) (previous : Option Value) :
    Respells ρ (Prod.map (ConstSpec.respelled ρ) (Option.map (Value.respelled ρ)))
      (constSpec doc index previous)
      (constSpec (doc.map (CommentGroup.respelled ρ)) index
        (previous.map (Value.respelled ρ))) := by
  refine ident_respells.next fun name => ownValue_respells.next fun own =>
    endOfItem_respells.next_id fun _ => trailing_respells.next fun comment =>
    (requireValue_respells name index own).next_id fun _ => Alike.get.bind fun s s' hs => ?_
  obtain ⟨file, reports, hname, hline, hreports⟩ := hs
  refine (declare_respells name .const (.spec s.fileId s.declIndex index) _ s.fileScope).next
    fun _ => .pure ?_
  cases own <;> rfl

/-- Skipping compares positions with one another only. -/
theorem skipStep_respells (u : Unit) :
    Respells ρ (Option.map id) (skipStep u) (skipStep u) := by
  refine Alike.get.bind fun s s' hs => ?_
  have hcurrent := hs.current
  obtain ⟨file, reports, hname, hline, hreports⟩ := hs
  have hempty : (s.respelled ρ).left.isEmpty = s.left.isEmpty := List.isEmpty_map
  have hlt : ((s.respelled ρ).syncPos < ρ.pos s.current.token.pos) ↔
      s.syncPos < s.current.token.pos := ρ.pos_lt_pos
  have heq : (ρ.pos s.current.token.pos == (s.respelled ρ).syncPos) =
      (s.current.token.pos == s.syncPos) := by
    rw [Bool.eq_iff_iff, beq_iff_eq, beq_iff_eq]
    exact ρ.pos_inj
  simp only [hcurrent, SignificantToken.respelled_token, Token.respelled_kind,
    Token.respelled_pos, hempty, hlt, heq]
  refine .ite (.pure rfl) (.ite ?_ (.ite ?_ ?_))
  · refine (Alike.set ?_).next fun _ => .pure rfl
    exact .intro file reports hname hline hreports
  · refine (Alike.set ?_).next fun _ => .pure rfl
    exact .intro file reports hname hline hreports
  · exact advance_respells.next fun _ => .pure rfl

theorem skipToDecl_respells : Respells ρ id skipToDecl skipToDecl :=
  iterate_respells skipStep_respells rfl

theorem decl_respells : Respells ρ (Decl.respelled ρ) decl decl := by
  refine kind_respells.next_id fun k => ?_
  split
  · exact (specGroup_respells constSpec_respells rfl).next fun _ => .pure rfl
  · exact (bean_respells _).next fun _ => .pure rfl
  · exact (bean_respells _).next fun _ => .pure rfl
  · exact (bean_respells _).next fun _ => .pure rfl
  · exact (bean_respells _).next fun _ => .pure rfl
  · exact pos_respells.next fun _ => (reportExpected_respells _).next fun _ =>
      skipToDecl_respells.next fun _ => pos_respells.next fun _ => .pure rfl

/-! ### Files -/

theorem declsWhile_respells {more : Parse Bool} {one : Parse Decl}
    (hmore : Respells ρ id more more) (hone : Respells ρ (Decl.respelled ρ) one one)
    {decls decls' : Array Decl} (hd : decls.map (Decl.respelled ρ) = decls') :
    Respells ρ (Array.map (Decl.respelled ρ)) (declsWhile more one decls)
      (declsWhile more one decls') := by
  refine iterate_respells (fun decls => ?_) hd
  refine hmore.next_id fun b => .ite ?_ (.pure rfl)
  rw [Array.size_map]
  have hindex : Respells ρ id (modify fun s => { s with declIndex := decls.size })
      (modify fun s => { s with declIndex := decls.size }) := by
    rintro s _ ⟨file, reports, hname, hline, hreports⟩
    exact ⟨rfl, .intro file reports hname hline hreports⟩
  refine hindex.next_id fun _ => hone.next fun d => .pure ?_
  exact congrArg some Array.map_push.symm

theorem settlePending_respells :
    Respells ρ (List.map (Ident.respelled ρ)) settlePending settlePending := by
  rintro s _ ⟨file, reports, hname, hline, hreports⟩
  have hpending : (s.respelled ρ).pending.toList = s.pending.toList.map (Ident.respelled ρ) :=
    Array.toList_map
  refine ⟨?_, ?_⟩
  · show ((s.respelled ρ).pending.toList.filter _) = (s.pending.toList.filter _).map _
    rw [hpending, List.filter_map]
    rfl
  · have hfold : (s.respelled ρ).pending.toList.foldl (fun (r : Resolutions) i =>
          ((s.symbols.lookup? s.fileScope i.name).map (r.set i.id)).getD r) s.resolutions =
        s.pending.toList.foldl (fun (r : Resolutions) i =>
          ((s.symbols.lookup? s.fileScope i.name).map (r.set i.id)).getD r) s.resolutions := by
      rw [hpending, List.foldl_map]
      rfl
    show ParseState.Follows ρ _ { s.respelled ρ with
      file := file, diagnostics := reports
      resolutions := (s.respelled ρ).pending.toList.foldl (fun (r : Resolutions) i =>
        ((s.symbols.lookup? s.fileScope i.name).map (r.set i.id)).getD r) s.resolutions }
    rw [hfold]
    exact .intro file reports hname hline hreports

theorem packageName_respells : Respells ρ (Ident.respelled ρ) packageName packageName := by
  refine current_respells.next fun t => ident_respells.next fun name => ?_
  -- the text is looked at only if the token is an identifier, and its text then stays
  have hblank : ((t.respelled ρ).token.kind = .ident && (t.respelled ρ).token.text = "_") =
      (t.token.kind = .ident && t.token.text = "_") := by
    by_cases hk : t.token.kind = .ident
    · rw [SignificantToken.respelled_token, Token.respelled_kind, Token.respelled_text, hk]
      rfl
    · rw [SignificantToken.respelled_token, Token.respelled_kind, decide_eq_false hk]
      rfl
  rw [hblank]
  exact .ite (report_respells.next fun _ => .pure rfl) (.pure rfl)

/-- The tree of a respelled file is the tree of the file, respelled. -/
theorem file_respells (comments : List CommentGroup) :
    Respells ρ (File.respelled ρ) (file comments)
      (file (comments.map (CommentGroup.respelled ρ))) := by
  refine takeLead_respells.next fun doc => (expect_respells _).next fun packagePos =>
    packageName_respells.next fun name => endOfItem_respells.next_id fun _ => ?_
  have himports : Respells ρ (Decl.respelled ρ) (Decl.imports <$> specGroup importSpec ())
      (Decl.imports <$> specGroup importSpec ()) :=
    (specGroup_respells importSpec_respells rfl).map fun _ _ h => congrArg Decl.imports h
  -- imports come first, and each loop goes on from the declarations of the one before
  refine (declsWhile_respells (check_respells _) himports (by simp)).next fun imports => ?_
  have hmore : Respells ρ id (not <$> atEnd) (not <$> atEnd) :=
    atEnd_respells.map fun _ _ h => congrArg not h
  refine (declsWhile_respells hmore decl_respells rfl).next fun decls =>
    settlePending_respells.next fun unresolved => Alike.get.bind fun s s' hs => .pure ?_
  obtain ⟨file, reports, hname, hline, hreports⟩ := hs
  simp [File.respelled, ParseState.respelled, hname]

end Parse

end Idl
