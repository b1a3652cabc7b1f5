/-
Idl/Proofs/Placement/Parse.lean

Parsing a placed file.

`Carries ρ φ m n` says that the step `n`, run in a placed state, does what `m` does in the state
itself: the state after it is the placed one, and the answer is the answer of `m` under `φ`.  Both
steps are the same up to positions, scopes and objects that they are given: they are mirrored by
placing.  Steps that read or change the state carry over one by one, `Carries.bind` and
`Carries.iterate` put them together, and the rest of the module goes through the grammar.

Main result: parsing a file behind others gives the tree that parsing it alone gives, placed
(`file_carries`).  No hypothesis is needed: the grammar looks at tokens and lines only, and
a file never asks for names that it has not declared itself.
-/
import Idl.Proofs.Mirrors
import Idl.Proofs.Placement.Scan

namespace Idl

namespace Parse

variable {ρ : Placement}

/-- `n` does in placed states what `m` does, and answers with `φ` of its answer. -/
def Carries {α β : Type} (ρ : Placement) (φ : α → β) (m : Parse α) (n : Parse β) : Prop :=
  ∀ s, n (s.placed ρ) = (φ (m s).1, (m s).2.placed ρ)

namespace Carries

variable {α β γ δ : Type} {φ : α → β} {ψ : γ → δ}

protected theorem pure {a : α} {b : β} (h : φ a = b) : Carries ρ φ (pure a) (pure b) :=
  Mirrors.pure h

protected theorem bind {m : Parse α} {n : Parse β} {f : α → Parse γ} {g : β → Parse δ}
    (hm : Carries ρ φ m n) (hf : ∀ a, Carries ρ ψ (f a) (g (φ a))) :
    Carries ρ ψ (m >>= f) (n >>= g) := Mirrors.bind hm hf

/-- The first step answers the same in both states. -/
protected theorem bind_id {m n : Parse α} {f : α → Parse γ} {g : α → Parse δ}
    (hm : Carries ρ id m n) (hf : ∀ a, Carries ρ ψ (f a) (g a)) :
    Carries ρ ψ (m >>= f) (n >>= g) := hm.bind hf

protected theorem map {m : Parse α} {n : Parse β} {f : α → γ} {g : β → δ}
    (hm : Carries ρ φ m n) (hfg : ∀ a, g (φ a) = ψ (f a)) :
    Carries ρ ψ (f <$> m) (g <$> n) := Mirrors.map hm hfg

/-- Both steps decide alike. -/
protected theorem ite {c : Prop} [Decidable c] {m m' : Parse α} {n n' : Parse β}
    (hm : Carries ρ φ m n) (hm' : Carries ρ φ m' n') :
    Carries ρ φ (if c then m else m') (if c then n else n') := Mirrors.ite hm hm'

/-- Both repetitions stop together, since placing keeps the number of tokens left. -/
protected theorem iterate {step : α → Parse (Option α)} {step' : β → Parse (Option β)}
    (h : ∀ a, Carries ρ (Option.map φ) (step a) (step' (φ a))) {a : α} {b : β} (hab : φ a = b) :
    Carries ρ φ (iterate step a) (iterate step' b) :=
  Mirrors.iterate (fun _ => List.length_map ..) h hab

/-- The same step for each of several things. -/
protected theorem forM {f : α → Parse Unit} {g : β → Parse Unit}
    (h : ∀ a, Carries ρ id (f a) (g (φ a))) (as : List α) :
    Carries ρ id (as.forM f) ((as.map φ).forM g) := Mirrors.forM h as

end Carries

/-! ### The current token -/

theorem current_placed (s : ParseState) : (s.placed ρ).current = s.current.placed ρ := by
  unfold ParseState.current ParseState.placed
  cases s.left <;> rfl

theorem current_carries : Carries ρ (SignificantToken.placed ρ) current current := by
  intro s
  show ((s.placed ρ).current, s.placed ρ) = _
  rw [current_placed]
  rfl

theorem kind_carries : Carries ρ id kind kind := by
  intro s
  show ((s.placed ρ).current.token.kind, s.placed ρ) = _
  rw [current_placed]
  rfl

theorem pos_carries : Carries ρ ρ.pos pos pos := by
  intro s
  show ((s.placed ρ).current.token.pos, s.placed ρ) = _
  rw [current_placed]
  exact congrArg (·, _) (s.current.token.placed_pos ρ)

theorem line_carries : Carries ρ id line line := by
  intro s
  show ((s.placed ρ).file.lineOf (s.placed ρ).current.token.pos, s.placed ρ) = _
  rw [current_placed]
  show ((s.file.placed ρ).lineOf (s.current.token.placed ρ).pos, _) = _
  rw [Token.placed_pos, SourceFile.lineOf_placed]
  rfl

theorem nextKind_carries : Carries ρ id nextKind nextKind := by
  intro s
  rcases h : s.left with - | ⟨t, - | ⟨t', rest⟩⟩ <;>
    simp [nextKind, ParseState.placed, h]

theorem atEnd_carries : Carries ρ id atEnd atEnd := by
  intro s
  show ((s.left.map (SignificantToken.placed ρ)).isEmpty, s.placed ρ) = _
  rw [List.isEmpty_map]
  rfl

theorem check_carries (k : TokenKind) : Carries ρ id (check k) (check k) := by
  intro s
  show ((s.placed ρ).current.token.kind == k, s.placed ρ) = _
  rw [current_placed]
  rfl

theorem advance_carries : Carries ρ (Token.placed ρ) advance advance := by
  intro s
  unfold advance
  cases h : s.left with
  | nil => simp [ParseState.placed, h, SignificantToken.placed]
  | cons t rest =>
    have hlead : ((rest.map (SignificantToken.placed ρ)).headD (s.eof.placed ρ)).lead =
        (rest.headD s.eof).lead.map (CommentGroup.placed ρ) := by
      cases rest <;> rfl
    simp only [ParseState.placed, h, List.map_cons, hlead]
    rfl

theorem takeLead_carries :
    Carries ρ (Option.map (CommentGroup.placed ρ)) takeLead takeLead := fun _ => rfl

theorem trailing_carries :
    Carries ρ (Option.map (CommentGroup.placed ρ)) trailing trailing := by
  intro s
  show ((s.placed ρ).current.trailing, s.placed ρ) = _
  rw [current_placed]
  rfl

/-! ### Reports -/

theorem report_carries (d : Diagnostic) : Carries ρ id (report d) (report (d.placed ρ)) := by
  intro s
  simp [report, ParseState.placed]

theorem reportExpected_carries (what : String) :
    Carries ρ id (reportExpected what) (reportExpected what) :=
  current_carries.bind fun t => report_carries (.error _ t.token.span)

/-! ### Taking what is expected -/

theorem expect_carries (k : TokenKind) : Carries ρ ρ.pos (expect k) (expect k) := by
  refine pos_carries.bind fun p => (check_carries k).bind_id fun b => .ite ?_ ?_
  · exact advance_carries.bind fun _ => .pure rfl
  · exact (reportExpected_carries _).bind fun _ => .pure rfl

theorem endOfItem_carries : Carries ρ id endOfItem endOfItem := by
  refine kind_carries.bind_id fun k => ?_
  split
  · exact (reportExpected_carries _).bind fun _ => advance_carries.bind fun _ => .pure rfl
  · exact advance_carries.bind fun _ => .pure rfl
  · exact .pure rfl

theorem newIdent_carries (name : String) (p : Pos) :
    Carries ρ (Ident.placed ρ) (newIdent name p) (newIdent name (ρ.pos p)) := fun _ => rfl

theorem ident_carries : Carries ρ (Ident.placed ρ) ident ident := by
  refine current_carries.bind fun t => ?_
  simp only [SignificantToken.placed_token, Token.placed_kind, Token.placed_text, Token.placed_pos]
  refine .ite ?_ ?_
  · exact advance_carries.bind fun _ => newIdent_carries _ _
  · exact (expect_carries _).bind fun _ => newIdent_carries _ _

theorem lit_carries (k : LitKind) : Carries ρ (Lit.placed ρ) (lit k) (lit k) := by
  refine advance_carries.bind fun t => ?_
  rw [Token.placed_pos]
  exact .pure rfl

theorem string?_carries : Carries ρ (Option.map (Lit.placed ρ)) string? string? := by
  refine (check_carries _).bind_id fun b => .ite ?_ ?_
  · exact (lit_carries _).bind fun _ => .pure rfl
  · exact .pure rfl

theorem identList_carries : Carries ρ (List.map (Ident.placed ρ)) identList identList := by
  refine ident_carries.bind fun first => ?_
  refine Carries.bind (φ := Array.map (Ident.placed ρ)) (.iterate (fun names => ?_) (by simp))
    fun names => .pure Array.toList_map.symm
  refine (check_carries _).bind_id fun b => .ite ?_ (.pure rfl)
  exact advance_carries.bind fun _ => ident_carries.bind fun i =>
    .pure (congrArg some Array.map_push)

/-! ### Types -/

theorem arraySize_carries : Carries ρ (Value.placed ρ) arraySize arraySize := by
  refine kind_carries.bind_id fun k => ?_
  split
  · exact (lit_carries _).bind fun _ => .pure rfl
  · exact ident_carries.bind fun _ => .pure rfl
  · exact pos_carries.bind fun _ => (reportExpected_carries _).bind fun _ => .pure rfl

theorem typeNested_carries (levels : Nat) :
    Carries ρ (TypeExpr.placed ρ) (typeNested levels) (typeNested levels) := by
  induction levels with
  | zero =>
    refine current_carries.bind fun t => ?_
    simp only [SignificantToken.placed_token, Token.placed_kind, Token.placed_pos]
    refine .ite ?_ ?_
    · exact (report_carries (.error _ t.token.span)).bind fun _ => .pure rfl
    · exact (reportExpected_carries _).bind fun _ => .pure rfl
  | succ levels ih =>
    refine (check_carries _).bind_id fun b => .ite ?_ ?_
    · exact pos_carries.bind fun _ => (reportExpected_carries _).bind fun _ => .pure rfl
    refine ident_carries.bind fun name => (check_carries _).bind_id fun b => .ite ?_ ?_
    · exact advance_carries.bind fun _ => ident_carries.bind fun _ => .pure rfl
    rw [Ident.placed_name]
    split
    · exact .pure rfl
    · exact (expect_carries _).bind fun _ => ih.bind fun _ => (expect_carries _).bind fun _ =>
        ih.bind fun _ => (expect_carries _).bind fun _ => .pure rfl
    · exact (expect_carries _).bind fun _ => ih.bind fun _ => (expect_carries _).bind fun _ =>
        arraySize_carries.bind fun _ => (expect_carries _).bind fun _ => .pure rfl
    · exact (expect_carries _).bind fun _ => ih.bind fun _ => (expect_carries _).bind fun _ =>
        .pure rfl
    · exact .pure rfl

theorem typeExpr_carries : Carries ρ (TypeExpr.placed ρ) typeExpr typeExpr := typeNested_carries _

/-! ### Signatures -/

/-- Parameters of the placed file. -/
def ParamsSoFar.placed (ρ : Placement) (p : ParamsSoFar) : ParamsSoFar :=
  ⟨p.params.map (Param.placed ρ), p.broken.map ρ.pos⟩

theorem ParamsSoFar.placed_push (p : ParamsSoFar) (q : Param) (broken : Option Pos) :
    ParamsSoFar.placed ρ ⟨p.params.push q, broken⟩ =
      ⟨(p.placed ρ).params.push (q.placed ρ), broken.map ρ.pos⟩ := by
  unfold placed
  rw [Array.map_push]

theorem param_carries (p : ParamsSoFar) :
    Carries ρ (Option.map (ParamsSoFar.placed ρ)) (param p) (param (p.placed ρ)) := by
  refine (check_carries _).bind_id fun b => atEnd_carries.bind_id fun e => ?_
  rw [show (p.placed ρ).broken.isSome = p.broken.isSome from Option.isSome_map ..]
  refine .ite (.pure rfl) (typeExpr_carries.bind fun type => kind_carries.bind_id fun k => ?_)
  split
  · refine ident_carries.bind fun name => (check_carries _).bind_id fun b => .ite ?_ ?_
    · exact advance_carries.bind fun _ => .pure (congrArg some (p.placed_push _ _))
    · exact .pure (congrArg some (p.placed_push _ _))
  · exact advance_carries.bind fun _ => .pure (congrArg some (p.placed_push _ _))
  · exact .pure (congrArg some (p.placed_push _ _))
  · refine current_carries.bind fun t => (report_carries (.error _ t.token.span)).bind fun _ => ?_
    rw [SignificantToken.placed_token, Token.placed_pos]
    exact .pure (congrArg some (p.placed_push _ _))

/-- A parameter list of the placed file. -/
def ParamList.placed (ρ : Placement) (l : ParamList) : ParamList :=
  ⟨ρ.pos l.opening, l.params.map (Param.placed ρ), ρ.pos l.closing⟩

theorem paramList_carries : Carries ρ (ParamList.placed ρ) paramList paramList := by
  refine (expect_carries _).bind fun opening => ?_
  refine Carries.bind (φ := ParamsSoFar.placed ρ)
    (.iterate param_carries (by simp [ParamsSoFar.placed])) fun p => ?_
  have hparams : (p.placed ρ).params.toList = p.params.toList.map (Param.placed ρ) :=
    Array.toList_map
  rw [show (p.placed ρ).broken = p.broken.map ρ.pos from rfl, hparams]
  cases p.broken with
  | none => exact (expect_carries _).bind fun _ => .pure rfl
  | some c => exact .pure rfl

theorem methodResult_carries (openLine : Nat) :
    Carries ρ (Option.map (TypeExpr.placed ρ)) (methodResult openLine) (methodResult openLine) := by
  refine (check_carries _).bind_id fun b => line_carries.bind_id fun l =>
    nextKind_carries.bind_id fun k => .ite ?_ (.pure rfl)
  exact typeExpr_carries.bind fun _ => .pure rfl

theorem signature_carries : Carries ρ (Signature.placed ρ) signature signature :=
  line_carries.bind_id fun _ => paramList_carries.bind fun _ =>
    (methodResult_carries _).bind fun _ => .pure rfl

/-! ### Binding names -/

theorem get_carries : Carries ρ (ParseState.placed ρ) get get := fun _ => rfl

theorem set_carries (s : ParseState) : Carries ρ id (set s) (set (s.placed ρ)) := fun _ => rfl

theorem modify_carries {f g : ParseState → ParseState}
    (h : ∀ s, g (s.placed ρ) = (f s).placed ρ) : Carries ρ id (modify f) (modify g) := by
  intro s
  show ((), g (s.placed ρ)) = _
  rw [h]
  rfl

theorem bind_carries (i : Ident) (o : ObjectId) :
    Carries ρ id (Parse.bind i o) (Parse.bind (i.placed ρ) (ρ.object o)) := by
  intro s
  show ((), { s.placed ρ with resolutions := (s.resolutions.placed ρ).set i.id (ρ.object o) }) = _
  rw [Resolutions.set_placed]
  rfl

theorem setSymbols_carries (t : SymbolTable) :
    Carries ρ id (modify fun s => { s with symbols := t })
      (modify fun s => { s with symbols := t.placed ρ }) := fun _ => rfl

/-- A name that is declared twice is so in the placed file, and the place of the first
declaration reads the same. -/
theorem declare_carries (i : Ident) (kind : ObjectKind) (origin : Origin) (data : Option Int)
    (scope : ScopeId) :
    Carries ρ id (declare i kind origin data scope)
      (declare (i.placed ρ) kind (origin.placed ρ) data (ρ.scope scope)) := by
  refine get_carries.bind fun s => ?_
  have hnew : (s.placed ρ).symbols.newObject ⟨kind, i.name, origin.placed ρ, ρ.pos i.pos, data⟩ =
      (ρ.object (s.symbols.newObject ⟨kind, i.name, origin, i.pos, data⟩).1,
        (s.symbols.newObject ⟨kind, i.name, origin, i.pos, data⟩).2.placed ρ) :=
    s.symbols.newObject_placed ρ ⟨kind, i.name, origin, i.pos, data⟩
  simp only [Ident.placed_name, Ident.placed_pos, hnew]
  generalize s.symbols.newObject ⟨kind, i.name, origin, i.pos, data⟩ = new
  obtain ⟨object, symbols⟩ := new
  refine (setSymbols_carries symbols).bind_id fun _ => ?_
  refine (bind_carries i object).bind_id fun _ => .ite (.pure rfl) ?_
  simp only [SymbolTable.insert_placed]
  obtain ⟨existing, symbols⟩ := symbols.insert scope object
  refine (setSymbols_carries symbols).bind_id fun _ => ?_
  cases existing with
  | none => exact .pure rfl
  | some existing =>
    refine get_carries.bind fun s => ?_
    have hpos : (s.placed ρ).file.position (ρ.pos (symbols.posOf existing)) =
        s.file.position (symbols.posOf existing) := s.file.position_placed ρ _
    simp only [SymbolTable.posOf_placed, Placement.isValid_pos, hpos, Ident.placed_span]
    exact report_carries (.error _ i.span)

theorem resolveIdent_carries (i : Ident) :
    Carries ρ id (resolveIdent i) (resolveIdent (i.placed ρ)) := by
  refine .ite (.pure rfl) (get_carries.bind fun s => ?_)
  have h : (s.placed ρ).symbols.resolve? (s.placed ρ).fileScope i.name =
      (s.symbols.resolve? s.fileScope i.name).map ρ.object := s.symbols.resolve?_placed ρ _ _
  simp only [Ident.placed_name, h]
  cases s.symbols.resolve? s.fileScope i.name with
  | some object => exact bind_carries i object
  | none =>
    have hp : (s.placed ρ).pending.push (i.placed ρ) = (s.pending.push i).map (Ident.placed ρ) :=
      Array.map_push.symm
    simp only [Option.map_none, hp]
    exact set_carries { s with pending := s.pending.push i }

theorem resolveTypeExpr_carries (t : TypeExpr) :
    Carries ρ id (resolveTypeExpr t) (resolveTypeExpr (t.placed ρ)) := by
  induction t with
  | bad p => exact .pure rfl
  | basic name b => exact .pure rfl
  | array p elem size closing ih =>
    refine ih.bind fun _ => ?_
    cases size with
    | bad p => exact .pure rfl
    | ident i => exact resolveIdent_carries i
    | lit l => exact .pure rfl
  | vector p elem closing ih => exact ih
  | map p key value closing ihk ihv => exact ihk.bind fun _ => ihv
  | named qualifier name =>
    cases qualifier with
    | none => exact resolveIdent_carries name
    | some q =>
      refine modify_carries fun s => ?_
      have hq : (s.placed ρ).qualified.push (QualifiedRef.placed ρ ⟨q, name⟩) =
          (s.qualified.push ⟨q, name⟩).map (QualifiedRef.placed ρ) := Array.map_push.symm
      exact congrArg (fun qs => { s.placed ρ with qualified := qs }) hq

theorem resolveMemberType_carries (t : MemberType) :
    Carries ρ id (resolveMemberType t) (resolveMemberType (t.placed ρ)) := by
  cases t with
  | plain t => exact resolveTypeExpr_carries t
  | func sig =>
    refine (Carries.forM (φ := Param.placed ρ) (fun p => resolveTypeExpr_carries p.type)
      sig.params).bind_id fun _ => ?_
    have h : (sig.placed ρ).result = sig.result.map (TypeExpr.placed ρ) := rfl
    rw [h]
    cases sig.result with
    | none => exact .pure rfl
    | some t => exact resolveTypeExpr_carries t

/-! ### Members -/

theorem memberOrigin_carries (index : Nat) :
    Carries ρ (Origin.placed ρ) (memberOrigin index) (memberOrigin index) := fun _ => rfl

theorem fieldOptions_carries :
    Carries ρ (List.map (Ident.placed ρ)) fieldOptions fieldOptions := by
  refine Carries.bind (φ := Array.map (Ident.placed ρ)) (.iterate (fun options => ?_) (by simp))
    fun _ => .pure Array.toList_map.symm
  refine kind_carries.bind_id fun k => ?_
  split
  · refine advance_carries.bind fun t => ?_
    rw [Token.placed_pos]
    exact (newIdent_carries _ _).bind fun i => .pure (congrArg some Array.map_push)
  · refine advance_carries.bind fun t => ?_
    rw [Token.placed_pos]
    exact (newIdent_carries _ _).bind fun i => .pure (congrArg some Array.map_push)
  · exact .pure rfl

theorem typeAndNames_carries :
    Carries ρ (fun p => (p.1.placed ρ, p.2.map (Ident.placed ρ))) typeAndNames typeAndNames := by
  refine (check_carries _).bind_id fun b => .ite ?_ ?_
  · exact advance_carries.bind fun _ => typeExpr_carries.bind fun _ => .pure rfl
  · exact typeExpr_carries.bind fun _ => identList_carries.bind fun _ => .pure rfl

theorem field_carries (scope : ScopeId) (index : Nat) :
    Carries ρ (Member.placed ρ) (field scope index) (field (ρ.scope scope) index) := by
  refine takeLead_carries.bind fun doc => fieldOptions_carries.bind fun options =>
    typeAndNames_carries.bind fun p => string?_carries.bind fun tag =>
    endOfItem_carries.bind_id fun _ => trailing_carries.bind fun comment =>
    (memberOrigin_carries index).bind fun origin => ?_
  refine (Carries.forM (φ := Ident.placed ρ) (fun name => declare_carries name .var origin none scope) p.2).bind_id
    fun _ => ?_
  exact (resolveTypeExpr_carries p.1).bind_id fun _ => .pure rfl

theorem methodName?_placed (t : TypeExpr) :
    methodName? (t.placed ρ) = (methodName? t).map (Ident.placed ρ) := by
  cases t with
  | named qualifier name => cases qualifier <;> rfl
  | _ => rfl

theorem nameAndType_carries :
    Carries ρ (fun p => (p.1.map (Ident.placed ρ), p.2.placed ρ)) nameAndType nameAndType := by
  refine typeExpr_carries.bind fun first => (check_carries _).bind_id fun opens => ?_
  have h : (if opens then methodName? (first.placed ρ) else none) =
      (if opens then methodName? first else none).map (Ident.placed ρ) := by
    rw [methodName?_placed]
    cases opens <;> rfl
  rw [h]
  cases if opens then methodName? first else none with
  | none => exact .pure rfl
  | some name =>
    exact signature_carries.bind fun _ => .pure rfl

theorem method_carries (scope : ScopeId) (index : Nat) :
    Carries ρ (Member.placed ρ) (method scope index) (method (ρ.scope scope) index) := by
  refine takeLead_carries.bind fun doc => nameAndType_carries.bind fun p =>
    endOfItem_carries.bind_id fun _ => trailing_carries.bind fun comment =>
    (memberOrigin_carries index).bind fun origin => ?_
  have hnames : (p.1.map (Ident.placed ρ)).toList = p.1.toList.map (Ident.placed ρ) :=
    (Option.toList_map ..)
  simp only [hnames]
  refine (Carries.forM (φ := Ident.placed ρ) (fun name => declare_carries name .func origin none scope)
    p.1.toList).bind_id fun _ => ?_
  exact (resolveMemberType_carries p.2).bind_id fun _ => .pure rfl

theorem enumValue_carries : Carries ρ (Value.placed ρ) enumValue enumValue := by
  refine kind_carries.bind_id fun k => ?_
  split
  · exact (lit_carries _).bind fun _ => .pure rfl
  · exact ident_carries.bind fun _ => .pure rfl
  · exact pos_carries.bind fun _ => (reportExpected_carries _).bind fun _ => .pure rfl

theorem endOfEnumerator_carries : Carries ρ id endOfEnumerator endOfEnumerator :=
  (check_carries _).bind_id fun _ => .ite ((expect_carries _).bind fun _ => .pure rfl) (.pure rfl)

theorem enumerator_carries (scope : ScopeId) (index : Nat) :
    Carries ρ (Member.placed ρ) (enumerator scope index) (enumerator (ρ.scope scope) index) := by
  refine takeLead_carries.bind fun doc => ident_carries.bind fun name =>
    (expect_carries _).bind fun _ => enumValue_carries.bind fun value =>
    endOfEnumerator_carries.bind_id fun _ => trailing_carries.bind fun comment =>
    (memberOrigin_carries index).bind fun origin => ?_
  exact (declare_carries name .const origin _ scope).bind_id fun _ => .pure rfl

theorem member?_carries (kind : BeanKind) (scope : ScopeId) (index : Nat) :
    Carries ρ (Option.map (Member.placed ρ)) (member? kind scope index)
      (member? kind (ρ.scope scope) index) := by
  refine current_carries.bind fun t => ?_
  simp only [SignificantToken.placed_token, Token.placed_kind]
  split
  case h_1 => exact (method_carries scope index).map fun _ => rfl
  case h_2 => exact (enumerator_carries scope index).map fun _ => rfl
  case h_11 => exact .pure rfl
  all_goals exact (field_carries scope index).map fun _ => rfl

theorem moreMembers_carries (kind : BeanKind) (scope : ScopeId) (members : Array Member) :
    Carries ρ (Option.map (Array.map (Member.placed ρ))) (moreMembers kind scope members)
      (moreMembers kind (ρ.scope scope) (members.map (Member.placed ρ))) := by
  unfold moreMembers
  rw [Array.size_map]
  refine (member?_carries kind scope members.size).bind fun m => .pure ?_
  cases m with
  | none => rfl
  | some m => exact congrArg some Array.map_push

theorem bean_carries (kind : BeanKind) : Carries ρ (Bean.placed ρ) (bean kind) (bean kind) := by
  refine takeLead_carries.bind fun doc => advance_carries.bind fun start =>
    ident_carries.bind fun name => string?_carries.bind fun tag => get_carries.bind fun s => ?_
  have hnew : (s.placed ρ).symbols.newScope (some (s.placed ρ).fileScope) =
      (ρ.scope (s.symbols.newScope (some s.fileScope)).1,
        (s.symbols.newScope (some s.fileScope)).2.placed ρ) :=
    s.symbols.newScope_placed ρ (some s.fileScope)
  simp only [hnew]
  generalize s.symbols.newScope (some s.fileScope) = new
  obtain ⟨scope, symbols⟩ := new
  refine (set_carries { s with symbols := symbols }).bind_id fun _ =>
    (expect_carries _).bind fun opening => ?_
  refine Carries.bind (φ := Array.map (Member.placed ρ))
    (.iterate (moreMembers_carries kind scope) (by simp)) fun members => ?_
  refine (expect_carries _).bind fun closing => get_carries.bind fun s' => ?_
  refine (declare_carries name .bean (.decl s'.fileId s'.declIndex) none s.fileScope).bind_id
    fun _ => .pure ?_
  simp only [Bean.placed, MemberList.placed, Array.toList_map, Token.placed_pos]

/-! ### Declarations -/

theorem specGroup_carries {α α' β β' : Type} {φ : α → α'} {ψ : β → β'}
    {spec : Option CommentGroup → Nat → β → Parse (α × β)}
    {spec' : Option CommentGroup → Nat → β' → Parse (α' × β')}
    (h : ∀ doc index b, Carries ρ (Prod.map φ ψ) (spec doc index b)
      (spec' (doc.map (CommentGroup.placed ρ)) index (ψ b))) (start : β) :
    Carries ρ (fun g => ⟨g.doc.map (CommentGroup.placed ρ), ρ.pos g.pos,
      g.parens.map fun p => (ρ.pos p.1, ρ.pos p.2), g.specs.map φ⟩)
      (specGroup spec start) (specGroup spec' (ψ start)) := by
  refine takeLead_carries.bind fun doc => advance_carries.bind fun t =>
    (check_carries _).bind_id fun b => ?_
  rw [Token.placed_pos]
  refine .ite (advance_carries.bind fun t' => ?_) ?_
  · rw [Token.placed_pos]
    refine Carries.bind (φ := Prod.map (Array.map φ) ψ)
      (.iterate (fun sofar => ?_) (by simp)) fun sofar => ?_
    · refine (check_carries _).bind_id fun closes => atEnd_carries.bind_id fun e =>
        .ite (.pure rfl) (get_carries.bind fun s => takeLead_carries.bind fun doc => ?_)
      have hleft : (s.placed ρ).left.length = s.left.length := List.length_map ..
      rw [hleft, Prod.map_fst, Array.size_map, Prod.map_snd]
      refine (h doc sofar.1.size sofar.2).bind fun r => get_carries.bind fun s' => ?_
      have hleft' : (s'.placed ρ).left.length = s'.left.length := List.length_map ..
      rw [hleft']
      refine .ite (advance_carries.bind fun _ => .pure ?_) (.pure ?_)
      all_goals exact congrArg some (Prod.ext Array.map_push rfl)
    · exact (expect_carries _).bind fun _ => .pure (by simp)
  · refine (h none 0 start).bind fun r => .pure rfl

theorem importName_carries :
    Carries ρ (Option.map (Ident.placed ρ)) importName importName := by
  refine kind_carries.bind_id fun k => ?_
  split
  · refine advance_carries.bind fun t => ?_
    rw [Token.placed_pos]
    exact (newIdent_carries _ _).bind fun _ => .pure rfl
  · exact ident_carries.bind fun _ => .pure rfl
  · exact .pure rfl

theorem importPath_carries : Carries ρ (Lit.placed ρ) importPath importPath := by
  refine current_carries.bind fun t => .ite ?_ ?_
  · refine (lit_carries _).bind fun path => .ite ?_ (.pure rfl)
    exact (report_carries (.error _ t.token.span)).bind fun _ => .pure rfl
  · exact (expect_carries _).bind fun _ => .pure rfl

theorem importSpec_carries (doc : Option CommentGroup) (index : Nat) (u : Unit) :
    Carries ρ (Prod.map (ImportSpec.placed ρ) id) (importSpec doc index u)
      (importSpec (doc.map (CommentGroup.placed ρ)) index u) :=
  importName_carries.bind fun _ => importPath_carries.bind fun _ =>
    endOfItem_carries.bind_id fun _ => trailing_carries.bind fun _ => .pure rfl

theorem constValue_carries : Carries ρ (Value.placed ρ) constValue constValue := by
  refine kind_carries.bind_id fun k => ?_
  split
  · exact (lit_carries _).bind fun _ => .pure rfl
  · exact (lit_carries _).bind fun _ => .pure rfl
  · exact (lit_carries _).bind fun _ => .pure rfl
  · exact ident_carries.bind fun i => (resolveIdent_carries i).bind fun _ => .pure rfl
  · exact pos_carries.bind fun _ => (reportExpected_carries _).bind fun _ => .pure rfl

theorem ownValue_carries : Carries ρ (Option.map (Value.placed ρ)) ownValue ownValue := by
  refine (check_carries _).bind_id fun b => .ite ?_ (.pure rfl)
  exact advance_carries.bind fun _ => constValue_carries.bind fun _ => .pure rfl

theorem requireValue_carries (name : Ident) (index : Nat) (own : Option Value) :
    Carries ρ id (requireValue name index own)
      (requireValue (name.placed ρ) index (own.map (Value.placed ρ))) := by
  unfold requireValue
  rw [Option.isNone_map, Ident.placed_span]
  exact .ite (report_carries (.error _ name.span)) (.pure rfl)

theorem constSpec_carries (doc : Option CommentGroup) (index : Nat) (previous : Option Value) :
    Carries ρ (Prod.map (ConstSpec.placed ρ) (Option.map (Value.placed ρ)))
      (constSpec doc index previous)
      (constSpec (doc.map (CommentGroup.placed ρ)) index (previous.map (Value.placed ρ))) := by
  refine ident_carries.bind fun name => ownValue_carries.bind fun own =>
    endOfItem_carries.bind_id fun _ => trailing_carries.bind fun comment =>
    (requireValue_carries name index own).bind_id fun _ => get_carries.bind fun s => ?_
  refine (declare_carries name .const (.spec s.fileId s.declIndex index) _ s.fileScope).bind_id
    fun _ => .pure ?_
  cases own <;> rfl

/-- Skipping compares positions with one another only. -/
theorem skipStep_carries (u : Unit) :
    Carries ρ (Option.map id) (skipStep u) (skipStep u) := by
  refine get_carries.bind fun s => ?_
  have hempty : (s.placed ρ).left.isEmpty = s.left.isEmpty := List.isEmpty_map
  have hlt : ((s.placed ρ).syncPos < ρ.pos s.current.token.pos) ↔
      s.syncPos < s.current.token.pos := ρ.pos_lt_pos
  have heq : (ρ.pos s.current.token.pos == (s.placed ρ).syncPos) =
      (s.current.token.pos == s.syncPos) := by
    rw [Bool.eq_iff_iff, beq_iff_eq, beq_iff_eq]
    exact ρ.pos_inj
  simp only [current_placed, SignificantToken.placed_token, Token.placed_kind, Token.placed_pos,
    hempty, hlt, heq]
  refine .ite (.pure rfl) (.ite ?_ (.ite ?_ ?_))
  · exact (set_carries { s with syncStops := s.syncStops + 1 }).bind_id fun _ => .pure rfl
  · exact (set_carries { s with syncPos := s.current.token.pos, syncStops := 0 }).bind_id
      fun _ => .pure rfl
  · exact advance_carries.bind fun _ => .pure rfl

theorem skipToDecl_carries : Carries ρ id skipToDecl skipToDecl :=
  .iterate skipStep_carries rfl

theorem decl_carries : Carries ρ (Decl.placed ρ) decl decl := by
  refine kind_carries.bind_id fun k => ?_
  split
  · exact (specGroup_carries constSpec_carries none).bind fun _ => .pure rfl
  · exact (bean_carries _).bind fun _ => .pure rfl
  · exact (bean_carries _).bind fun _ => .pure rfl
  · exact (bean_carries _).bind fun _ => .pure rfl
  · exact (bean_carries _).bind fun _ => .pure rfl
  · exact pos_carries.bind fun _ => (reportExpected_carries _).bind fun _ =>
      skipToDecl_carries.bind fun _ => pos_carries.bind fun _ => .pure rfl

/-! ### Files -/

theorem declsWhile_carries {more : Parse Bool} {one : Parse Decl}
    (hmore : Carries ρ id more more) (hone : Carries ρ (Decl.placed ρ) one one)
    {decls decls' : Array Decl} (hd : decls.map (Decl.placed ρ) = decls') :
    Carries ρ (Array.map (Decl.placed ρ)) (declsWhile more one decls)
      (declsWhile more one decls') := by
  refine .iterate (fun decls => hmore.bind_id fun b => .ite ?_ (.pure rfl)) hd
  rw [Array.size_map]
  have hindex : Carries ρ id (modify fun s => { s with declIndex := decls.size })
      (modify fun s => { s with declIndex := decls.size }) := fun _ => rfl
  refine hindex.bind_id fun _ => hone.bind fun d => .pure ?_
  exact congrArg some Array.map_push

/-- Placing what one settled name adds to the resolutions. -/
theorem settle_placed (found : Ident → Option ObjectId) (r : Resolutions) (i : Ident) :
    (((found i).map ρ.object).map ((r.placed ρ).set i.id)).getD (r.placed ρ) =
      (((found i).map (r.set i.id)).getD r).placed ρ := by
  cases found i with
  | none => rfl
  | some o => exact r.set_placed ρ i.id o

theorem settlePending_carries :
    Carries ρ (List.map (Ident.placed ρ)) settlePending settlePending := by
  intro s
  have hfound (i : Ident) : (s.placed ρ).symbols.lookup? (s.placed ρ).fileScope i.name =
      (s.symbols.lookup? s.fileScope i.name).map ρ.object := s.symbols.lookup?_placed ρ _ _
  have hpending : (s.placed ρ).pending.toList = s.pending.toList.map (Ident.placed ρ) :=
    Array.toList_map
  unfold settlePending
  simp only [hpending, hfound]
  refine Prod.ext ?_ ?_
  · rw [List.filter_map]
    simp only [Function.comp_def, Ident.placed_name, Option.isNone_map]
  · show ({ s.placed ρ with resolutions := _ } : ParseState) = _
    have hfold (is : List Ident) (r : Resolutions) :
        (is.map (Ident.placed ρ)).foldl (fun (r : Resolutions) i =>
            (((s.symbols.lookup? s.fileScope i.name).map ρ.object).map (r.set i.id)).getD r)
          (r.placed ρ) =
        (is.foldl (fun (r : Resolutions) i =>
            ((s.symbols.lookup? s.fileScope i.name).map (r.set i.id)).getD r) r).placed ρ := by
      induction is generalizing r with
      | nil => rfl
      | cons i is ih =>
        rw [List.map_cons, List.foldl_cons, List.foldl_cons, ← ih, Ident.placed_name,
          Ident.placed_id, settle_placed fun i => s.symbols.lookup? s.fileScope i.name]
    rw [show (s.placed ρ).resolutions = s.resolutions.placed ρ from rfl, hfold]
    rfl

theorem packageName_carries : Carries ρ (Ident.placed ρ) packageName packageName := by
  refine current_carries.bind fun t => ident_carries.bind fun name => .ite ?_ (.pure rfl)
  rw [Ident.placed_span]
  exact (report_carries (.error _ name.span)).bind fun _ => .pure rfl

/-- A file that is parsed behind others gives the tree that it gives alone, placed. -/
theorem file_carries (comments : List CommentGroup) :
    Carries ρ (File.placed ρ) (file comments) (file (comments.map (CommentGroup.placed ρ))) := by
  refine takeLead_carries.bind fun doc => (expect_carries _).bind fun packagePos =>
    packageName_carries.bind fun name => endOfItem_carries.bind_id fun _ => ?_
  have himports : Carries ρ (Decl.placed ρ) (Decl.imports <$> specGroup importSpec ())
      (Decl.imports <$> specGroup importSpec ()) :=
    (specGroup_carries importSpec_carries ()).map fun _ => rfl
  refine (declsWhile_carries (check_carries _) himports (by simp)).bind fun imports => ?_
  have hmore : Carries ρ id (not <$> atEnd) (not <$> atEnd) := atEnd_carries.map fun _ => rfl
  refine (declsWhile_carries hmore decl_carries rfl).bind fun decls =>
    settlePending_carries.bind fun unresolved => get_carries.bind fun s => .pure ?_
  simp [File.placed, ParseState.placed, SourceFile.placed]

end Parse

end Idl
