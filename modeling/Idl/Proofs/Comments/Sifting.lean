/-
Idl/Proofs/Comments/Sifting.lean

Parsing without some of the comments.

Tokens carry the comments that stand around them, and steps hand them on to the tree, but no step
decides anything by them.  `Unaware keep m` says that the step `m` does the same when only the comments
that `keep` holds of are left in its state.  So is every step of the grammar, save those that answer
with a part of the tree: these answer with the same part, in which the same comments are left.

Main result: parsing a file from tokens with fewer comments gives the tree that parsing it with all of
them gives, sifted (`file_sifted`).
-/
import Idl.Proofs.Mirrors
import Idl.Syntax.File

namespace Idl

/-! ### With fewer comments -/

section Sifted

variable (keep : CommentGroup → Bool)

/-- A token with some of the comments around it. -/
def SignificantToken.sifted (t : SignificantToken) : SignificantToken :=
  ⟨t.token, t.lead.filter keep, t.trailing.filter keep, t.groups.filter keep⟩

theorem SignificantToken.sifted_token (t : SignificantToken) :
    (t.sifted keep).token = t.token := rfl

/-- A state of parsing with some of the comments. -/
def ParseState.sifted (s : ParseState) : ParseState :=
  { s with left := s.left.map (.sifted keep), eof := s.eof.sifted keep, lead := s.lead.filter keep }

/-- A member with some of its comments. -/
def Member.sifted (m : Member) : Member :=
  { m with doc := m.doc.filter keep, comment := m.comment.filter keep }

/-- A bean with some of its comments. -/
def Bean.sifted (b : Bean) : Bean :=
  { b with
    doc := b.doc.filter keep
    body := { b.body with members := b.body.members.map (.sifted keep) } }

/-- An import with some of its comments. -/
def ImportSpec.sifted (s : ImportSpec) : ImportSpec :=
  { s with doc := s.doc.filter keep, comment := s.comment.filter keep }

/-- A constant with some of its comments. -/
def ConstSpec.sifted (s : ConstSpec) : ConstSpec :=
  { s with doc := s.doc.filter keep, comment := s.comment.filter keep }

/-- A group of specifications with some of its comments. -/
def SpecGroup.sifted {α : Type} (spec : α → α) (g : SpecGroup α) : SpecGroup α :=
  { g with doc := g.doc.filter keep, specs := g.specs.map spec }

/-- A declaration with some of its comments. -/
def Decl.sifted : Decl → Decl
  | .bad span => .bad span
  | .imports g => .imports (g.sifted keep (.sifted keep))
  | .consts g => .consts (g.sifted keep (.sifted keep))
  | .bean b => .bean (b.sifted keep)

/-- A file with some of its comments. -/
def File.sifted (f : File) : File :=
  { f with
    doc := f.doc.filter keep
    decls := f.decls.map (.sifted keep)
    comments := f.comments.filter keep }

end Sifted

namespace Parse

/-- The step does the same in a state without some of the comments. -/
def Unaware {α : Type} (keep : CommentGroup → Bool) (m : Parse α) : Prop :=
  Mirrors (ParseState.sifted keep) id m m

variable {keep : CommentGroup → Bool}

namespace Unaware

variable {α β : Type}

protected theorem pure (a : α) : Unaware keep (pure a) := Mirrors.pure rfl

protected theorem bind {m : Parse α} {k : α → Parse β} (hm : Unaware keep m)
    (hk : ∀ a, Unaware keep (k a)) : Unaware keep (m >>= k) := Mirrors.bind_id hm hk

protected theorem ite {c : Prop} [Decidable c] {m m' : Parse α} (hm : Unaware keep m)
    (hm' : Unaware keep m') : Unaware keep (if c then m else m') := Mirrors.ite hm hm'

protected theorem iterate {step : α → Parse (Option α)} (h : ∀ a, Unaware keep (step a)) (a : α) :
    Unaware keep (iterate step a) := by
  -- a loop runs at most once for each token that is left, and there are as many without comments
  refine Mirrors.iterate (fun s => List.length_map ..) (fun a => ?_) rfl
  rw [Option.map_id]
  exact h a

protected theorem forM {k : α → Parse Unit} (h : ∀ a, Unaware keep (k a)) (as : List α) :
    Unaware keep (as.forM k) := by
  have hall := Mirrors.forM (φ := id) h as
  rwa [List.map_id] at hall

end Unaware

/-! ### The current token -/

theorem current_eq_sifted (s : ParseState) : (s.sifted keep).current = s.current.sifted keep := by
  unfold ParseState.current ParseState.sifted
  cases s.left <;> rfl

theorem current_sifted :
    Mirrors (ParseState.sifted keep) (SignificantToken.sifted keep) current current := by
  intro s
  show ((s.sifted keep).current, s.sifted keep) = _
  rw [current_eq_sifted]
  rfl

/-- A step that only looks at the current token. -/
theorem unaware_of_token {α : Type} {m : Parse α} (look : Token → α)
    (h : ∀ s, m s = (look s.current.token, s)) : Unaware keep m := by
  intro s
  rw [h, h, current_eq_sifted]
  rfl

theorem kind_unaware : Unaware keep kind := unaware_of_token (·.kind) fun _ => rfl

theorem pos_unaware : Unaware keep pos := unaware_of_token (·.pos) fun _ => rfl

theorem check_unaware (k : TokenKind) : Unaware keep (check k) :=
  unaware_of_token (·.kind == k) fun _ => rfl

theorem line_unaware : Unaware keep line := by
  intro s
  show (s.file.lineOf (s.sifted keep).current.token.pos, s.sifted keep) = _
  rw [current_eq_sifted]
  rfl

theorem nextKind_unaware : Unaware keep nextKind := by
  intro s
  rcases h : s.left with - | ⟨t, - | ⟨t', rest⟩⟩ <;>
    simp [nextKind, ParseState.sifted, SignificantToken.sifted, h]

theorem atEnd_unaware : Unaware keep atEnd := by
  intro s
  show ((s.left.map (SignificantToken.sifted keep)).isEmpty, s.sifted keep) = _
  rw [List.isEmpty_map]
  rfl

theorem advance_unaware : Unaware keep advance := by
  intro s
  unfold advance
  cases h : s.left with
  | nil => simp [ParseState.sifted, SignificantToken.sifted, h]
  | cons t rest =>
    have hlead : ((rest.map (SignificantToken.sifted keep)).headD (s.eof.sifted keep)).lead =
        (rest.headD s.eof).lead.filter keep := by
      cases rest <;> rfl
    simp only [ParseState.sifted, h, List.map_cons, hlead]
    rfl

theorem takeLead_sifted :
    Mirrors (ParseState.sifted keep) (Option.filter keep) takeLead takeLead := fun _ => rfl

theorem trailing_sifted :
    Mirrors (ParseState.sifted keep) (Option.filter keep) trailing trailing := by
  intro s
  show ((s.sifted keep).current.trailing, s.sifted keep) = _
  rw [current_eq_sifted]
  rfl

/-! ### Taking what is expected -/

theorem report_unaware (d : Diagnostic) : Unaware keep (report d) := fun _ => rfl

theorem reportExpected_unaware (what : String) : Unaware keep (reportExpected what) :=
  current_sifted.bind fun _ => report_unaware _

theorem expect_unaware (k : TokenKind) : Unaware keep (expect k) := by
  refine pos_unaware.bind fun p => (check_unaware k).bind fun b => .ite ?_ ?_
  · exact advance_unaware.bind fun _ => .pure _
  · exact (reportExpected_unaware _).bind fun _ => .pure _

theorem endOfItem_unaware : Unaware keep endOfItem := by
  refine kind_unaware.bind fun k => ?_
  split
  · exact (reportExpected_unaware _).bind fun _ => advance_unaware.bind fun _ => .pure _
  · exact advance_unaware.bind fun _ => .pure _
  · exact .pure _

theorem newIdent_unaware (name : String) (p : Pos) : Unaware keep (newIdent name p) := fun _ => rfl

theorem ident_unaware : Unaware keep ident := by
  refine current_sifted.bind fun t => .ite ?_ ?_
  · exact advance_unaware.bind fun _ => newIdent_unaware _ _
  · exact (expect_unaware _).bind fun _ => newIdent_unaware _ _

theorem lit_unaware (k : LitKind) : Unaware keep (lit k) := advance_unaware.bind fun _ => .pure _

theorem string?_unaware : Unaware keep string? := by
  refine (check_unaware _).bind fun b => .ite ?_ (.pure _)
  exact (lit_unaware _).bind fun _ => .pure _

theorem identList_unaware : Unaware keep identList := by
  refine ident_unaware.bind fun first => (Unaware.iterate (fun names => ?_) _).bind fun _ => .pure _
  refine (check_unaware _).bind fun b => .ite ?_ (.pure _)
  exact advance_unaware.bind fun _ => ident_unaware.bind fun _ => .pure _

/-! ### Types -/

theorem arraySize_unaware : Unaware keep arraySize := by
  refine kind_unaware.bind fun k => ?_
  split
  · exact (lit_unaware _).bind fun _ => .pure _
  · exact ident_unaware.bind fun _ => .pure _
  · exact pos_unaware.bind fun _ => (reportExpected_unaware _).bind fun _ => .pure _

theorem typeNested_unaware (levels : Nat) : Unaware keep (typeNested levels) := by
  induction levels with
  | zero =>
    refine current_sifted.bind fun t => .ite ?_ ?_
    · exact (report_unaware _).bind fun _ => .pure _
    · exact (reportExpected_unaware _).bind fun _ => .pure _
  | succ levels ih =>
    refine (check_unaware _).bind fun b => .ite ?_ ?_
    · exact pos_unaware.bind fun _ => (reportExpected_unaware _).bind fun _ => .pure _
    refine ident_unaware.bind fun name => (check_unaware _).bind fun b => .ite ?_ ?_
    · exact advance_unaware.bind fun _ => ident_unaware.bind fun _ => .pure _
    split
    · exact .pure _
    · exact (expect_unaware _).bind fun _ => ih.bind fun _ => (expect_unaware _).bind fun _ =>
        ih.bind fun _ => (expect_unaware _).bind fun _ => .pure _
    · exact (expect_unaware _).bind fun _ => ih.bind fun _ => (expect_unaware _).bind fun _ =>
        arraySize_unaware.bind fun _ => (expect_unaware _).bind fun _ => .pure _
    · exact (expect_unaware _).bind fun _ => ih.bind fun _ => (expect_unaware _).bind fun _ =>
        .pure _
    · exact .pure _

theorem typeExpr_unaware : Unaware keep typeExpr := typeNested_unaware _

theorem param_unaware (sofar : ParamsSoFar) : Unaware keep (param sofar) := by
  refine (check_unaware _).bind fun b => atEnd_unaware.bind fun e => .ite (.pure _) ?_
  refine typeExpr_unaware.bind fun type => kind_unaware.bind fun k => ?_
  split
  · refine ident_unaware.bind fun name => (check_unaware _).bind fun b => .ite ?_ (.pure _)
    exact advance_unaware.bind fun _ => .pure _
  · exact advance_unaware.bind fun _ => .pure _
  · exact .pure _
  · exact current_sifted.bind fun t => (report_unaware _).bind fun _ => .pure _

theorem paramList_unaware : Unaware keep paramList := by
  refine (expect_unaware _).bind fun opening => (Unaware.iterate param_unaware _).bind fun p => ?_
  split
  · exact .pure _
  · exact (expect_unaware _).bind fun _ => .pure _

theorem methodResult_unaware (openLine : Nat) : Unaware keep (methodResult openLine) := by
  refine (check_unaware _).bind fun b => line_unaware.bind fun l => nextKind_unaware.bind fun k =>
    .ite ?_ (.pure _)
  exact typeExpr_unaware.bind fun _ => .pure _

theorem signature_unaware : Unaware keep signature :=
  line_unaware.bind fun _ => paramList_unaware.bind fun _ =>
    (methodResult_unaware _).bind fun _ => .pure _

/-! ### Binding names -/

theorem get_sifted :
    Mirrors (ParseState.sifted keep) (ParseState.sifted keep) get get := fun _ => rfl

/-- Setting a state that is read off the old one. -/
theorem set_sifted (s : ParseState) :
    Mirrors (ParseState.sifted keep) id (set s) (set (s.sifted keep)) := fun _ => rfl

theorem modify_unaware {f : ParseState → ParseState}
    (h : ∀ s, f (s.sifted keep) = (f s).sifted keep) : Unaware keep (modify f) := by
  intro s
  show ((), f (s.sifted keep)) = _
  rw [h]
  rfl

theorem bind_unaware (i : Ident) (o : ObjectId) : Unaware keep (Parse.bind i o) := fun _ => rfl

theorem setSymbols_unaware (t : SymbolTable) :
    Unaware keep (modify fun s => { s with symbols := t }) := fun _ => rfl

theorem declare_unaware (i : Ident) (kind : ObjectKind) (origin : Origin) (data : Option Int)
    (scope : ScopeId) : Unaware keep (declare i kind origin data scope) := by
  refine get_sifted.bind fun s => ?_
  have hsymbols : (s.sifted keep).symbols = s.symbols := rfl
  rw [hsymbols]
  -- both runs go on from the same symbols, whatever these are
  generalize s.symbols.newObject _ = new
  obtain ⟨object, symbols⟩ := new
  refine (setSymbols_unaware symbols).bind fun _ => (bind_unaware i object).bind fun _ =>
    .ite (.pure _) ?_
  generalize symbols.insert scope object = inserted
  obtain ⟨existing, symbols⟩ := inserted
  refine (setSymbols_unaware symbols).bind fun _ => ?_
  cases existing with
  | none => exact .pure _
  | some existing => exact get_sifted.bind fun s => report_unaware _

theorem resolveIdent_unaware (i : Ident) : Unaware keep (resolveIdent i) := by
  refine .ite (.pure _) (get_sifted.bind fun s => ?_)
  have hfound : (s.sifted keep).symbols.resolve? (s.sifted keep).fileScope i.name =
      s.symbols.resolve? s.fileScope i.name := rfl
  simp only [hfound]
  cases s.symbols.resolve? s.fileScope i.name with
  | some object => exact bind_unaware i object
  | none => exact set_sifted { s with pending := s.pending.push i }

theorem resolveTypeExpr_unaware (t : TypeExpr) : Unaware keep (resolveTypeExpr t) := by
  induction t with
  | bad p => exact .pure _
  | basic name b => exact .pure _
  | array p elem size closing ih =>
    refine ih.bind fun _ => ?_
    cases size with
    | bad p => exact .pure _
    | ident i => exact resolveIdent_unaware i
    | lit l => exact .pure _
  | vector p elem closing ih => exact ih
  | map p key value closing ihk ihv => exact ihk.bind fun _ => ihv
  | named qualifier name =>
    cases qualifier with
    | none => exact resolveIdent_unaware name
    | some q => exact modify_unaware fun _ => rfl

theorem resolveMemberType_unaware (t : MemberType) : Unaware keep (resolveMemberType t) := by
  cases t with
  | plain t => exact resolveTypeExpr_unaware t
  | func sig =>
    refine (Unaware.forM (fun p : Param => resolveTypeExpr_unaware p.type) _).bind fun _ => ?_
    cases sig.result with
    | none => exact .pure _
    | some t => exact resolveTypeExpr_unaware t

/-! ### Members -/

theorem memberOrigin_unaware (index : Nat) : Unaware keep (memberOrigin index) := fun _ => rfl

theorem fieldOptions_unaware : Unaware keep fieldOptions := by
  refine (Unaware.iterate (fun options => kind_unaware.bind fun k => ?_) _).bind fun _ => .pure _
  split
  · exact advance_unaware.bind fun t => (newIdent_unaware _ _).bind fun i => .pure _
  · exact advance_unaware.bind fun t => (newIdent_unaware _ _).bind fun i => .pure _
  · exact .pure _

theorem typeAndNames_unaware : Unaware keep typeAndNames := by
  refine (check_unaware _).bind fun b => .ite ?_ ?_
  · exact advance_unaware.bind fun _ => typeExpr_unaware.bind fun _ => .pure _
  · exact typeExpr_unaware.bind fun _ => identList_unaware.bind fun _ => .pure _

theorem field_sifted (scope : ScopeId) (index : Nat) :
    Mirrors (ParseState.sifted keep) (Member.sifted keep) (field scope index)
      (field scope index) := by
  refine takeLead_sifted.bind fun doc => fieldOptions_unaware.bind_id fun options =>
    typeAndNames_unaware.bind_id fun p => string?_unaware.bind_id fun tag =>
    endOfItem_unaware.bind_id fun _ => trailing_sifted.bind fun comment =>
    (memberOrigin_unaware index).bind_id fun origin => ?_
  refine (Unaware.forM (fun name => declare_unaware name .var origin none scope) p.2).bind_id
    fun _ => ?_
  exact (resolveTypeExpr_unaware p.1).bind_id fun _ => .pure rfl

theorem nameAndType_unaware : Unaware keep nameAndType := by
  refine typeExpr_unaware.bind fun first => (check_unaware _).bind fun opens => ?_
  split
  · exact signature_unaware.bind fun _ => .pure _
  · exact .pure _

theorem method_sifted (scope : ScopeId) (index : Nat) :
    Mirrors (ParseState.sifted keep) (Member.sifted keep) (method scope index)
      (method scope index) := by
  refine takeLead_sifted.bind fun doc => nameAndType_unaware.bind_id fun p =>
    endOfItem_unaware.bind_id fun _ => trailing_sifted.bind fun comment =>
    (memberOrigin_unaware index).bind_id fun origin => ?_
  refine (Unaware.forM (fun name => declare_unaware name .func origin none scope) _).bind_id
    fun _ => ?_
  exact (resolveMemberType_unaware p.2).bind_id fun _ => .pure rfl

theorem enumValue_unaware : Unaware keep enumValue := by
  refine kind_unaware.bind fun k => ?_
  split
  · exact (lit_unaware _).bind fun _ => .pure _
  · exact ident_unaware.bind fun _ => .pure _
  · exact pos_unaware.bind fun _ => (reportExpected_unaware _).bind fun _ => .pure _

theorem endOfEnumerator_unaware : Unaware keep endOfEnumerator :=
  (check_unaware _).bind fun _ => .ite ((expect_unaware _).bind fun _ => .pure _) (.pure _)

theorem enumerator_sifted (scope : ScopeId) (index : Nat) :
    Mirrors (ParseState.sifted keep) (Member.sifted keep) (enumerator scope index)
      (enumerator scope index) := by
  refine takeLead_sifted.bind fun doc => ident_unaware.bind_id fun name =>
    (expect_unaware _).bind_id fun _ => enumValue_unaware.bind_id fun value =>
    endOfEnumerator_unaware.bind_id fun _ => trailing_sifted.bind fun comment =>
    (memberOrigin_unaware index).bind_id fun origin => ?_
  exact (declare_unaware name .const origin _ scope).bind_id fun _ => .pure rfl

theorem member?_sifted (kind : BeanKind) (scope : ScopeId) (index : Nat) :
    Mirrors (ParseState.sifted keep) (Option.map (Member.sifted keep)) (member? kind scope index)
      (member? kind scope index) := by
  refine current_sifted.bind fun t => ?_
  rw [SignificantToken.sifted_token]
  split
  case h_1 => exact (method_sifted scope index).map fun _ => rfl
  case h_2 => exact (enumerator_sifted scope index).map fun _ => rfl
  case h_11 => exact .pure rfl
  all_goals exact (field_sifted scope index).map fun _ => rfl

theorem moreMembers_sifted (kind : BeanKind) (scope : ScopeId) (members : Array Member) :
    Mirrors (ParseState.sifted keep) (Option.map (Array.map (Member.sifted keep)))
      (moreMembers kind scope members) (moreMembers kind scope (members.map (Member.sifted keep))) := by
  unfold moreMembers
  rw [Array.size_map]
  refine (member?_sifted kind scope members.size).bind fun m => .pure ?_
  cases m with
  | none => rfl
  | some m => exact congrArg some Array.map_push

theorem length_left_sifted (s : ParseState) : (s.sifted keep).left.length = s.left.length :=
  List.length_map ..

theorem bean_sifted (kind : BeanKind) :
    Mirrors (ParseState.sifted keep) (Bean.sifted keep) (bean kind) (bean kind) := by
  refine takeLead_sifted.bind fun doc => advance_unaware.bind_id fun start =>
    ident_unaware.bind_id fun name => string?_unaware.bind_id fun tag => get_sifted.bind fun s => ?_
  have hscopes : (s.sifted keep).symbols.newScope (some (s.sifted keep).fileScope) =
      s.symbols.newScope (some s.fileScope) := rfl
  simp only [hscopes]
  generalize s.symbols.newScope (some s.fileScope) = new
  obtain ⟨scope, symbols⟩ := new
  refine (set_sifted { s with symbols := symbols }).bind_id fun _ =>
    (expect_unaware _).bind_id fun opening => ?_
  refine Mirrors.bind (φ := Array.map (Member.sifted keep))
    (.iterate length_left_sifted (moreMembers_sifted kind scope) (by simp)) fun members => ?_
  refine (expect_unaware _).bind_id fun closing => get_sifted.bind fun s' => ?_
  refine (declare_unaware name .bean (.decl s'.fileId s'.declIndex) none s.fileScope).bind_id
    fun _ => .pure ?_
  simp only [Bean.sifted, Array.toList_map]

/-! ### Declarations -/

theorem specGroup_sifted {α β : Type} {one : α → α}
    {spec : Option CommentGroup → Nat → β → Parse (α × β)}
    (h : ∀ doc index b, Mirrors (ParseState.sifted keep) (Prod.map one id) (spec doc index b)
      (spec (doc.filter keep) index b)) (start : β) :
    Mirrors (ParseState.sifted keep) (SpecGroup.sifted keep one) (specGroup spec start)
      (specGroup spec start) := by
  refine takeLead_sifted.bind fun doc => advance_unaware.bind_id fun t =>
    (check_unaware _).bind_id fun b => .ite (advance_unaware.bind_id fun t' => ?_) ?_
  · refine Mirrors.bind (φ := Prod.map (Array.map one) id)
      (.iterate length_left_sifted (fun sofar => ?_) (by simp)) fun sofar => ?_
    · refine (check_unaware _).bind_id fun closes => atEnd_unaware.bind_id fun e =>
        .ite (.pure rfl) (get_sifted.bind fun s => takeLead_sifted.bind fun doc => ?_)
      rw [length_left_sifted, Prod.map_fst, Array.size_map, Prod.map_snd]
      refine (h doc sofar.1.size sofar.2).bind fun r => get_sifted.bind fun s' => ?_
      rw [length_left_sifted]
      refine .ite (advance_unaware.bind_id fun _ => .pure ?_) (.pure ?_)
      all_goals exact congrArg some (Prod.ext Array.map_push rfl)
    · exact (expect_unaware _).bind_id fun _ => .pure (by simp [SpecGroup.sifted])
  · exact (h none 0 start).bind fun r => .pure rfl

theorem importName_unaware : Unaware keep importName := by
  refine kind_unaware.bind fun k => ?_
  split
  · exact advance_unaware.bind fun t => (newIdent_unaware _ _).bind fun _ => .pure _
  · exact ident_unaware.bind fun _ => .pure _
  · exact .pure _

theorem importPath_unaware : Unaware keep importPath := by
  refine current_sifted.bind fun t => .ite ?_ ?_
  · refine (lit_unaware _).bind fun path => .ite ?_ (.pure _)
    exact (report_unaware _).bind fun _ => .pure _
  · exact (expect_unaware _).bind fun _ => .pure _

theorem importSpec_sifted (doc : Option CommentGroup) (index : Nat) (u : Unit) :
    Mirrors (ParseState.sifted keep) (Prod.map (ImportSpec.sifted keep) id) (importSpec doc index u)
      (importSpec (doc.filter keep) index u) :=
  importName_unaware.bind_id fun _ => importPath_unaware.bind_id fun _ =>
    endOfItem_unaware.bind_id fun _ => trailing_sifted.bind fun _ => .pure rfl

theorem constValue_unaware : Unaware keep constValue := by
  refine kind_unaware.bind fun k => ?_
  split
  · exact (lit_unaware _).bind fun _ => .pure _
  · exact (lit_unaware _).bind fun _ => .pure _
  · exact (lit_unaware _).bind fun _ => .pure _
  · exact ident_unaware.bind fun i => (resolveIdent_unaware i).bind fun _ => .pure _
  · exact pos_unaware.bind fun _ => (reportExpected_unaware _).bind fun _ => .pure _

theorem ownValue_unaware : Unaware keep ownValue := by
  refine (check_unaware _).bind fun b => .ite ?_ (.pure _)
  exact advance_unaware.bind fun _ => constValue_unaware.bind fun _ => .pure _

theorem requireValue_unaware (name : Ident) (index : Nat) (own : Option Value) :
    Unaware keep (requireValue name index own) := .ite (report_unaware _) (.pure _)

theorem constSpec_sifted (doc : Option CommentGroup) (index : Nat) (previous : Option Value) :
    Mirrors (ParseState.sifted keep) (Prod.map (ConstSpec.sifted keep) id)
      (constSpec doc index previous) (constSpec (doc.filter keep) index previous) := by
  refine ident_unaware.bind_id fun name => ownValue_unaware.bind_id fun own =>
    endOfItem_unaware.bind_id fun _ => trailing_sifted.bind fun comment =>
    (requireValue_unaware name index own).bind_id fun _ => get_sifted.bind fun s => ?_
  exact (declare_unaware name .const (.spec s.fileId s.declIndex index) _ s.fileScope).bind_id
    fun _ => .pure rfl

theorem skipStep_unaware (u : Unit) : Unaware keep (skipStep u) := by
  refine get_sifted.bind fun s => ?_
  have hempty : (s.sifted keep).left.isEmpty = s.left.isEmpty := List.isEmpty_map
  simp only [current_eq_sifted, SignificantToken.sifted_token, hempty]
  refine .ite (.pure rfl) (.ite ?_ (.ite ?_ ?_))
  · exact (set_sifted { s with syncStops := s.syncStops + 1 }).bind_id fun _ => .pure rfl
  · exact (set_sifted { s with syncPos := s.current.token.pos, syncStops := 0 }).bind_id
      fun _ => .pure rfl
  · exact advance_unaware.bind fun _ => .pure _

theorem skipToDecl_unaware : Unaware keep skipToDecl := Unaware.iterate skipStep_unaware ()

theorem decl_sifted : Mirrors (ParseState.sifted keep) (Decl.sifted keep) decl decl := by
  refine kind_unaware.bind_id fun k => ?_
  split
  · exact (specGroup_sifted constSpec_sifted none).bind fun _ => .pure rfl
  · exact (bean_sifted _).bind fun _ => .pure rfl
  · exact (bean_sifted _).bind fun _ => .pure rfl
  · exact (bean_sifted _).bind fun _ => .pure rfl
  · exact (bean_sifted _).bind fun _ => .pure rfl
  · exact pos_unaware.bind_id fun _ => (reportExpected_unaware _).bind_id fun _ =>
      skipToDecl_unaware.bind_id fun _ => pos_unaware.bind_id fun _ => .pure rfl

/-! ### Files -/

theorem declsWhile_sifted {more : Parse Bool} {one : Parse Decl} (hmore : Unaware keep more)
    (hone : Mirrors (ParseState.sifted keep) (Decl.sifted keep) one one) {decls decls' : Array Decl}
    (hd : decls.map (Decl.sifted keep) = decls') :
    Mirrors (ParseState.sifted keep) (Array.map (Decl.sifted keep)) (declsWhile more one decls)
      (declsWhile more one decls') := by
  refine .iterate length_left_sifted (fun decls => hmore.bind_id fun b => .ite ?_ (.pure rfl)) hd
  rw [Array.size_map]
  refine Mirrors.bind_id (modify_unaware fun _ => rfl) fun _ => hone.bind fun d => .pure ?_
  exact congrArg some Array.map_push

theorem settlePending_unaware : Unaware keep settlePending := fun _ => rfl

theorem packageName_unaware : Unaware keep packageName := by
  refine current_sifted.bind fun t => ident_unaware.bind fun name => .ite ?_ (.pure _)
  exact (report_unaware _).bind fun _ => .pure _

/-- A file that is parsed with fewer comments gives the tree that it gives with all, sifted. -/
theorem file_sifted (keep : CommentGroup → Bool) (comments : List CommentGroup) :
    Mirrors (ParseState.sifted keep) (File.sifted keep) (file comments)
      (file (comments.filter keep)) := by
  refine takeLead_sifted.bind fun doc => (expect_unaware _).bind_id fun packagePos =>
    packageName_unaware.bind_id fun name => endOfItem_unaware.bind_id fun _ => ?_
  have himports : Mirrors (ParseState.sifted keep) (Decl.sifted keep)
      (Decl.imports <$> specGroup importSpec ()) (Decl.imports <$> specGroup importSpec ()) :=
    (specGroup_sifted importSpec_sifted ()).map fun _ => rfl
  have hmore : Unaware keep (not <$> atEnd) := atEnd_unaware.map fun _ => rfl
  refine (declsWhile_sifted (check_unaware _) himports (by simp)).bind fun imports => ?_
  refine (declsWhile_sifted hmore decl_sifted rfl).bind fun decls =>
    settlePending_unaware.bind_id fun unresolved => get_sifted.bind fun s => .pure ?_
  simp [File.sifted, ParseState.sifted]

end Parse

/-- Parsing starts with the comments that its tokens have. -/
theorem ParseState.start_sifted (keep : CommentGroup → Bool) (file : SourceFile) (id : FileId)
    (symbols : SymbolTable) (tokens : List SignificantToken) :
    ParseState.start file id symbols (tokens.map (.sifted keep)) =
      (ParseState.start file id symbols tokens).sifted keep := by
  have heof : (tokens.map (SignificantToken.sifted keep)).getLastD
        ⟨⟨.eof, "", .ofPos (file.base + file.size)⟩, none, none, []⟩ =
      (tokens.getLastD ⟨⟨.eof, "", .ofPos (file.base + file.size)⟩, none, none, []⟩).sifted
        keep := by
    rw [List.getLastD_eq_getLast?, List.getLastD_eq_getLast?, List.getLast?_map]
    cases tokens.getLast? <;> rfl
  unfold start
  dsimp only
  rw [heof, ← List.map_dropLast]
  generalize tokens.getLastD _ = eof
  have hlead : ((tokens.dropLast.map (SignificantToken.sifted keep)).headD (eof.sifted keep)).lead =
      (tokens.dropLast.headD eof).lead.filter keep := by
    cases tokens.dropLast <;> rfl
  rw [hlead]
  rfl

end Idl
