/-
Idl/Proofs/Syntax/Stops.lean

Where skipping stopped last is known to skipping alone.

Skipping to a declaration remembers where it stopped, and how often it has stopped there since.  No
other step of the grammar looks at that or changes it (`Parse.Unskipping`), so between two stops it
is what it was, however many declarations are taken in between.

Main results: `imports_unskipping`, `consts_unskipping` and `bean_unskipping`, for whole
declarations, and `packageName_unskipping`, for what stands in front of them.
-/
import Idl.Proofs.Trace.Account

namespace Idl

namespace Parse

/-- A step that leaves alone what is known about the last stop. -/
def Unskipping {α : Type} (m : Parse α) : Prop :=
  ∀ s, (m s).2.syncPos = s.syncPos ∧ (m s).2.syncStops = s.syncStops

/-! ### Steps put together -/

namespace Unskipping

variable {α β : Type} {m : Parse α}

protected theorem pure (a : α) : Unskipping (pure a) := fun _ => ⟨rfl, rfl⟩

/-- A step that only looks at the state. -/
theorem look (g : ParseState → α) : Unskipping fun s => (g s, s) := fun _ => ⟨rfl, rfl⟩

protected theorem bind {f : α → Parse β} (hm : Unskipping m) (hf : ∀ a, Unskipping (f a)) :
    Unskipping (m >>= f) := by
  intro s
  obtain ⟨hpos, hstops⟩ := hm s
  obtain ⟨hpos', hstops'⟩ := hf (m s).1 (m s).2
  exact ⟨hpos'.trans hpos, hstops'.trans hstops⟩

protected theorem map {g : α → β} (hm : Unskipping m) : Unskipping (g <$> m) := hm

protected theorem ite {c : Prop} [Decidable c] {m' : Parse α} (h : Unskipping m)
    (h' : Unskipping m') : Unskipping (if c then m else m') := by
  split
  · exact h
  · exact h'

protected theorem forM {f : α → Parse PUnit} (hf : ∀ a, Unskipping (f a)) (as : List α) :
    Unskipping (as.forM f) := by
  induction as with
  | nil => exact .pure _
  | cons a as ih => exact (hf a).bind fun _ => ih

/-- What each repetition leaves alone, all of them do. -/
protected theorem iterate {step : α → Parse (Option α)} (h : ∀ a, Unskipping (step a)) (a : α) :
    Unskipping (iterate step a) := by
  intro s
  let Stopped (_ : α) (t : ParseState) : Prop := t.syncPos = s.syncPos ∧ t.syncStops = s.syncStops
  refine Leads.iterate (I := Stopped) (fun a t ht => ?_) a s ⟨rfl, rfl⟩
  obtain ⟨hpos, hstops⟩ := h a t
  exact ⟨hpos.trans ht.1, hstops.trans ht.2⟩

/-- Changing the symbols of the state that was looked at. -/
theorem setSymbols {symbols : ParseState → SymbolTable} {f : ParseState → Parse β}
    (hf : ∀ s, Unskipping (f s)) :
    Unskipping (get >>= fun s => set { s with symbols := symbols s } >>= fun _ => f s) :=
  fun s => hf s { s with symbols := symbols s }

end Unskipping

/-! ### Tokens and names -/

theorem advance_unskipping : Unskipping advance := by
  intro s
  unfold advance
  split <;> exact ⟨rfl, rfl⟩

theorem takeLead_unskipping : Unskipping takeLead := fun _ => ⟨rfl, rfl⟩

theorem report_unskipping (d : Diagnostic) : Unskipping (report d) := fun _ => ⟨rfl, rfl⟩

theorem reportExpected_unskipping (what : String) : Unskipping (reportExpected what) :=
  fun _ => ⟨rfl, rfl⟩

theorem newIdent_unskipping (name : String) (p : Pos) : Unskipping (newIdent name p) :=
  fun _ => ⟨rfl, rfl⟩

theorem expect_unskipping (k : TokenKind) : Unskipping (expect k) := by
  refine .bind (.look _) fun p => .bind (.look _) fun b => .ite ?_ ?_
  · exact advance_unskipping.bind fun _ => .pure _
  · exact (reportExpected_unskipping _).bind fun _ => .pure _

theorem endOfItem_unskipping : Unskipping endOfItem := by
  refine .bind (.look _) fun k => ?_
  split
  · exact (reportExpected_unskipping _).bind fun _ => advance_unskipping.bind fun _ => .pure _
  · exact advance_unskipping.bind fun _ => .pure _
  · exact .pure _

theorem ident_unskipping : Unskipping ident := by
  refine .bind (.look _) fun t => .ite ?_ ?_
  · exact advance_unskipping.bind fun _ => newIdent_unskipping _ _
  · exact (expect_unskipping _).bind fun _ => newIdent_unskipping _ _

theorem lit_unskipping (k : LitKind) : Unskipping (lit k) :=
  advance_unskipping.bind fun _ => .pure _

theorem string?_unskipping : Unskipping string? := by
  refine .bind (.look _) fun b => .ite ?_ (.pure _)
  exact (lit_unskipping _).bind fun _ => .pure _

theorem identList_unskipping : Unskipping identList := by
  refine ident_unskipping.bind fun first => .bind (.iterate (fun names => ?_) _) fun _ => .pure _
  refine .bind (.look _) fun b => .ite ?_ (.pure _)
  exact advance_unskipping.bind fun _ => ident_unskipping.bind fun _ => .pure _

theorem declare_unskipping (i : Ident) (kind : ObjectKind) (origin : Origin) (data : Option Int)
    (scope : ScopeId) : Unskipping (declare i kind origin data scope) := by
  intro s
  rw [declare_snd]
  exact ⟨rfl, rfl⟩

theorem resolveIdent_unskipping (i : Ident) : Unskipping (resolveIdent i) := by
  intro s
  rw [resolveIdent_snd]
  split
  · exact ⟨rfl, rfl⟩
  · split <;> exact ⟨rfl, rfl⟩

/-! ### Types -/

theorem arraySize_unskipping : Unskipping arraySize := by
  refine .bind (.look _) fun k => ?_
  split
  · exact (lit_unskipping _).bind fun _ => .pure _
  · exact ident_unskipping.bind fun _ => .pure _
  · exact .bind (.look _) fun _ => (reportExpected_unskipping _).bind fun _ => .pure _

theorem typeNested_unskipping (levels : Nat) : Unskipping (typeNested levels) := by
  induction levels with
  | zero =>
    refine .bind (.look _) fun t => .ite ?_ ?_
    · exact (report_unskipping _).bind fun _ => .pure _
    · exact (reportExpected_unskipping _).bind fun _ => .pure _
  | succ levels ih =>
    refine .bind (.look _) fun b => .ite ?_ ?_
    · exact .bind (.look _) fun _ => (reportExpected_unskipping _).bind fun _ => .pure _
    refine ident_unskipping.bind fun name => .bind (.look _) fun b => .ite ?_ ?_
    · exact advance_unskipping.bind fun _ => ident_unskipping.bind fun _ => .pure _
    split
    · exact .pure _
    · refine (expect_unskipping _).bind fun _ => ih.bind fun _ => ?_
      refine (expect_unskipping _).bind fun _ => ih.bind fun _ => ?_
      exact (expect_unskipping _).bind fun _ => .pure _
    · refine (expect_unskipping _).bind fun _ => ih.bind fun _ => ?_
      refine (expect_unskipping _).bind fun _ => arraySize_unskipping.bind fun _ => ?_
      exact (expect_unskipping _).bind fun _ => .pure _
    · refine (expect_unskipping _).bind fun _ => ih.bind fun _ => ?_
      exact (expect_unskipping _).bind fun _ => .pure _
    · exact .pure _

theorem typeExpr_unskipping : Unskipping typeExpr := typeNested_unskipping _

theorem param_unskipping (sofar : ParamsSoFar) : Unskipping (param sofar) := by
  refine .bind (.look _) fun b => .bind (.look _) fun e => .ite (.pure _) ?_
  refine typeExpr_unskipping.bind fun type => .bind (.look _) fun k => ?_
  split
  · refine ident_unskipping.bind fun name => .bind (.look _) fun b => .ite ?_ (.pure _)
    exact advance_unskipping.bind fun _ => .pure _
  · exact advance_unskipping.bind fun _ => .pure _
  · exact .pure _
  · exact .bind (.look _) fun t => (report_unskipping _).bind fun _ => .pure _

theorem signature_unskipping : Unskipping signature := by
  refine .bind (.look _) fun line => .bind ?_ fun list => .bind ?_ fun _ => .pure _
  · refine (expect_unskipping _).bind fun opening => .bind (.iterate param_unskipping _) fun p => ?_
    split
    · exact .pure _
    · exact (expect_unskipping _).bind fun _ => .pure _
  · refine .bind (.look _) fun b => .bind (.look _) fun l => .bind (.look _) fun k => ?_
    refine .ite ?_ (.pure _)
    exact typeExpr_unskipping.bind fun _ => .pure _

theorem resolveTypeExpr_unskipping (t : TypeExpr) : Unskipping (resolveTypeExpr t) := by
  induction t with
  | bad => exact .pure _
  | basic => exact .pure _
  | named qualifier name =>
    cases qualifier with
    | none => exact resolveIdent_unskipping name
    | some q => exact fun _ => ⟨rfl, rfl⟩
  | array pos elem size closing ih =>
    refine ih.bind fun _ => ?_
    cases size with
    | ident i => exact resolveIdent_unskipping i
    | _ => exact .pure _
  | vector pos elem closing ih => exact ih
  | map pos key value closing ihk ihv => exact ihk.bind fun _ => ihv

theorem resolveMemberType_unskipping (t : MemberType) : Unskipping (resolveMemberType t) := by
  cases t with
  | plain t => exact resolveTypeExpr_unskipping t
  | func sig =>
    refine .bind (.forM (fun p : Param => resolveTypeExpr_unskipping p.type) _) fun _ => ?_
    cases sig.result with
    | none => exact .pure _
    | some t => exact resolveTypeExpr_unskipping t

/-! ### Members and beans -/

theorem field_unskipping (scope : ScopeId) (index : Nat) : Unskipping (field scope index) := by
  have hoptions : Unskipping fieldOptions := by
    refine .bind (.iterate (fun options => .bind (.look _) fun k => ?_) _) fun _ => .pure _
    split
    · exact advance_unskipping.bind fun _ => (newIdent_unskipping _ _).bind fun _ => .pure _
    · exact advance_unskipping.bind fun _ => (newIdent_unskipping _ _).bind fun _ => .pure _
    · exact .pure _
  have htype : Unskipping typeAndNames := by
    refine .bind (.look _) fun b => .ite ?_ ?_
    · exact advance_unskipping.bind fun _ => typeExpr_unskipping.bind fun _ => .pure _
    · exact typeExpr_unskipping.bind fun _ => identList_unskipping.bind fun _ => .pure _
  refine takeLead_unskipping.bind fun doc => hoptions.bind fun options => htype.bind fun p => ?_
  refine string?_unskipping.bind fun tag => endOfItem_unskipping.bind fun _ => ?_
  refine .bind (.look _) fun comment => .bind (.look _) fun origin => ?_
  refine .bind (.forM (fun name => declare_unskipping name .var origin none scope) _) fun _ => ?_
  exact (resolveTypeExpr_unskipping _).bind fun _ => .pure _

theorem method_unskipping (scope : ScopeId) (index : Nat) : Unskipping (method scope index) := by
  have htype : Unskipping nameAndType := by
    refine typeExpr_unskipping.bind fun first => .bind (.look _) fun opens => ?_
    split
    · exact signature_unskipping.bind fun _ => .pure _
    · exact .pure _
  refine takeLead_unskipping.bind fun doc => htype.bind fun p => ?_
  refine endOfItem_unskipping.bind fun _ => ?_
  refine .bind (.look _) fun comment => .bind (.look _) fun origin => ?_
  refine .bind (.forM (fun name => declare_unskipping name .func origin none scope) _) fun _ => ?_
  exact (resolveMemberType_unskipping _).bind fun _ => .pure _

theorem enumerator_unskipping (scope : ScopeId) (index : Nat) :
    Unskipping (enumerator scope index) := by
  have hvalue : Unskipping enumValue := by
    refine .bind (.look _) fun k => ?_
    split
    · exact (lit_unskipping _).bind fun _ => .pure _
    · exact ident_unskipping.bind fun _ => .pure _
    · exact .bind (.look _) fun _ => (reportExpected_unskipping _).bind fun _ => .pure _
  have hend : Unskipping endOfEnumerator :=
    .bind (.look _) fun b => .ite ((expect_unskipping _).bind fun _ => .pure _) (.pure _)
  refine takeLead_unskipping.bind fun doc => ident_unskipping.bind fun name => ?_
  refine (expect_unskipping _).bind fun _ => hvalue.bind fun value => hend.bind fun _ => ?_
  refine .bind (.look _) fun comment => .bind (.look _) fun origin => ?_
  exact (declare_unskipping _ _ _ _ _).bind fun _ => .pure _

theorem moreMembers_unskipping (kind : BeanKind) (scope : ScopeId) (members : Array Member) :
    Unskipping (moreMembers kind scope members) := by
  refine .bind (.bind (.look _) fun t => ?_) fun r => .pure _
  split
  case h_1 => exact (method_unskipping _ _).map
  case h_2 => exact (enumerator_unskipping _ _).map
  case h_11 => exact .pure _
  all_goals exact (field_unskipping _ _).map

theorem bean_unskipping (kind : BeanKind) : Unskipping (bean kind) := by
  refine takeLead_unskipping.bind fun doc => advance_unskipping.bind fun start => ?_
  refine ident_unskipping.bind fun name => string?_unskipping.bind fun tag => ?_
  refine .setSymbols fun s => (expect_unskipping _).bind fun opening => ?_
  refine .bind (.iterate (moreMembers_unskipping kind _) _) fun members => ?_
  refine (expect_unskipping _).bind fun closing => .bind (.look fun s => s) fun t => ?_
  exact (declare_unskipping _ _ _ _ _).bind fun _ => .pure _

/-! ### Groups of specifications -/

theorem specGroup_unskipping {α β : Type} {spec : Option CommentGroup → Nat → β → Parse (α × β)}
    (h : ∀ doc index b, Unskipping (spec doc index b)) (start : β) :
    Unskipping (specGroup spec start) := by
  have hmore (sofar : Array α × β) : Unskipping (moreSpecs spec sofar) := by
    refine .bind (.look _) fun _ => .bind (.look _) fun _ => .ite (.pure _) ?_
    refine .bind (.look fun s => s) fun t => takeLead_unskipping.bind fun doc => ?_
    refine (h doc _ _).bind fun r => .bind (.look fun s => s) fun u => .ite ?_ (.pure _)
    exact advance_unskipping.bind fun _ => .pure _
  refine takeLead_unskipping.bind fun doc => advance_unskipping.bind fun t => ?_
  refine .bind (.look _) fun b => .ite ?_ ?_
  · refine advance_unskipping.bind fun _ => .bind (.iterate hmore _) fun _ => ?_
    exact (expect_unskipping _).bind fun _ => .pure _
  · exact (h _ _ _).bind fun _ => .pure _

theorem importSpec_unskipping (doc : Option CommentGroup) (index : Nat) (u : Unit) :
    Unskipping (importSpec doc index u) := by
  refine .bind (.bind (.look _) fun k => ?_) fun name => .bind (.bind (.look _) fun t => ?_)
    fun path => endOfItem_unskipping.bind fun _ => .bind (.look _) fun comment => .pure _
  · split
    · exact advance_unskipping.bind fun _ => (newIdent_unskipping _ _).bind fun _ => .pure _
    · exact ident_unskipping.bind fun _ => .pure _
    · exact .pure _
  · refine .ite ((lit_unskipping _).bind fun path => .ite ?_ (.pure _)) ?_
    · exact (report_unskipping _).bind fun _ => .pure _
    · exact (expect_unskipping _).bind fun _ => .pure _

theorem constSpec_unskipping (doc : Option CommentGroup) (index : Nat) (previous : Option Value) :
    Unskipping (constSpec doc index previous) := by
  have hvalue : Unskipping constValue := by
    refine .bind (.look _) fun k => ?_
    split
    · exact (lit_unskipping _).bind fun _ => .pure _
    · exact (lit_unskipping _).bind fun _ => .pure _
    · exact (lit_unskipping _).bind fun _ => .pure _
    · exact ident_unskipping.bind fun i => (resolveIdent_unskipping i).bind fun _ => .pure _
    · exact .bind (.look _) fun _ => (reportExpected_unskipping _).bind fun _ => .pure _
  have hown : Unskipping ownValue := by
    refine .bind (.look _) fun b => .ite ?_ (.pure _)
    exact advance_unskipping.bind fun _ => hvalue.bind fun _ => .pure _
  refine ident_unskipping.bind fun name => hown.bind fun own => ?_
  refine endOfItem_unskipping.bind fun _ => .bind (.look _) fun comment => ?_
  refine .bind (.ite (report_unskipping _) (.pure _)) fun _ => ?_
  refine .bind (.look fun s => s) fun s => (declare_unskipping _ _ _ _ _).bind fun _ => .pure _

theorem imports_unskipping : Unskipping (specGroup importSpec ()) :=
  specGroup_unskipping importSpec_unskipping ()

theorem consts_unskipping : Unskipping (specGroup constSpec none) :=
  specGroup_unskipping constSpec_unskipping none

theorem packageName_unskipping : Unskipping packageName := by
  refine .bind (.look _) fun t => ident_unskipping.bind fun name => .ite ?_ (.pure _)
  exact (report_unskipping _).bind fun _ => .pure _

end Parse

end Idl
