/-
Idl/Proofs/Syntax/Members.lean

In which states the members of a file are taken.

The rules of the grammar take tokens from the front and do not change the file (`Parse.Passes`),
whatever else they do.  So the members of a bean are taken one right behind the other, with nothing in
between (`Members`), and the beans of a file one behind the other, with other things in between (`Beans`).

Main result: so are the beans of every file that is parsed (`file_beans`).  What is to be proved of all
members of a file then takes a look at the rule for members, and not at the rules around it.
-/
import Idl.Proofs.Syntax.Progress

namespace Idl

namespace Parse

variable {α β : Type}

/-! ### Steps that pass tokens -/

/-- What holds of states from which parsing goes on, and from then on. -/
structure Lasting (P : ParseState → Prop) : Prop where
  ready : ∀ s : ParseState, P s → s.Ready
  behind : ∀ s t : ParseState, P s → s.Behind t → P t

namespace Passes

variable {m : Parse α} {f : α → Parse β} {P : ParseState → Prop} {Q : β → ParseState → Prop}

/-- What lasts is there when the step is done. -/
theorem leads (hm : Passes m) (hP : Lasting P) : Leads P m fun _ => P := fun s hs =>
  hP.behind s _ hs (hm s (hP.ready s hs))

theorem skip (hm : Passes m) (hP : Lasting P) (hf : ∀ a, Leads P (f a) Q) : Leads P (m >>= f) Q :=
  (hm.leads hP).bind hf

end Passes

/-- Parsing is behind the state `s₀`, from which it could go on. -/
structure After (s₀ s : ParseState) : Prop where
  start : s₀.Ready
  behind : s₀.Behind s

theorem After.lasting (s₀ : ParseState) : Lasting (After s₀) where
  ready _ h := h.behind.ready h.start
  behind _ _ h hbehind := ⟨h.start, h.behind.trans hbehind⟩

theorem takeLead_passes : Passes takeLead := Accounts.passes fun _ _ => takeLead_accounts

theorem advance_passes : Passes advance := Accounts.passes fun _ _ => advance_accounts

theorem expect_passes (k : TokenKind) : Passes (expect k) :=
  Accounts.passes fun _ _ => expect_accounts k

theorem ident_passes : Passes ident := Accounts.passes fun _ _ => ident_accounts

theorem fieldOptions_passes : Passes fieldOptions := Accounts.passes fun _ _ => fieldOptions_accounts

theorem typeAndNames_passes : Passes typeAndNames := Accounts.passes fun _ _ => typeAndNames_accounts

theorem identList_passes : Passes identList := Accounts.passes fun _ _ => identList_accounts

theorem string?_passes : Passes string? := Accounts.passes fun _ _ => string?_accounts

theorem endOfItem_passes : Passes endOfItem := Accounts.passes fun _ _ => endOfItem_accounts

theorem declare_passes (i : Ident) (kind : ObjectKind) (origin : Origin) (data : Option Int)
    (scope : ScopeId) : Passes (declare i kind origin data scope) :=
  Accounts.passes fun _ _ => declare_accounts i kind origin data scope

theorem resolveTypeExpr_passes (t : TypeExpr) : Passes (resolveTypeExpr t) :=
  Accounts.passes fun _ _ => resolveTypeExpr_accounts t

theorem resolveMemberType_passes (t : MemberType) : Passes (resolveMemberType t) :=
  Accounts.passes fun _ _ => resolveMemberType_accounts t

theorem enumerator_passes (scope : ScopeId) (i : Nat) : Passes (enumerator scope i) :=
  Accounts.passes fun _ _ => enumerator_accounts scope i

theorem member?_passes (kind : BeanKind) (scope : ScopeId) (i : Nat) :
    Passes (member? kind scope i) :=
  Accounts.passes fun _ _ => member?_accounts kind scope i

/-! ### Members and beans -/

/-- Members are taken one right behind the other from `s` on, and parsing goes on to `t`. -/
inductive Members (kind : BeanKind) : ParseState → List Member → ParseState → Prop
  | nil {s t : ParseState} (h : s.Behind t) : Members kind s [] t
  | cons {s t u : ParseState} {scope : ScopeId} {i : Nat} {m : Member} {ms : List Member}
    (hs : s.Ready) (h : member? kind scope i s = (some m, t)) (hrest : Members kind t ms u) :
    Members kind s (m :: ms) u

/-- Beans are taken one behind the other from `s` on, and parsing goes on to `t`. -/
inductive Beans : ParseState → List Bean → ParseState → Prop
  | nil {s t : ParseState} (h : s.Behind t) : Beans s [] t
  | cons {s t u v : ParseState} {b : Bean} {bs : List Bean} (h : s.Behind t)
    (hmembers : Members b.kind t b.body.members u) (hrest : Beans u bs v) : Beans s (b :: bs) v

namespace Members

variable {kind : BeanKind} {s t u : ParseState} {ms : List Member}

theorem behind (h : Members kind s ms t) : s.Behind t := by
  induction h with
  | nil h => exact h
  | @cons s t u scope i m ms hs h hrest ih =>
    have hpasses := member?_passes kind scope i s hs
    rw [h] at hpasses
    exact hpasses.trans ih

theorem after (h : Members kind s ms t) (h' : t.Behind u) : Members kind s ms u := by
  induction h with
  | nil h => exact .nil (h.trans h')
  | cons hs h hrest ih => exact .cons hs h (ih h')

/-- Each member is taken behind the start, and the others right behind it. -/
theorem split {m : Member} {before after : List Member}
    (h : Members kind s (before ++ m :: after) u) : ∃ s' t scope i, s.Behind s' ∧ s'.Ready ∧
      member? kind scope i s' = (some m, t) ∧ Members kind t after u := by
  induction before generalizing s with
  | nil =>
    cases h with
    | cons hs h hrest => exact ⟨s, _, _, _, .refl s, hs, h, hrest⟩
  | cons m' before ih =>
    cases h with
    | @cons _ t _ scope i _ _ hs h hrest =>
      obtain ⟨s', t', scope', i', hbehind, hready, hm, hafter⟩ := ih hrest
      have hpasses := member?_passes kind scope i s hs
      rw [h] at hpasses
      exact ⟨s', t', scope', i', hpasses.trans hbehind, hready, hm, hafter⟩

/-- The loop over the members of a bean takes them one right behind the other. -/
theorem of_iterate (kind : BeanKind) (scope : ScopeId) (acc : Array Member) (hs : s.Ready) :
    ∃ ms, (iterate (moreMembers kind scope) acc s).1.toList = acc.toList ++ ms ∧
      Members kind s ms (iterate (moreMembers kind scope) acc s).2 := by
  have hpush (acc : Array Member) (m : Member) (ms : List Member) :
      (acc.push m).toList ++ ms = acc.toList ++ m :: ms := by
    rw [Array.toList_push, List.append_assoc]
    rfl
  -- one repetition takes one member, or it answers nothing
  have hone {acc acc' : Array Member} {s t : ParseState}
      (h : moreMembers kind scope acc s = (some acc', t)) :
      ∃ m, acc' = acc.push m ∧ member? kind scope acc.size s = (some m, t) := by
    unfold moreMembers at h
    rw [bind_apply] at h
    obtain ⟨hanswer, hstate⟩ := Prod.mk.inj h
    obtain ⟨m, hm, rfl⟩ := Option.map_eq_some_iff.1 hanswer
    exact ⟨m, rfl, Prod.ext hm hstate⟩
  fun_induction iterate (moreMembers kind scope) acc s with
  | case1 acc s t hstep =>
    have hpasses := member?_passes kind scope acc.size s hs
    have hstate : (member? kind scope acc.size s).2 = t := congrArg Prod.snd hstep
    exact ⟨[], (List.append_nil _).symm, .nil (hstate ▸ hpasses)⟩
  | case2 acc s acc' t hstep hlt ih =>
    obtain ⟨m, rfl, hm⟩ := hone hstep
    have hpasses := member?_passes kind scope acc.size s hs
    rw [hm] at hpasses
    obtain ⟨ms, hacc, hms⟩ := ih (hpasses.ready hs)
    exact ⟨m :: ms, hacc.trans (hpush acc m ms), .cons hs hm hms⟩
  | case3 acc s acc' t hstep hlt =>
    obtain ⟨m, rfl, hm⟩ := hone hstep
    exact ⟨[m], Array.toList_push, .cons hs hm (.nil (.refl t))⟩

end Members

namespace Beans

variable {s t u : ParseState} {bs bs' : List Bean}

theorem before (h : s.Behind t) (h' : Beans t bs u) : Beans s bs u := by
  cases h' with
  | nil h' => exact .nil (h.trans h')
  | cons h' hmembers hrest => exact .cons (h.trans h') hmembers hrest

theorem append (h : Beans s bs t) (h' : Beans t bs' u) : Beans s (bs ++ bs') u := by
  induction h with
  | nil h => exact before h h'
  | cons h hmembers hrest ih => exact .cons h hmembers (ih h')

theorem after (h : Beans s bs t) (h' : t.Behind u) : Beans s bs u := by
  induction h with
  | nil h => exact .nil (h.trans h')
  | cons h hmembers hrest ih => exact .cons h hmembers (ih h')

/-- The members of each bean are taken behind the start. -/
theorem members (h : Beans s bs t) {b : Bean} (hb : b ∈ bs) :
    ∃ u v, s.Behind u ∧ Members b.kind u b.body.members v := by
  induction h with
  | nil => cases hb
  | cons h hmembers hrest ih =>
    rcases List.mem_cons.1 hb with rfl | hb
    · exact ⟨_, _, h, hmembers⟩
    · obtain ⟨u, v, hbehind, hmembers'⟩ := ih hb
      exact ⟨u, v, h.trans (hmembers.behind.trans hbehind), hmembers'⟩

theorem behind (h : Beans s bs t) : s.Behind t := by
  induction h with
  | nil h => exact h
  | cons h hmembers hrest ih => exact h.trans (hmembers.behind.trans ih)

end Beans

/-! ### Declarations and files -/

/-- A change of the state that takes no tokens. -/
theorem set_after {s₀ t : ParseState} {x : SymbolTable} {f : PUnit → Parse β}
    {Q : β → ParseState → Prop} (hf : Leads (After s₀) (f ()) Q) :
    Leads (fun s => After s₀ s ∧ s = t) (set { t with symbols := x } >>= f) Q := by
  rintro s ⟨hs, rfl⟩
  exact hf _ ((After.lasting s₀).behind s _ hs ⟨List.suffix_refl _, rfl, rfl⟩)

theorem bean_beans (kind : BeanKind) (s₀ : ParseState) :
    Leads (After s₀) (bean kind) fun b t => Beans s₀ [b] t := by
  have hlasting := After.lasting s₀
  refine takeLead_passes.skip hlasting fun doc => advance_passes.skip hlasting fun start => ?_
  refine ident_passes.skip hlasting fun name => string?_passes.skip hlasting fun tag => ?_
  refine .get fun t => set_after ((expect_passes _).skip hlasting fun opening => ?_)
  -- what the loop has taken so far stays known while the bean is closed and declared
  let I (members : Array Member) (u : ParseState) : Prop :=
    s₀.Ready ∧ ∃ t, s₀.Behind t ∧ Members kind t members.toList u
  have hI (members : Array Member) : Lasting (I members) := by
    constructor
    · rintro u ⟨h₀, t, ht, hmembers⟩
      exact (ht.trans hmembers.behind).ready h₀
    · rintro u v ⟨h₀, t, ht, hmembers⟩ hbehind
      exact ⟨h₀, t, ht, hmembers.after hbehind⟩
  refine Leads.bind (Q := I) (fun u hu => ?_) fun members => ?_
  · obtain ⟨ms, hms, hmembers⟩ := Members.of_iterate kind
      (t.symbols.newScope (some t.fileScope)).1 #[] (hlasting.ready u hu)
    exact ⟨hu.start, u, hu.behind, hms ▸ hmembers⟩
  refine (expect_passes _).skip (hI members) fun closing => .get fun t' => .forget ?_
  refine (declare_passes name .bean _ none _).skip (hI members) fun _ => .pure ?_
  rintro v ⟨-, t, ht, hmembers⟩
  exact .cons ht hmembers (.nil (.refl v))

theorem decl_passes : Passes decl := by
  intro s hs
  have htold : Told s.declIndex s {} s := ⟨hs, rfl, [], .nil s, .nil⟩
  obtain ⟨tr, r, -⟩ := (decl_accounts s htold).run
  exact .of_run r

theorem decl_beans (s₀ : ParseState) :
    Leads (After s₀) decl fun d t => Beans s₀ d.bean?.toList t := by
  have hbean (kind : BeanKind) : Leads (fun s => After s₀ s) (Decl.bean <$> bean kind)
      fun d t => d.bean? = none ∨ Beans s₀ d.bean?.toList t :=
    .map fun s hs => .inr (bean_beans kind s₀ s hs)
  -- a declaration that is no bean only has to pass tokens
  have hcases : Leads (After s₀) decl fun d t => d.bean? = none ∨ Beans s₀ d.bean?.toList t := by
    refine .kind fun k => .forget ?_
    split
    · exact fun _ _ => .inl rfl
    · exact hbean .struct
    · exact hbean .protocol
    · exact hbean .service
    · exact hbean .enum
    · exact fun _ _ => .inl rfl
  intro s hs
  rcases hcases s hs with hnone | hbeans
  · rw [hnone]
    exact .nil (hs.behind.trans (decl_passes s ((After.lasting s₀).ready s hs)))
  · exact hbeans

/-- Declarations are taken one behind the other, and so are the beans among them. -/
theorem declsWhile_beans {more : Parse Bool} {one : Parse Decl} {s₀ : ParseState}
    (hmore : ∀ s, (more s).2 = s)
    (hone : ∀ s₁, Leads (After s₁) one fun d t => Beans s₁ d.bean?.toList t) (decls : Array Decl) :
    let I (decls : Array Decl) (s : ParseState) : Prop :=
      s₀.Ready ∧ Beans s₀ (decls.toList.filterMap Decl.bean?) s
    Leads (I decls) (declsWhile more one decls) I := by
  intro I
  refine Leads.iterate (fun decls => ?_) decls
  refine Leads.bind (Q := fun _ => I decls) (fun s hs => by rw [hmore]; exact hs) fun b => ?_
  refine .ite (fun _ => ?_) fun _ => .pure fun _ hs => hs
  refine Leads.bind (Q := fun _ => I decls) ?_ fun _ => ?_
  · rintro s ⟨h₀, hs⟩
    exact ⟨h₀, hs.after ⟨List.suffix_refl _, rfl, rfl⟩⟩
  · rintro s ⟨h₀, hs⟩
    have hd : Beans s (one s).1.bean?.toList (one s).2 := hone s s ⟨hs.behind.ready h₀, .refl s⟩
    refine ⟨h₀, ?_⟩
    show Beans s₀ ((decls.push (one s).1).toList.filterMap Decl.bean?) (one s).2
    rw [Array.toList_push, List.filterMap_append]
    refine hs.append ?_
    cases hb : (one s).1.bean? with
    | none =>
      rw [hb] at hd
      rw [List.filterMap_cons_none hb]
      exact hd
    | some b =>
      rw [hb] at hd
      rw [List.filterMap_cons_some hb]
      exact hd

/-- The beans of a file are taken one behind the other. -/
theorem file_beans (comments : List CommentGroup) {s : ParseState} (hs : s.Ready) :
    Beans s ((file comments s).1.decls.filterMap Decl.bean?) (file comments s).2 := by
  have hlasting := After.lasting s
  have himports : Passes (specGroup importSpec ()) := Accounts.passes fun _ _ => imports_accounts
  have hname : Passes packageName := Accounts.passes fun _ _ => packageName_accounts
  suffices h : Leads (After s) (file comments) fun f t => Beans s (f.decls.filterMap Decl.bean?) t from
    h s ⟨hs, .refl s⟩
  refine takeLead_passes.skip hlasting fun doc => (expect_passes _).skip hlasting fun packagePos => ?_
  refine hname.skip hlasting fun name => endOfItem_passes.skip hlasting fun _ => ?_
  let I (decls : Array Decl) (t : ParseState) : Prop :=
    s.Ready ∧ Beans s (decls.toList.filterMap Decl.bean?) t
  -- imports hold no beans, and the other declarations those that they take
  refine Leads.bind (Q := I) (Leads.imp (declsWhile_beans (fun _ => rfl) (fun s₁ => ?_) #[])
    fun t ht => ⟨ht.start, .nil ht.behind⟩) fun imports => ?_
  · exact .map fun t ht => .nil ((After.lasting s₁).behind t _ ht
      (himports t ((After.lasting s₁).ready t ht))).behind
  refine Leads.bind (Q := I) (declsWhile_beans (fun _ => rfl) decl_beans imports) fun decls => ?_
  rintro t ⟨-, ht⟩
  show Beans s (decls.toList.filterMap Decl.bean?) (settlePending t).2
  exact ht.after ⟨List.suffix_refl _, rfl, rfl⟩

end Parse

end Idl
