/-
Idl/Proofs/Trace/Occurrences.lean

What the account of a tree says about the names that the tree declares and uses.

The events of an account declare what the tree declares, in the same order in each scope
(`filter_declarations_outer`, `filter_declarations_inner`), and they use what the tree uses
(`mem_referredIn_decls`, `qualifiedIn_decls`).  Nothing is mentioned that is not an identifier of the
account, and nothing twice; the local names of imports and the values of members are identifiers,
too, but nothing mentions them (`mentioned_subperm_decls`).
-/
import Idl.Proofs.Trace.Resolve
import Mathlib.Data.List.Perm.Subperm

namespace Idl

/-! ### Events of sequences -/

section Append

variable (es es' : List NameEvent)

theorem declarations_append : declarations (es ++ es') = declarations es ++ declarations es' :=
  List.filterMap_append

theorem referredIn_append : referredIn (es ++ es') = referredIn es ++ referredIn es' :=
  List.filterMap_append

theorem qualifiedIn_append : qualifiedIn (es ++ es') = qualifiedIn es ++ qualifiedIn es' :=
  List.filterMap_append

theorem mentioned_append : mentioned (es ++ es') = mentioned es ++ mentioned es' :=
  List.flatMap_append

end Append

theorem referredIn_flatMap {α : Type} (f : α → List NameEvent) (xs : List α) :
    referredIn (xs.flatMap f) = xs.flatMap fun x => referredIn (f x) := by
  simp only [referredIn, List.filterMap_flatMap]

theorem qualifiedIn_flatMap {α : Type} (f : α → List NameEvent) (xs : List α) :
    qualifiedIn (xs.flatMap f) = xs.flatMap fun x => qualifiedIn (f x) := by
  simp only [qualifiedIn, List.filterMap_flatMap]

theorem mentioned_flatMap {α : Type} (f : α → List NameEvent) (xs : List α) :
    mentioned (xs.flatMap f) = xs.flatMap fun x => mentioned (f x) := by
  simp only [mentioned, List.flatMap_assoc]

/-- The middle two of four lists change places. -/
theorem perm_append_append {α : Type} (a b c d : List α) :
    (a ++ b ++ (c ++ d)).Perm (a ++ c ++ (b ++ d)) := by
  rw [List.append_assoc, List.append_assoc]
  exact (List.perm_append_comm_assoc b c d).append_left a

theorem declarations_of_isUse {es : List NameEvent} (h : ∀ e ∈ es, e.isUse = true) :
    declarations es = [] := by
  refine List.filterMap_eq_nil_iff.2 fun e he => ?_
  have := h e he
  cases e <;> simp_all [NameEvent.isUse, NameEvent.declaration?]

theorem NameEvent.fit_of_isUse {es : List NameEvent} {size : Nat} (h : ∀ e ∈ es, e.isUse = true) :
    Fit size es := by
  induction es with
  | nil => trivial
  | cons e es ih =>
    have he := h e List.mem_cons_self
    have hes := ih fun e' he' => h e' (List.mem_cons_of_mem _ he')
    cases e with
    | refer i => exact hes
    | qualify q => exact hes
    | _ => cases he

/-! ### Types -/

namespace TypeExpr

theorem referredIn_events (t : TypeExpr) : referredIn t.events = t.references := by
  induction t with
  | array p elem size closing ih =>
    cases size with
    | ident i => rw [events, referredIn_append, ih]; rfl
    | bad q => exact ih
    | lit l => exact ih
  | vector p elem closing ih => exact ih
  | map p key value closing ihk ihv => rw [events, referredIn_append, ihk, ihv]; rfl
  | named qualifier name => cases qualifier <;> rfl
  | _ => rfl

theorem qualifiedIn_events (t : TypeExpr) : qualifiedIn t.events = t.qualifiedNames := by
  induction t with
  | array p elem size closing ih =>
    cases size with
    | ident i => rw [events, qualifiedIn_append, ih]; exact List.append_nil _
    | bad q => exact ih
    | lit l => exact ih
  | vector p elem closing ih => exact ih
  | map p key value closing ihk ihv => rw [events, qualifiedIn_append, ihk, ihv]; rfl
  | named qualifier name => cases qualifier <;> rfl
  | _ => rfl

/-- What a type mentions are identifiers of it, in order. -/
theorem mentioned_sublist (t : TypeExpr) : (mentioned t.events).Sublist t.account.idents := by
  induction t with
  | array p elem size closing ih =>
    cases size with
    | ident i =>
      rw [events, mentioned_append]
      exact ih.append (.refl _)
    | bad q => exact ih.trans (List.sublist_append_left ..)
    | lit l => exact ih.trans (List.sublist_append_left ..)
  | vector p elem closing ih => exact ih
  | map p key value closing ihk ihv =>
    rw [events, mentioned_append]
    exact ihk.append ihv
  | named qualifier name => cases qualifier <;> exact .refl _
  | _ => exact List.nil_sublist _

end TypeExpr

theorem Account.idents_all {α : Type} (f : α → Account) (xs : List α) :
    (all f xs).idents = xs.flatMap fun x => (f x).idents := by
  induction xs with
  | nil => rfl
  | cons x xs ih => rw [all_cons, idents_append, ih, List.flatMap_cons]

@[simp] theorem Account.idents_all_ident (is : List Ident) :
    (all Ident.account is).idents = is := by
  rw [idents_all]
  exact List.flatMap_singleton' is

theorem flatMap_sublist {α β : Type} {f g : α → List β} (xs : List α)
    (h : ∀ x, (f x).Sublist (g x)) : (xs.flatMap f).Sublist (xs.flatMap g) := by
  induction xs with
  | nil => exact .slnil
  | cons x xs ih =>
    rw [List.flatMap_cons, List.flatMap_cons]
    exact (h x).append ih

namespace MemberType

theorem events_eq (t : MemberType) : t.events = t.types.flatMap TypeExpr.events := by
  cases t with
  | plain t => exact (List.append_nil _).symm
  | func sig =>
    rw [types, List.flatMap_append, List.flatMap_map]
    rfl

theorem mentioned_sublist (t : MemberType) : (mentioned t.events).Sublist t.account.idents := by
  cases t with
  | plain t => exact t.mentioned_sublist
  | func sig =>
    rw [events, mentioned_append, mentioned_flatMap, mentioned_flatMap, account,
      Account.idents_append, Account.idents_all, Account.idents_all]
    refine List.Sublist.append (flatMap_sublist _ fun p => ?_) (flatMap_sublist _ fun t => ?_)
    · exact p.type.mentioned_sublist.trans (List.sublist_append_left ..)
    · exact t.mentioned_sublist

end MemberType

/-! ### Members -/

section Members

variable (kind : BeanKind) (scope : ScopeId) (file : FileId) (decl : Nat)

theorem Member.isUse_types (m : Member) :
    ∀ e ∈ m.type.toList.flatMap MemberType.events, e.isUse = true := by
  intro e he
  obtain ⟨t, -, ht⟩ := List.mem_flatMap.1 he
  exact t.isUse_of_mem e ht

theorem membersAccount_cons_events (index : Nat) (m : Member) (ms : List Member) :
    (membersAccount kind scope file decl index (m :: ms)).events =
      m.events kind scope (.field file decl index) index ++
        (membersAccount kind scope file decl (index + 1) ms).events := by
  rw [membersAccount, Account.events_append, Account.events_append, Member.events_account]
  rfl

theorem Member.declarations_events (index : Nat) (m : Member) :
    declarations (m.events kind scope (.field file decl index) index) =
      m.names.map fun i => (scope, kind.memberObject file decl index i) := by
  rw [events, declarations_append, declarations_of_isUse m.isUse_types, List.append_nil]
  simp only [declarations, List.filterMap_map]
  rw [← List.filterMap_eq_map]
  rfl

theorem declarations_members (index : Nat) (ms : List Member) :
    declarations (membersAccount kind scope file decl index ms).events =
      ((ms.zipIdx index).flatMap fun m => m.1.names.map (kind.memberObject file decl m.2)).map
        (scope, ·) := by
  induction ms generalizing index with
  | nil => rfl
  | cons m ms ih =>
    rw [membersAccount_cons_events, declarations_append, ih, m.declarations_events,
      List.zipIdx_cons, List.flatMap_cons, List.map_append, List.map_map]
    rfl

theorem fit_members {size : Nat} (hscope : scope < size) (index : Nat) (ms : List Member) :
    NameEvent.Fit size (membersAccount kind scope file decl index ms).events := by
  induction ms generalizing index with
  | nil => trivial
  | cons m ms ih =>
    have hnames (is : List Ident) (origin : Origin) (data : Option Int) :
        NameEvent.Fit size (is.map (.declare scope kind.memberKind origin data)) := by
      induction is with
      | nil => trivial
      | cons i is ih => exact ⟨hscope, ih⟩
    rw [membersAccount_cons_events, NameEvent.fit_append]
    refine ⟨NameEvent.fit_append.2 ⟨hnames .., NameEvent.fit_of_isUse m.isUse_types⟩, ?_⟩
    have hzero : NameEvent.enters (m.events kind scope (.field file decl index) index) = 0 := by
      rw [Member.events, NameEvent.enters_append, NameEvent.enters_declare,
        NameEvent.enters_of_isUse m.isUse_types]
    rw [hzero]
    exact ih (index + 1)

theorem Member.uses_events (m : Member) :
    m.type.toList.flatMap MemberType.events = m.types.flatMap TypeExpr.events := by
  rw [types, List.flatMap_assoc]
  congr 1
  funext t
  exact t.events_eq

theorem referredIn_members (index : Nat) (ms : List Member) :
    referredIn (membersAccount kind scope file decl index ms).events =
      (ms.flatMap Member.types).flatMap TypeExpr.references := by
  induction ms generalizing index with
  | nil => rfl
  | cons m ms ih =>
    have hnames (is : List Ident) (origin : Origin) (data : Option Int) :
        referredIn (is.map (.declare scope kind.memberKind origin data)) = [] := by
      simp [referredIn, NameEvent.referred?, Function.comp_def]
    rw [membersAccount_cons_events, referredIn_append, ih, Member.events, referredIn_append, hnames,
      List.nil_append, m.uses_events, referredIn_flatMap, List.flatMap_cons, List.flatMap_append]
    simp only [TypeExpr.referredIn_events]

theorem qualifiedIn_members (index : Nat) (ms : List Member) :
    qualifiedIn (membersAccount kind scope file decl index ms).events =
      (ms.flatMap Member.types).flatMap TypeExpr.qualifiedNames := by
  induction ms generalizing index with
  | nil => rfl
  | cons m ms ih =>
    have hnames (is : List Ident) (origin : Origin) (data : Option Int) :
        qualifiedIn (is.map (.declare scope kind.memberKind origin data)) = [] := by
      simp [qualifiedIn, NameEvent.qualified?, Function.comp_def]
    rw [membersAccount_cons_events, qualifiedIn_append, ih, Member.events, qualifiedIn_append, hnames,
      List.nil_append, m.uses_events, qualifiedIn_flatMap, List.flatMap_cons, List.flatMap_append]
    simp only [TypeExpr.qualifiedIn_events]

/-- The identifiers of the type of a member. -/
def Member.typeIdents (m : Member) : List Ident :=
  m.type.toList.flatMap fun t => t.account.idents

theorem Member.idents_account (m : Member) : ((m.account kind).idents).Perm
    (m.names ++ m.typeIdents ++ (Account.all Value.account m.value.toList).idents) := by
  have htype : (Account.all MemberType.account m.type.toList).idents = m.typeIdents :=
    Account.idents_all ..
  unfold account
  simp only [Account.idents_append, List.nil_append, List.append_nil]
  refine List.Perm.append_right _ ?_
  split
  · rw [Account.idents_append, Account.idents_all_ident, htype]
  · rw [Account.idents_append, Account.idents_all_ident, htype]
    exact List.perm_append_comm

/-- The identifier that a member has for its value. -/
def Member.valueIdent? (m : Member) : Option Ident :=
  match m.value with
  | some (.ident i) => some i
  | _ => none

theorem Member.value_idents (m : Member) :
    (Account.all Value.account m.value.toList).idents = m.valueIdent?.toList := by
  unfold valueIdent?
  cases m.value with
  | none => rfl
  | some v => cases v <;> rfl

/-- What events mention of members is apart from the identifiers that the members have for values,
which no event mentions. -/
theorem mentioned_members (index : Nat) (ms : List Member) :
    (ms.filterMap Member.valueIdent? ++
        mentioned (membersAccount kind scope file decl index ms).events).Subperm
      (membersAccount kind scope file decl index ms).idents := by
  induction ms generalizing index with
  | nil => exact .refl _
  | cons m ms ih =>
    have hnames (is : List Ident) (origin : Origin) (data : Option Int) :
        mentioned (is.map (.declare scope kind.memberKind origin data)) = is := by
      simp [mentioned, NameEvent.idents, List.flatMap_map]
    rw [List.filterMap_eq_flatMap_toList, List.flatMap_cons, ← List.filterMap_eq_flatMap_toList,
      membersAccount_cons_events, mentioned_append, membersAccount, Account.idents_append,
      Account.idents_append, List.append_nil]
    refine (perm_append_append _ _ _ _).subperm.trans (List.Subperm.append ?_ (ih (index + 1)))
    rw [Member.events, mentioned_append, hnames, mentioned_flatMap]
    refine List.Subperm.trans ?_ (m.idents_account kind).symm.subperm
    rw [m.value_idents]
    refine List.perm_append_comm.subperm.trans (List.Sublist.subperm ?_)
    refine List.Sublist.append ?_ (.refl _)
    exact (List.Sublist.refl _).append (flatMap_sublist _ fun t => t.mentioned_sublist)

end Members

/-! ### Constants -/

section Consts

variable (outer : ScopeId) (file : FileId) (decl : Nat)

/-- What a constant does to names: it uses its value, and then it is declared. -/
theorem constsAccount_cons_events (index : Nat) (previous : Option Value) (first : Option Pos)
    (s : ConstSpec) (ss : List ConstSpec) :
    (constsAccount outer file decl index previous first (s :: ss)).events =
      (constValueAccount previous (first.getD s.name.pos) s.value).events ++
        .declare outer .const (.spec file decl index) (some index) s.name ::
          (constsAccount outer file decl (index + 1) s.value (first <|> some s.name.pos) ss).events := by
  rw [constsAccount, Account.events_append, ConstSpec.account, Account.events_append,
    Account.events_append, List.append_assoc]
  rfl

theorem constValueAccount_events (previous : Option Value) (first : Pos) (v : Option Value) :
    (constValueAccount previous first v).events = [] ∨
      ∃ i, v = some (.ident i) ∧ (constValueAccount previous first v).events = [.refer i] := by
  rcases v with - | v
  · exact .inl rfl
  · by_cases h : previous = some v
    · cases v with
      | bad p => exact .inl rfl
      | ident i => exact .inl (congrArg Account.events (if_pos h))
      | lit l => exact .inl (congrArg Account.events (if_pos h))
    · cases v with
      | bad p => exact .inl rfl
      | ident i => exact .inr ⟨i, rfl, congrArg Account.events (if_neg h)⟩
      | lit l => exact .inl (congrArg Account.events (if_neg h))

theorem declarations_constValue (previous : Option Value) (first : Pos) (v : Option Value) :
    declarations (constValueAccount previous first v).events = [] := by
  rcases constValueAccount_events previous first v with h | ⟨i, -, h⟩ <;> rw [h] <;> rfl

theorem declarations_consts (index : Nat) (previous : Option Value) (first : Option Pos)
    (ss : List ConstSpec) :
    declarations (constsAccount outer file decl index previous first ss).events =
      ((ss.zipIdx index).map fun s => s.1.object file decl s.2).map (outer, ·) := by
  induction ss generalizing index previous first with
  | nil => rfl
  | cons s ss ih =>
    rw [constsAccount_cons_events, declarations_append, declarations_constValue, List.nil_append]
    exact congrArg (_ :: ·) (ih ..)

theorem fit_consts {size : Nat} (hscope : outer < size) (index : Nat) (previous : Option Value)
    (first : Option Pos) (ss : List ConstSpec) :
    NameEvent.Fit size (constsAccount outer file decl index previous first ss).events := by
  induction ss generalizing index previous first with
  | nil => trivial
  | cons s ss ih =>
    rw [constsAccount_cons_events]
    rcases constValueAccount_events previous (first.getD s.name.pos) s.value with h | ⟨i, -, h⟩
    · rw [h]
      exact ⟨hscope, ih ..⟩
    · rw [h]
      exact ⟨hscope, ih ..⟩

theorem qualifiedIn_consts (index : Nat) (previous : Option Value) (first : Option Pos)
    (ss : List ConstSpec) :
    qualifiedIn (constsAccount outer file decl index previous first ss).events = [] := by
  induction ss generalizing index previous first with
  | nil => rfl
  | cons s ss ih =>
    rw [constsAccount_cons_events, qualifiedIn_append]
    rcases constValueAccount_events previous (first.getD s.name.pos) s.value with h | ⟨i, -, h⟩
    · rw [h]
      exact ih ..
    · rw [h]
      exact ih ..

/-- A value that is inherited is used where it stands. -/
theorem mem_referredIn_consts (index : Nat) (previous : Option Value) (first : Option Pos)
    (ss : List ConstSpec) (i : Ident) :
    (i ∈ referredIn (constsAccount outer file decl index previous first ss).events →
      i ∈ ss.filterMap ConstSpec.reference?) ∧
    (i ∈ ss.filterMap ConstSpec.reference? → previous = some (.ident i) ∨
      i ∈ referredIn (constsAccount outer file decl index previous first ss).events) := by
  induction ss generalizing index previous first with
  | nil => exact ⟨id, fun h => .inr h⟩
  | cons s ss ih =>
    obtain ⟨ih1, ih2⟩ := ih (index + 1) s.value (first <|> some s.name.pos)
    rw [constsAccount_cons_events, referredIn_append]
    constructor
    · intro hi
      rcases List.mem_append.1 hi with hi | hi
      · rcases constValueAccount_events previous (first.getD s.name.pos) s.value with h | ⟨j, hj, h⟩
        · rw [h] at hi; cases hi
        · rw [h] at hi
          rw [List.mem_singleton.1 hi]
          exact List.mem_filterMap.2 ⟨s, List.mem_cons_self, by rw [ConstSpec.reference?, hj]⟩
      · obtain ⟨t, ht, hti⟩ := List.mem_filterMap.1 (ih1 hi)
        exact List.mem_filterMap.2 ⟨t, List.mem_cons_of_mem _ ht, hti⟩
    · intro hi
      have hown (hs : s.value = some (.ident i)) : previous = some (.ident i) ∨
          i ∈ referredIn (constValueAccount previous (first.getD s.name.pos) s.value).events := by
        by_cases hp : previous = some (.ident i)
        · exact .inl hp
        · have hvalue : constValueAccount previous (first.getD s.name.pos) (some (.ident i)) =
              (Value.ident i).ownAccount := if_neg hp
          rw [hs, hvalue]
          exact .inr List.mem_cons_self
      have hhead (hs : s.value = some (.ident i)) := (hown hs).imp_right fun h =>
        List.mem_append_left (referredIn (.declare outer .const (.spec file decl index) (some index)
          s.name :: (constsAccount outer file decl (index + 1) s.value
            (first <|> some s.name.pos) ss).events)) h
      obtain ⟨t, ht, hti⟩ := List.mem_filterMap.1 hi
      rcases List.mem_cons.1 ht with rfl | ht
      · refine hhead ?_
        unfold ConstSpec.reference? at hti
        split at hti
        · next h => rw [h, Option.some.inj hti]
        · cases hti
      · rcases ih2 (List.mem_filterMap.2 ⟨t, ht, hti⟩) with h | h
        · exact hhead h
        · exact .inr (List.mem_append_right _ h)

theorem mentioned_constValue (previous : Option Value) (first : Pos) (v : Option Value) :
    (mentioned (constValueAccount previous first v).events).Sublist
      (constValueAccount previous first v).idents := by
  rcases v with - | v
  · exact .slnil
  · by_cases h : previous = some v
    · have hnone : (constValueAccount previous first (some v)).events = [] := by
        cases v with
        | bad p => rfl
        | ident i => exact congrArg Account.events (if_pos h)
        | lit l => exact congrArg Account.events (if_pos h)
      rw [hnone]
      exact List.nil_sublist _
    · cases v with
      | bad p => exact .slnil
      | ident i =>
        rw [show constValueAccount previous first (some (.ident i)) =
          (Value.ident i).ownAccount from if_neg h]
        exact .refl _
      | lit l =>
        rw [show constValueAccount previous first (some (.lit l)) =
          (Value.lit l).ownAccount from if_neg h]
        exact .slnil

theorem mentioned_consts (index : Nat) (previous : Option Value) (first : Option Pos)
    (ss : List ConstSpec) :
    (mentioned (constsAccount outer file decl index previous first ss).events).Subperm
      (constsAccount outer file decl index previous first ss).idents := by
  induction ss generalizing index previous first with
  | nil => exact .refl _
  | cons s ss ih =>
    rw [constsAccount_cons_events, mentioned_append, constsAccount, Account.idents_append]
    refine List.Subperm.trans ?_ ((List.subperm_append_left _).2 (ih ..))
    let a := constValueAccount previous (first.getD s.name.pos) s.value
    show (mentioned a.events ++ s.name :: _).Subperm (s.name :: a.idents ++ [] ++ _)
    rw [List.append_nil, List.cons_append]
    refine List.Subperm.trans (List.perm_middle.subperm) (List.Sublist.subperm ?_)
    exact ((mentioned_constValue ..).append (.refl _)).cons_cons _

end Consts

/-! ### Declarations -/

section Decls

variable (outer : ScopeId) (file : FileId)

/-- The members that a declaration declares. -/
def Decl.memberObjects (file : FileId) (d : Decl) (index : Nat) : List Object :=
  match d with
  | .bean b => b.memberObjects file index
  | _ => []

/-- What a bean does to names: its members come first, and then it is declared itself. -/
theorem Bean.events_account (scope : ScopeId) (index : Nat) (b : Bean) :
    (b.account outer scope file index).events = .enter ::
      ((membersAccount b.kind scope file index 0 b.body.members).events ++
        [.declare outer .bean (.decl file index) none b.name]) := rfl

theorem Decl.declarations_account (scope : ScopeId) (index : Nat) (d : Decl) :
    declarations (d.account outer scope file index).events =
      (d.memberObjects file index).map (scope, ·) ++ (d.objects file index).map (outer, ·) := by
  cases d with
  | bad span => rfl
  | imports g =>
    rw [account, Account.events_all_nil ImportSpec.events_account]
    rfl
  | consts g => exact declarations_consts ..
  | bean b =>
    rw [account, Bean.events_account]
    show declarations (_ ++ _) = _
    rw [declarations_append, declarations_members]
    rfl

theorem Decl.fit_account {size : Nat} (hscope : outer < size) (index : Nat) (d : Decl) :
    NameEvent.Fit size (d.account outer size file index).events := by
  cases d with
  | bad span => trivial
  | imports g =>
    rw [account, Account.events_all_nil ImportSpec.events_account]
    trivial
  | consts g => exact fit_consts _ _ _ hscope ..
  | bean b =>
    rw [account, Bean.events_account]
    show NameEvent.Fit (size + 1) _
    rw [NameEvent.fit_append]
    exact ⟨fit_members _ _ _ _ (Nat.lt_succ_self _) .., Nat.lt_add_right _ (Nat.lt_succ_of_lt hscope),
      trivial⟩

theorem fit_decls {size : Nat} (hscope : outer < size) (index : Nat) (ds : List Decl) :
    NameEvent.Fit size (declsAccount outer size file index ds).events := by
  induction ds generalizing size index with
  | nil => trivial
  | cons d ds ih =>
    rw [declsAccount, Account.events_append, NameEvent.fit_append, d.enters_account]
    exact ⟨d.fit_account _ _ hscope _, ih (Nat.lt_add_right _ hscope) _⟩

theorem Decl.qualifiedIn_account (scope : ScopeId) (index : Nat) (d : Decl) :
    qualifiedIn (d.account outer scope file index).events = d.qualifiedNames := by
  cases d with
  | bad span => rfl
  | imports g =>
    rw [account, Account.events_all_nil ImportSpec.events_account]
    rfl
  | consts g => exact qualifiedIn_consts ..
  | bean b =>
    rw [account, Bean.events_account]
    show qualifiedIn (_ ++ _) = _
    rw [qualifiedIn_append, qualifiedIn_members]
    exact List.append_nil _

theorem qualifiedIn_decls (scope : ScopeId) (index : Nat) (ds : List Decl) :
    qualifiedIn (declsAccount outer scope file index ds).events =
      ds.flatMap Decl.qualifiedNames := by
  induction ds generalizing scope index with
  | nil => rfl
  | cons d ds ih =>
    rw [declsAccount, Account.events_append, qualifiedIn_append, d.qualifiedIn_account, ih]
    rfl

theorem Decl.mem_referredIn_account (scope : ScopeId) (index : Nat) (d : Decl) (i : Ident) :
    i ∈ referredIn (d.account outer scope file index).events ↔ i ∈ d.references := by
  cases d with
  | bad span => exact Iff.rfl
  | imports g =>
    rw [account, Account.events_all_nil ImportSpec.events_account]
    exact Iff.rfl
  | consts g =>
    obtain ⟨h1, h2⟩ := mem_referredIn_consts outer file index 0 none none g.specs i
    exact ⟨h1, fun hi => (h2 hi).resolve_left (by simp)⟩
  | bean b =>
    rw [account, Bean.events_account]
    show i ∈ referredIn (_ ++ _) ↔ _
    rw [referredIn_append, referredIn_members]
    show i ∈ _ ++ [] ↔ _
    rw [List.append_nil]
    rfl

theorem mem_referredIn_decls (scope : ScopeId) (index : Nat) (ds : List Decl) (i : Ident) :
    i ∈ referredIn (declsAccount outer scope file index ds).events ↔
      i ∈ ds.flatMap Decl.references := by
  induction ds generalizing scope index with
  | nil => rfl
  | cons d ds ih =>
    rw [declsAccount, Account.events_append, referredIn_append, List.mem_append,
      d.mem_referredIn_account, ih, List.flatMap_cons, List.mem_append]

/-- The local name of an import that is an identifier. -/
def ImportSpec.alias? (s : ImportSpec) : Option Ident := s.localName.filter (·.name ≠ ".")

/-- The local names of the imports of a declaration. -/
def Decl.aliases (d : Decl) : List Ident := d.importSpecs.filterMap ImportSpec.alias?

theorem ImportSpec.idents_account (s : ImportSpec) : s.account.idents = s.alias?.toList := by
  unfold account alias?
  cases s.localName with
  | none => rfl
  | some i =>
    by_cases h : i.name = "."
    · simp [h, Lit.pathAccount, Option.filter]
    · simp [h, Lit.pathAccount, Option.filter]

/-- The identifiers that the members of a declaration have for values. -/
def Decl.valueIdents : Decl → List Ident
  | .bean b => b.body.members.filterMap Member.valueIdent?
  | _ => []

/-- The identifiers of a declaration that no event mentions: the local names of imports, and what
members have for values. -/
def Decl.unmentioned (d : Decl) : List Ident := d.aliases ++ d.valueIdents

/-- The identifiers that no event mentions, and those that some event does, are all different. -/
theorem Decl.mentioned_subperm (scope : ScopeId) (index : Nat) (d : Decl) :
    (d.unmentioned ++ mentioned (d.account outer scope file index).events).Subperm
      (d.account outer scope file index).idents := by
  cases d with
  | bad span => exact .refl _
  | imports g =>
    rw [account, Account.events_all_nil ImportSpec.events_account, Account.idents_all]
    show (g.specs.filterMap ImportSpec.alias? ++ [] ++ []).Subperm _
    rw [List.append_nil, List.append_nil, List.filterMap_eq_flatMap_toList]
    simp only [ImportSpec.idents_account]
    exact .refl _
  | consts g => exact mentioned_consts ..
  | bean b =>
    rw [account, Bean.events_account]
    show (b.body.members.filterMap Member.valueIdent? ++ mentioned (_ ++ [_])).Subperm
      (b.name :: (_ ++ []))
    rw [mentioned_append, List.append_nil, ← List.append_assoc]
    show (_ ++ [b.name]).Subperm _
    exact (List.perm_append_singleton ..).subperm.trans ((List.subperm_cons _).2 (mentioned_members ..))

theorem mentioned_subperm_decls (scope : ScopeId) (index : Nat) (ds : List Decl) :
    (ds.flatMap Decl.unmentioned ++
        mentioned (declsAccount outer scope file index ds).events).Subperm
      (declsAccount outer scope file index ds).idents := by
  induction ds generalizing scope index with
  | nil => exact .refl _
  | cons d ds ih =>
    rw [declsAccount, Account.events_append, mentioned_append, Account.idents_append,
      List.flatMap_cons]
    exact (perm_append_append ..).subperm.trans ((d.mentioned_subperm ..).append (ih ..))

/-! ### Scopes of declarations -/

/-- Members are declared for scopes from `scope` on. -/
theorem scope_le_of_mem_decls (scope : ScopeId) (index : Nat) (ds : List Decl) {d : Declaration}
    (hd : d ∈ declarations (declsAccount outer scope file index ds).events) :
    d.1 = outer ∨ scope ≤ d.1 := by
  induction ds generalizing scope index with
  | nil => cases hd
  | cons x ds ih =>
    rw [declsAccount, Account.events_append, declarations_append, x.declarations_account] at hd
    rcases List.mem_append.1 hd with hd | hd
    · rcases List.mem_append.1 hd with hd | hd
      · obtain ⟨o, -, rfl⟩ := List.mem_map.1 hd
        exact .inr (Nat.le_refl _)
      · obtain ⟨o, -, rfl⟩ := List.mem_map.1 hd
        exact .inl rfl
    · exact (ih _ _ hd).imp_right fun h => Nat.le_trans (Nat.le_add_right ..) h

theorem filter_map_scope (i j : ScopeId) (os : List Object) :
    (os.map ((i, ·) : Object → Declaration)).filter (fun d => decide (d.1 = j)) =
      if i = j then os.map (i, ·) else [] := by
  rw [List.filter_map]
  split
  · next h => simp [Function.comp_def, h]
  · next h => simp [Function.comp_def, h]

/-- For the scope of the file, its constants and beans are declared. -/
theorem filter_declarations_outer (scope : ScopeId) (hscope : outer < scope) (index : Nat)
    (ds : List Decl) :
    (declarations (declsAccount outer scope file index ds).events).filter
        (fun d => decide (d.1 = outer)) =
      ((ds.zipIdx index).flatMap fun d => d.1.objects file d.2).map (outer, ·) := by
  induction ds generalizing scope index with
  | nil => rfl
  | cons x ds ih =>
    rw [declsAccount, Account.events_append, declarations_append, x.declarations_account,
      List.filter_append, List.filter_append, filter_map_scope, filter_map_scope,
      if_neg (Nat.ne_of_gt hscope), if_pos rfl, ih _ (Nat.lt_add_right _ hscope), List.zipIdx_cons,
      List.flatMap_cons, List.map_append]
    rfl

/-- For any other scope, members of one bean are declared. -/
theorem filter_declarations_inner (scope : ScopeId) (index : Nat) (ds : List Decl)
    {i : ScopeId} (hi : i ≠ outer) :
    (declarations (declsAccount outer scope file index ds).events).filter
        (fun d => decide (d.1 = i)) = [] ∨
      ∃ b decl, Decl.bean b ∈ ds ∧
        (declarations (declsAccount outer scope file index ds).events).filter
          (fun d => decide (d.1 = i)) = (b.memberObjects file decl).map (i, ·) := by
  induction ds generalizing scope index with
  | nil => exact .inl rfl
  | cons x ds ih =>
    rw [declsAccount, Account.events_append, declarations_append, x.declarations_account,
      List.filter_append, List.filter_append, filter_map_scope, filter_map_scope,
      if_neg (Ne.symm hi), List.append_nil]
    have hlater := (ih (scope + x.scopeCount) (index + 1)).imp_right fun h =>
      h.imp fun b => Exists.imp fun decl => And.imp_left (List.mem_cons_of_mem x)
    by_cases hsame : scope = i
    · cases x with
      | bean b =>
        refine .inr ⟨b, index, List.mem_cons_self, ?_⟩
        have hrest : (declarations (declsAccount outer (scope + (Decl.bean b).scopeCount) file
            (index + 1) ds).events).filter (fun d => decide (d.1 = i)) = [] := by
          refine List.filter_eq_nil_iff.2 fun d hd heq => ?_
          have heq := of_decide_eq_true heq
          rcases scope_le_of_mem_decls outer file _ _ _ hd with h | h
          · exact hi (heq.symm.trans h)
          · rw [heq, ← hsame] at h
            exact absurd h (Nat.not_succ_le_self _)
        rw [hrest, if_pos hsame, List.append_nil, hsame]
        rfl
      | _ =>
        rw [if_pos hsame]
        exact hlater
    · rw [if_neg hsame, List.nil_append]
      exact hlater

/-- Each bean has a scope for its members. -/
theorem exists_scope_of_bean (scope : ScopeId) (hscope : outer < scope) (index : Nat)
    (ds : List Decl) {b : Bean} (hb : Decl.bean b ∈ ds) :
    ∃ i decl, scope ≤ i ∧ (declarations (declsAccount outer scope file index ds).events).filter
      (fun d => decide (d.1 = i)) = (b.memberObjects file decl).map (i, ·) := by
  induction ds generalizing scope index with
  | nil => cases hb
  | cons x ds ih =>
    rw [declsAccount, Account.events_append, declarations_append, x.declarations_account]
    rcases List.mem_cons.1 hb with rfl | hb
    · refine ⟨scope, index, Nat.le_refl _, ?_⟩
      have hrest : (declarations (declsAccount outer (scope + (Decl.bean b).scopeCount) file
          (index + 1) ds).events).filter (fun d => decide (d.1 = scope)) = [] := by
        refine List.filter_eq_nil_iff.2 fun d hd heq => ?_
        have heq := of_decide_eq_true heq
        rcases scope_le_of_mem_decls outer file _ _ _ hd with h | h
        · exact Nat.ne_of_gt hscope (heq.symm.trans h)
        · rw [heq] at h
          exact absurd h (Nat.not_succ_le_self _)
      rw [List.filter_append, List.filter_append, filter_map_scope, filter_map_scope, hrest,
        if_pos rfl, if_neg (Nat.ne_of_lt hscope), List.append_nil, List.append_nil]
      rfl
    · obtain ⟨i, decl, hi, h⟩ := ih _ (Nat.lt_add_right x.scopeCount hscope) (index + 1) hb
      refine ⟨i, decl, Nat.le_trans (Nat.le_add_right ..) hi, ?_⟩
      rw [List.filter_append, List.filter_append, filter_map_scope, filter_map_scope, h,
        if_neg (Nat.ne_of_lt (Nat.lt_of_lt_of_le hscope (Nat.le_trans (Nat.le_add_right ..) hi))),
        List.append_nil]
      by_cases hsame : scope = i
      · cases x with
        | bean b' => exact absurd hi (by rw [hsame]; exact Nat.not_succ_le_self _)
        | _ => rw [if_pos hsame]; rfl
      · rw [if_neg hsame]
        rfl

end Decls

end Idl
