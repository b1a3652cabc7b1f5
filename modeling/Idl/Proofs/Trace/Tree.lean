/-
Idl/Proofs/Trace/Tree.lean

The account that each part of a syntax tree gives of its parsing.

Identifiers and literals are listed in the order in which they stand in the file, which is not
that of the tree everywhere: the name of a method stands before its type, that of a field behind
it.  Names are declared when the member or constant is complete and a bean is declared behind its
members; what a type refers to is resolved when the member is complete.  A constant without a value
of its own shares that of the one before it, so the value is accounted for once.
-/
import Idl.Proofs.Occurrences
import Idl.Proofs.Trace.Account
import Mathlib.Algebra.Order.Ring.Nat

namespace Idl

/-! ### Values and types -/

/-- An identifier takes itself. -/
@[simp] def Ident.account (i : Ident) : Account := { idents := [i] }

/-- What a value takes, if it is not a constant that is to be resolved. -/
def Value.account : Value → Account
  | .bad p => { faults := [p] }
  | .ident i => i.account
  | .lit l => { lits := [l] }

namespace TypeExpr

/-- What a type takes.  The word that starts a container is no part of it. -/
def account : TypeExpr → Account
  | .bad p => { faults := [p] }
  | .basic name _ => name.account
  | .array _ elem size _ => elem.account ++ size.account
  | .vector _ elem _ => elem.account
  | .map _ key value _ => key.account ++ value.account
  | .named none name => name.account
  | .named (some qualifier) name => { idents := [qualifier, name], solid := [qualifier] }

/-- The names that a type uses. -/
def events : TypeExpr → List NameEvent
  | .array _ elem (.ident i) _ => elem.events ++ [.refer i]
  | .array _ elem _ _ => elem.events
  | .vector _ elem _ => elem.events
  | .map _ key value _ => key.events ++ value.events
  | .named none name => [.refer name]
  | .named (some qualifier) name => [.qualify ⟨qualifier, name⟩]
  | _ => []

end TypeExpr

/-- What a parameter takes. -/
def Param.account (p : Param) : Account := p.type.account ++ .all Ident.account p.name.toList

namespace MemberType

/-- What the type of a member takes. -/
def account : MemberType → Account
  | .plain t => t.account
  | .func sig => .all Param.account sig.params ++ .all TypeExpr.account sig.result.toList

/-- The names that the type of a member uses. -/
def events : MemberType → List NameEvent
  | .plain t => t.events
  | .func sig => sig.params.flatMap (·.type.events) ++ sig.result.toList.flatMap TypeExpr.events

end MemberType

/-! ### Beans -/

namespace Member

/-- What a member of a bean of the given kind takes, before its names are declared. -/
def account (kind : BeanKind) (m : Member) : Account :=
  let names := Account.all Ident.account m.names
  let type := Account.all MemberType.account m.type.toList
  { marks := m.options } ++ (if kind = .service then names ++ type else type ++ names) ++
    .all Value.account m.value.toList ++ { lits := m.tag.toList }

/-- What then happens to the names of the member at an index. -/
def events (kind : BeanKind) (scope : ScopeId) (origin : Origin) (index : Nat) (m : Member) :
    List NameEvent :=
  let data : Option Int := if kind = .enum then some index else none
  m.names.map (.declare scope kind.memberKind origin data) ++
    m.type.toList.flatMap MemberType.events

end Member

/-- What the members of a bean take, the first of which has the index `index`. -/
def membersAccount (kind : BeanKind) (scope : ScopeId) (file : FileId) (decl index : Nat) :
    List Member → Account
  | [] => {}
  | m :: ms =>
    m.account kind ++ { events := m.events kind scope (.field file decl index) index } ++
      membersAccount kind scope file decl (index + 1) ms

/-- What a bean takes, whose members get the scope `scope`. -/
def Bean.account (outer scope : ScopeId) (file : FileId) (decl : Nat) (b : Bean) : Account :=
  b.name.account ++ { lits := b.tag.toList, events := [.enter] } ++
    membersAccount b.kind scope file decl 0 b.body.members ++
    { events := [.declare outer .bean (.decl file decl) none b.name] }

/-! ### Imports and constants -/

/-- What the path of an import takes.  One that is no import path is reported where it stands. -/
def Lit.pathAccount (l : Lit) : Account where
  faults := if isImportPath l.text then [] else [l.pos]
  spots := [l.pos]

theorem Lit.mem_faults_pathAccount {l : Lit} {p : Pos} :
    p ∈ l.pathAccount.faults ↔ isImportPath l.text = false ∧ p = l.pos := by
  cases h : isImportPath l.text <;> simp [pathAccount, h]

/-- What an import takes. -/
def ImportSpec.account (s : ImportSpec) : Account :=
  (match s.localName with
    | none => {}
    | some i => if i.name = "." then { marks := [i] } else i.account) ++ s.path.pathAccount

/-- What the value of a constant takes that has it of its own. -/
def Value.ownAccount : Value → Account
  | .ident i => i.account ++ { events := [.refer i] }
  | v => v.account

/-- What the value of a constant takes when the value before it is `previous`; where there is none,
an error is reported at `first`. -/
def constValueAccount (previous : Option Value) (first : Pos) : Option Value → Account
  | none => { faults := [first] }
  | some (.bad p) => { faults := [p] }
  | some v => if previous = some v then {} else v.ownAccount

/-- What the constant at an index of its group takes, before it is declared.  The value before it
is `previous`, and `first` is where the name of the first constant of the group stands, if there is
one before. -/
def ConstSpec.account (outer : ScopeId) (file : FileId) (decl index : Nat)
    (previous : Option Value) (first : Option Pos) (s : ConstSpec) : Account :=
  s.name.account ++ constValueAccount previous (first.getD s.name.pos) s.value ++
    { events := [.declare outer .const (.spec file decl index) (some index) s.name] }

/-- What the constants of a group take, the first of which has the index `index`. -/
def constsAccount (outer : ScopeId) (file : FileId) (decl index : Nat) (previous : Option Value)
    (first : Option Pos) : List ConstSpec → Account
  | [] => {}
  | s :: ss =>
    s.account outer file decl index previous first ++
      constsAccount outer file decl (index + 1) s.value (first <|> some s.name.pos) ss

/-! ### Declarations and files -/

/-- What a declaration takes, in which a bean gets the scope `scope` for its members. -/
def Decl.account (outer scope : ScopeId) (file : FileId) (index : Nat) : Decl → Account
  | .bad span => { faults := [span.start] }
  | .imports g => .all ImportSpec.account g.specs
  | .consts g => constsAccount outer file index 0 none none g.specs
  | .bean b => b.account outer scope file index

/-- The number of scopes that a declaration creates. -/
def Decl.scopeCount : Decl → Nat
  | .bean _ => 1
  | _ => 0

/-- What declarations take, the first of which has the index `index`. -/
def declsAccount (outer scope : ScopeId) (file : FileId) (index : Nat) : List Decl → Account
  | [] => {}
  | d :: ds =>
    d.account outer scope file index ++
      declsAccount outer (scope + d.scopeCount) file (index + 1) ds

/-- What a file takes, in which the first bean gets the scope `scope` for its members. -/
def File.account (scope : ScopeId) (f : File) : Account :=
  { spots := [f.packagePos] } ++ f.name.account ++ declsAccount f.scope scope f.id 0 f.decls

/-! ### What happens to names -/

/-- Whether a name is used, and not declared. -/
def NameEvent.isUse : NameEvent → Bool
  | .refer _ | .qualify _ => true
  | _ => false

theorem Account.events_all {α : Type} (f : α → Account) (xs : List α) :
    (all f xs).events = xs.flatMap fun x => (f x).events := by
  induction xs with
  | nil => rfl
  | cons x xs ih => rw [all_cons, events_append, ih, List.flatMap_cons]

theorem Account.events_all_nil {α : Type} {f : α → Account} (h : ∀ x, (f x).events = [])
    (xs : List α) : (all f xs).events = [] := by
  rw [events_all, List.flatMap_eq_nil_iff]
  exact fun x _ => h x

@[simp] theorem Value.events_account (v : Value) : v.account.events = [] := by cases v <;> rfl

@[simp] theorem TypeExpr.events_account (t : TypeExpr) : t.account.events = [] := by
  induction t with
  | array p elem size closing ih => rw [account, Account.events_append, ih, Value.events_account]; rfl
  | vector p elem closing ih => exact ih
  | map p key value closing ihk ihv => rw [account, Account.events_append, ihk, ihv]; rfl
  | named qualifier name => cases qualifier <;> rfl
  | _ => rfl

@[simp] theorem Param.events_account (p : Param) : p.account.events = [] := by
  rw [account, Account.events_append, TypeExpr.events_account,
    Account.events_all_nil fun _ => rfl]
  rfl

@[simp] theorem MemberType.events_account (t : MemberType) : t.account.events = [] := by
  cases t with
  | plain t => exact t.events_account
  | func sig =>
    rw [account, Account.events_append, Account.events_all_nil Param.events_account,
      Account.events_all_nil TypeExpr.events_account]
    rfl

@[simp] theorem Member.events_account (kind : BeanKind) (m : Member) :
    (m.account kind).events = [] := by
  have hnames : (Account.all Ident.account m.names).events = [] :=
    Account.events_all_nil (fun _ => rfl) _
  unfold account
  split <;> simp [Account.events_all_nil, hnames]

@[simp] theorem ImportSpec.events_account (s : ImportSpec) : s.account.events = [] := by
  unfold account
  split
  · rfl
  · split <;> rfl

theorem TypeExpr.isUse_of_mem (t : TypeExpr) : ∀ e ∈ t.events, e.isUse = true := by
  induction t with
  | array p elem size closing ih =>
    cases size with
    | ident i =>
      intro e he
      rcases List.mem_append.1 he with he | he
      · exact ih e he
      · rw [List.mem_singleton.1 he]; rfl
    | _ => exact ih
  | vector p elem closing ih => exact ih
  | map p key value closing ihk ihv =>
    intro e he
    exact (List.mem_append.1 he).elim (ihk e) (ihv e)
  | named qualifier name =>
    intro e he
    cases qualifier <;> rw [List.mem_singleton.1 he] <;> rfl
  | _ => intro e he; simp [events] at he

theorem MemberType.isUse_of_mem (t : MemberType) : ∀ e ∈ t.events, e.isUse = true := by
  cases t with
  | plain t => exact t.isUse_of_mem
  | func sig =>
    intro e he
    rcases List.mem_append.1 he with he | he
    · obtain ⟨p, -, hp⟩ := List.mem_flatMap.1 he
      exact p.type.isUse_of_mem e hp
    · obtain ⟨r, -, hr⟩ := List.mem_flatMap.1 he
      exact r.isUse_of_mem e hr

/-! ### Scopes -/

namespace NameEvent

@[simp] theorem enters_nil : enters [] = 0 := rfl

@[simp] theorem enters_append (es es' : List NameEvent) :
    enters (es ++ es') = enters es + enters es' := List.countP_append

theorem enters_of_isUse {es : List NameEvent} (h : ∀ e ∈ es, e.isUse = true) : enters es = 0 := by
  rw [enters, List.countP_eq_zero]
  intro e he
  have := h e he
  cases e <;> simp_all [isUse]

@[simp] theorem enters_declare {scope : ScopeId} {kind : ObjectKind} {origin : Origin}
    {data : Option Int} (names : List Ident) :
    enters (names.map (.declare scope kind origin data)) = 0 := by
  simp [enters, Function.comp_def]

end NameEvent

theorem enters_membersAccount (kind : BeanKind) (scope : ScopeId) (file : FileId) (decl i : Nat)
    (ms : List Member) : NameEvent.enters (membersAccount kind scope file decl i ms).events = 0 := by
  induction ms generalizing i with
  | nil => rfl
  | cons m ms ih =>
    have huse : NameEvent.enters (m.type.toList.flatMap MemberType.events) = 0 := by
      refine NameEvent.enters_of_isUse fun e he => ?_
      obtain ⟨t, -, ht⟩ := List.mem_flatMap.1 he
      exact t.isUse_of_mem e ht
    rw [membersAccount, Account.events_append, NameEvent.enters_append, ih]
    simp [Member.events, huse]

theorem enters_constsAccount (outer : ScopeId) (file : FileId) (decl i : Nat)
    (previous : Option Value) (first : Option Pos) (ss : List ConstSpec) :
    NameEvent.enters (constsAccount outer file decl i previous first ss).events = 0 := by
  induction ss generalizing i previous first with
  | nil => rfl
  | cons s ss ih =>
    have hvalue (p : Pos) : NameEvent.enters (constValueAccount previous p s.value).events = 0 := by
      rcases s.value with - | v
      · rfl
      · rcases v with q | j | l
        · rfl
        · show NameEvent.enters (if _ then {} else (Value.ident j).ownAccount : Account).events = 0
          split <;> rfl
        · show NameEvent.enters (if _ then {} else (Value.lit l).ownAccount : Account).events = 0
          split <;> rfl
    rw [constsAccount, Account.events_append, NameEvent.enters_append, ih]
    simp [ConstSpec.account, hvalue]
    rfl

/-- A declaration creates as many scopes as its account tells of. -/
theorem Decl.enters_account (outer scope : ScopeId) (file : FileId) (i : Nat) (d : Decl) :
    NameEvent.enters (d.account outer scope file i).events = d.scopeCount := by
  cases d with
  | bad span => rfl
  | imports g =>
    rw [account, Account.events_all_nil ImportSpec.events_account]
    rfl
  | consts g => exact enters_constsAccount ..
  | bean b =>
    rw [account, Bean.account, Account.events_append, Account.events_append, Account.events_append,
      NameEvent.enters_append, NameEvent.enters_append, NameEvent.enters_append,
      enters_membersAccount]
    rfl

theorem enters_declsAccount (outer scope : ScopeId) (file : FileId) (i : Nat) (ds : List Decl) :
    NameEvent.enters (declsAccount outer scope file i ds).events = (ds.map Decl.scopeCount).sum := by
  induction ds generalizing scope i with
  | nil => rfl
  | cons d ds ih =>
    rw [declsAccount, Account.events_append, NameEvent.enters_append, d.enters_account, ih,
      List.map_cons, List.sum_cons]

end Idl
