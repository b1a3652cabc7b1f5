/-
Idl/Proofs/Trace/Resolve.lean

What the names of a file stand for when it is parsed.

While a file is parsed, a name that is used is looked up at once and waits if nothing has declared
it so far.  Since the first declaration of a name keeps it, an early answer is the final one, and
what waits is looked up when all is known (`Names.Records.settle`).  So a name that is used stands
for what the scope of the file names in the end, and what the file does not declare is left over.
-/
import Idl.Proofs.Trace.Names

namespace Idl

/-! ### Lookups -/

theorem Resolutions.get?_set (r : Resolutions) (i : IdentId) (o : ObjectId) (x : IdentId) :
    (r.set i o).get? x = if x = i then some o else r.get? x := by
  unfold get? set
  have hlt : i < (r.objects ++ Array.replicate (i + 1 - r.objects.size) none).size := by
    rw [Array.size_append, Array.size_replicate]
    unfold IdentId at *
    omega
  rw [Array.getElem?_modify]
  split
  · next h =>
    rw [← h, if_pos rfl, Array.getElem?_eq_getElem hlt]
    rfl
  · next h =>
    rw [if_neg (Ne.symm h), Array.getElem?_append]
    split
    · rfl
    · next hge =>
      rw [Array.getElem?_eq_none (Nat.not_lt.1 hge), Array.getElem?_replicate]
      split <;> rfl

/-- In a scope without an outer one, resolving is looking up. -/
theorem SymbolTable.resolve?_of_outer {t : SymbolTable} {i : ScopeId} {s : Scope}
    (hs : t.scopes[i]? = some s) (ho : s.outer = none) (name : String) :
    t.resolve? i name = t.lookup? i name := by
  rw [resolve?, lookup?, hs, Option.bind_some]
  dsimp only
  cases s.find? name with
  | some o => rfl
  | none => rw [ho]

/-- Naming an object changes no outer scope. -/
theorem SymbolTable.outer_insert {t : SymbolTable} {i : ScopeId} {s : Scope}
    (hs : t.scopes[i]? = some s) (ho : s.outer = none) (scope : ScopeId) (o : ObjectId) :
    ∃ s', (t.insert scope o).2.scopes[i]? = some s' ∧ s'.outer = none := by
  unfold insert
  split
  · exact ⟨s, hs, ho⟩
  · split
    · exact ⟨s, hs, ho⟩
    · dsimp only
      rw [Array.getElem?_modify, hs]
      split
      · exact ⟨_, rfl, ho⟩
      · exact ⟨s, rfl, ho⟩

/-! ### Parts of the events -/

namespace NameEvent

/-- The identifier that is declared. -/
def declared? : NameEvent → Option Ident
  | .declare _ _ _ _ i => some i
  | _ => none

/-- The name that is used. -/
def referred? : NameEvent → Option Ident
  | .refer i => some i
  | _ => none

/-- The name of another package that is used. -/
def qualified? : NameEvent → Option QualifiedRef
  | .qualify q => some q
  | _ => none

/-- Every scope that something is declared for exists, when there are `size` scopes before. -/
def Fit (size : Nat) : List NameEvent → Prop
  | [] => True
  | .enter :: es => Fit (size + 1) es
  | .declare scope _ _ _ _ :: es => scope < size ∧ Fit size es
  | _ :: es => Fit size es

theorem fit_append {size : Nat} {es es' : List NameEvent} :
    Fit size (es ++ es') ↔ Fit size es ∧ Fit (size + enters es) es' := by
  induction es generalizing size with
  | nil => exact (and_iff_right trivial).symm
  | cons e es ih =>
    have henters : enters (e :: es) = enters [e] + enters es := enters_append [e] es
    rw [henters, ← Nat.add_assoc]
    cases e with
    | enter => exact ih
    | declare scope kind origin data i =>
      show (scope < size ∧ Fit size (es ++ es')) ↔ (scope < size ∧ Fit size es) ∧ _
      rw [ih, and_assoc]
      rfl
    | refer i => exact ih
    | qualify q => exact ih

end NameEvent

/-- What is declared, in order. -/
def declarations (es : List NameEvent) : List Declaration := es.filterMap NameEvent.declaration?

/-- The identifiers that are declared. -/
def declaredIn (es : List NameEvent) : List Ident := es.filterMap NameEvent.declared?

/-- The names that are used. -/
def referredIn (es : List NameEvent) : List Ident := es.filterMap NameEvent.referred?

/-- The names of other packages that are used. -/
def qualifiedIn (es : List NameEvent) : List QualifiedRef := es.filterMap NameEvent.qualified?

/-- All that is mentioned in events. -/
def NameEvent.idents : NameEvent → List Ident
  | .enter => []
  | .declare _ _ _ _ i => [i]
  | .refer i => [i]
  | .qualify q => [q.qualifier, q.name]

/-- All that is mentioned in events. -/
def mentioned (es : List NameEvent) : List Ident := es.flatMap NameEvent.idents

/-- The two names of a qualified name. -/
def QualifiedRef.idents (q : QualifiedRef) : List Ident := [q.qualifier, q.name]

/-- What is mentioned is declared, used, or part of a qualified name. -/
theorem mentioned_perm (es : List NameEvent) : (mentioned es).Perm
    (declaredIn es ++ (referredIn es ++ (qualifiedIn es).flatMap QualifiedRef.idents)) := by
  induction es with
  | nil => exact .nil
  | cons e es ih =>
    have hcons : mentioned (e :: es) = e.idents ++ mentioned es := List.flatMap_cons
    rw [hcons]
    cases e with
    | enter => exact ih
    | declare scope kind origin data i => exact ih.cons i
    | refer i => exact (ih.cons i).trans List.perm_middle.symm
    | qualify q =>
      refine (ih.append_left _).trans ?_
      show (q.idents ++ (declaredIn es ++ (referredIn es ++ _))).Perm
        (declaredIn es ++ (referredIn es ++ (q.idents ++ _)))
      refine (List.perm_append_comm_assoc ..).trans (List.Perm.append_left _ ?_)
      exact List.perm_append_comm_assoc ..

theorem mem_mentioned {es : List NameEvent} {i : Ident} (h : i ∈ declaredIn es ++ referredIn es) :
    i ∈ mentioned es := by
  rw [(mentioned_perm es).mem_iff, ← List.append_assoc]
  exact List.mem_append_left _ h

/-! ### What is recorded -/

/-- After the events `es`, this is known of names. -/
structure Names.Records (file : SourceFile) (fileScope : ScopeId) (n : Names)
    (es : List NameEvent) : Prop where
  declares : n.Declares file (declarations es)
  outer : ∃ s, n.symbols.scopes[fileScope]? = some s ∧ s.outer = none
  qualified : n.qualified = qualifiedIn es
  bound : ∀ {k : ObjectId} {i : Ident}, (declaredIn es)[k]? = some i →
    n.resolutions.get? i.id = some k
  found : ∀ r ∈ referredIn es, r.isBlank = false → r ∈ n.pending ∨
    ∃ o, n.resolutions.get? r.id = some o ∧ n.symbols.lookup? fileScope r.name = some o
  waiting : n.pending.Sublist (referredIn es) ∧
    ∀ r ∈ n.pending, r.isBlank = false ∧ n.resolutions.get? r.id = none
  lost : ∀ p : String → Bool, (∀ name, p name = true → n.symbols.lookup? fileScope name = none) →
    n.pending.filter (p ·.name) = (referredIn es).filter fun r => !r.isBlank && p r.name
  free : ∀ x, (∀ i ∈ declaredIn es, i.id ≠ x) →
    (∀ r ∈ referredIn es, r.isBlank = false → r.id ≠ x) → n.resolutions.get? x = none

namespace Names.Records

variable {file : SourceFile} {fileScope : ScopeId} {n : Names} {es : List NameEvent}

theorem start {t : SymbolTable} {s : Scope} (hlists : t.Lists [])
    (hs : t.scopes[fileScope]? = some s) (ho : s.outer = none) :
    Names.Records file fileScope { symbols := t } [] where
  declares := ⟨hlists, rfl⟩
  outer := ⟨s, hs, ho⟩
  qualified := rfl
  bound h := by simp [declaredIn] at h
  found r h := by simp [referredIn] at h
  waiting := ⟨.slnil, by simp⟩
  lost _ _ := rfl
  free x _ _ := by simp [Resolutions.get?]

/-- A name keeps its object. -/
theorem lookup_mono {d : Declaration} {n' : Names} (h : n.Records file fileScope es)
    (h' : n'.symbols.Lists (declarations es ++ [d])) {name : String} {o : ObjectId}
    (hfound : n.symbols.lookup? fileScope name = some o) :
    n'.symbols.lookup? fileScope name = some o := by
  rw [h.declares.lists.lookup?] at hfound
  rw [h'.lookup?, List.findIdx?_append, hfound]
  rfl

/-- Events that neither declare nor use a name of the file. -/
theorem unnamed {n' : Names} {e : NameEvent} (h : n.Records file fileScope es)
    (hdeclaration : e.declaration? = none) (hdeclared : e.declared? = none)
    (hreferred : e.referred? = none) (hdeclares : n'.Declares file (declarations es))
    (houter : ∃ s, n'.symbols.scopes[fileScope]? = some s ∧ s.outer = none)
    (hqualified : n'.qualified = n.qualified ++ e.qualified?.toList)
    (hlookup : ∀ name, n'.symbols.lookup? fileScope name = n.symbols.lookup? fileScope name)
    (hresolutions : n'.resolutions = n.resolutions) (hpending : n'.pending = n.pending) :
    n'.Records file fileScope (es ++ [e]) := by
  have h1 : declarations (es ++ [e]) = declarations es := by simp [declarations, hdeclaration]
  have h2 : declaredIn (es ++ [e]) = declaredIn es := by simp [declaredIn, hdeclared]
  have h3 : referredIn (es ++ [e]) = referredIn es := by simp [referredIn, hreferred]
  constructor
  · rw [h1]
    exact hdeclares
  · exact houter
  · rw [hqualified, h.qualified]
    cases hq : e.qualified? <;> simp [qualifiedIn, hq]
  · rw [h2, hresolutions]
    exact h.bound
  · rw [h3, hresolutions, hpending]
    intro r hr hb
    exact (h.found r hr hb).imp_right (Exists.imp fun o => And.imp_right (hlookup r.name).trans)
  · rw [h3, hresolutions, hpending]
    exact h.waiting
  · rw [h3, hpending]
    exact fun p hp => h.lost p fun name hname => (hlookup name).symm.trans (hp name hname)
  · rw [h2, h3, hresolutions]
    exact h.free

theorem enter (h : n.Records file fileScope es) :
    (n.after file fileScope .enter).Records file fileScope (es ++ [NameEvent.enter]) := by
  obtain ⟨s, hs, ho⟩ := h.outer
  have hlt : fileScope < n.symbols.scopes.size := (Array.getElem?_eq_some_iff.1 hs).1
  have hscope : (n.symbols.newScope (some fileScope)).2.scopes[fileScope]? =
      n.symbols.scopes[fileScope]? := by
    show (n.symbols.scopes.push _)[fileScope]? = _
    rw [Array.getElem?_push, if_neg (Nat.ne_of_lt hlt)]
  refine h.unnamed rfl rfl rfl ⟨h.declares.lists.newScope _, h.declares.repeated⟩
    ⟨s, hscope.trans hs, ho⟩ (List.append_nil _).symm (fun name => ?_) rfl rfl
  exact congrArg (Option.bind · (Scope.find? · name)) hscope

theorem qualify (h : n.Records file fileScope es) (q : QualifiedRef) :
    (n.after file fileScope (.qualify q)).Records file fileScope (es ++ [NameEvent.qualify q]) :=
  h.unnamed rfl rfl rfl ⟨h.declares.lists, h.declares.repeated⟩ h.outer rfl (fun _ => rfl) rfl rfl

theorem length_declaredIn (es : List NameEvent) :
    (declaredIn es).length = (declarations es).length := by
  induction es with
  | nil => rfl
  | cons e es ih =>
    cases e with
    | declare scope kind origin data i => exact congrArg (· + 1) ih
    | _ => exact ih

theorem declare (h : n.Records file fileScope es) {scope : ScopeId} {kind : ObjectKind}
    {origin : Origin} {data : Option Int} {i : Ident} (hscope : scope < n.symbols.scopes.size)
    (hfresh : ∀ j ∈ declaredIn es ++ referredIn es, j.id ≠ i.id) :
    (n.after file fileScope (.declare scope kind origin data i)).Records file fileScope
      (es ++ [NameEvent.declare scope kind origin data i]) := by
  let d : Declaration := (scope, ⟨kind, i.name, origin, i.pos, data⟩)
  let n' := n.declare file d.1 d.2 i
  show n'.Records file fileScope _
  obtain ⟨hdeclares, -⟩ := h.declares.declare (d := d) (i := i) hscope rfl rfl
  have hsize : n.symbols.objects.size = (declaredIn es).length := by
    rw [length_declaredIn, h.declares.lists.objects_size]
  have hget (x : IdentId) : n'.resolutions.get? x =
      if x = i.id then some (declaredIn es).length else n.resolutions.get? x := by
    rw [← hsize]
    exact Resolutions.get?_set ..
  have hold (x : IdentId) (hx : x ≠ i.id) : n'.resolutions.get? x = n.resolutions.get? x := by
    rw [hget, if_neg hx]
  have h2 : declaredIn (es ++ [NameEvent.declare scope kind origin data i]) = declaredIn es ++ [i] := by
    simp [declaredIn, NameEvent.declared?]
  have h3 : referredIn (es ++ [NameEvent.declare scope kind origin data i]) = referredIn es := by
    simp [referredIn, NameEvent.referred?]
  have hpending : n'.pending = n.pending := rfl
  have hwaiting (r : Ident) (hr : r ∈ referredIn es) : r.id ≠ i.id :=
    hfresh r (List.mem_append_right _ hr)
  constructor
  · have h1 : declarations (es ++ [NameEvent.declare scope kind origin data i]) = declarations es ++ [d] := by
      simp [declarations, NameEvent.declaration?, d]
    rw [h1]
    exact hdeclares
  · obtain ⟨s, hs, ho⟩ := h.outer
    show ∃ s', (if i.isBlank then _ else _ : Option ObjectId × SymbolTable).2.scopes[_]? = _ ∧ _
    split
    · exact ⟨s, hs, ho⟩
    · exact SymbolTable.outer_insert (t := (n.symbols.newObject d.2).2) hs ho d.1 _
  · rw [show n'.qualified = n.qualified from rfl, h.qualified]
    simp [qualifiedIn, NameEvent.qualified?]
  · rw [h2]
    intro k j hj
    rcases Nat.lt_or_ge k (declaredIn es).length with hk | hk
    · rw [List.getElem?_append_left hk] at hj
      rw [hold _ (hfresh j (List.mem_append_left _ (List.mem_of_getElem? hj)))]
      exact h.bound hj
    · rw [List.getElem?_append_right hk] at hj
      obtain ⟨hlt, rfl⟩ := List.getElem?_eq_some_iff.1 hj
      have hk' : k = (declaredIn es).length := by
        simp only [List.length_singleton, Nat.lt_one_iff] at hlt
        exact Nat.le_antisymm (Nat.sub_eq_zero_iff_le.1 hlt) hk
      simp only [hk', Nat.sub_self, List.getElem_cons_zero]
      rw [hget, if_pos rfl]
  · rw [h3, hpending]
    intro r hr hb
    refine (h.found r hr hb).imp_right ?_
    rintro ⟨o, ho, hl⟩
    exact ⟨o, (hold _ (hwaiting r hr)).trans ho, h.lookup_mono hdeclares.lists hl⟩
  · rw [h3, hpending]
    refine ⟨h.waiting.1, fun r hr => ⟨(h.waiting.2 r hr).1, ?_⟩⟩
    rw [hold _ (hwaiting r (h.waiting.1.subset hr))]
    exact (h.waiting.2 r hr).2
  · rw [h3, hpending]
    refine fun p hp => h.lost p fun name hname => ?_
    cases hl : n.symbols.lookup? fileScope name with
    | none => rfl
    | some o => exact absurd ((h.lookup_mono hdeclares.lists hl).symm.trans (hp name hname)) (by simp)
  · rw [h2, h3]
    intro x hdeclared hreferred
    rw [hold _ (Ne.symm (hdeclared i (List.mem_append_right _ List.mem_cons_self)))]
    exact h.free x (fun j hj => hdeclared j (List.mem_append_left _ hj)) hreferred

section Refer

variable {i : Ident}

@[simp] theorem declarations_refer (es : List NameEvent) (i : Ident) :
    declarations (es ++ [NameEvent.refer i]) = declarations es := by
  simp [declarations, NameEvent.declaration?]

@[simp] theorem declaredIn_refer (es : List NameEvent) (i : Ident) :
    declaredIn (es ++ [NameEvent.refer i]) = declaredIn es := by
  simp [declaredIn, NameEvent.declared?]

@[simp] theorem referredIn_refer (es : List NameEvent) (i : Ident) :
    referredIn (es ++ [NameEvent.refer i]) = referredIn es ++ [i] := by
  simp [referredIn, NameEvent.referred?]

@[simp] theorem qualifiedIn_refer (es : List NameEvent) (i : Ident) :
    qualifiedIn (es ++ [NameEvent.refer i]) = qualifiedIn es := by
  simp [qualifiedIn, NameEvent.qualified?]

/-- What stays free after a use was free before. -/
theorem free_refer (h : n.Records file fileScope es) {x : IdentId}
    (hdeclared : ∀ j ∈ declaredIn (es ++ [NameEvent.refer i]), j.id ≠ x)
    (hreferred : ∀ r ∈ referredIn (es ++ [NameEvent.refer i]), r.isBlank = false → r.id ≠ x) :
    n.resolutions.get? x = none := by
  rw [declaredIn_refer] at hdeclared
  rw [referredIn_refer] at hreferred
  exact h.free x hdeclared fun r hr => hreferred r (List.mem_append_left _ hr)

/-- A blank name stands for nothing. -/
theorem refer_blank (h : n.Records file fileScope es) (hb : i.isBlank = true) :
    n.Records file fileScope (es ++ [NameEvent.refer i]) where
  declares := by rw [declarations_refer]; exact h.declares
  outer := h.outer
  qualified := by rw [qualifiedIn_refer]; exact h.qualified
  bound := by rw [declaredIn_refer]; exact h.bound
  found r hr hrb := by
    rw [referredIn_refer] at hr
    rcases List.mem_append.1 hr with hr | hr
    · exact h.found r hr hrb
    · rw [List.mem_singleton.1 hr, hb] at hrb
      cases hrb
  waiting := by
    rw [referredIn_refer]
    exact ⟨h.waiting.1.trans (List.sublist_append_left ..), h.waiting.2⟩
  lost p hp := by
    rw [referredIn_refer, List.filter_append, ← h.lost p hp]
    simp [hb]
  free _ := h.free_refer

/-- A name that is declared already is found at once. -/
theorem refer_found (h : n.Records file fileScope es)
    (hfresh : ∀ j ∈ declaredIn es ++ referredIn es, j.id ≠ i.id) (hb : i.isBlank = false)
    {o : ObjectId} (hl : n.symbols.lookup? fileScope i.name = some o) :
    Names.Records file fileScope { n with resolutions := n.resolutions.set i.id o }
      (es ++ [NameEvent.refer i]) := by
  have hget (x : IdentId) : (n.resolutions.set i.id o).get? x =
      if x = i.id then some o else n.resolutions.get? x := Resolutions.get?_set ..
  have hold {r : Ident} (hr : r ∈ referredIn es) : r.id ≠ i.id :=
    hfresh r (List.mem_append_right _ hr)
  constructor
  · rw [declarations_refer]
    exact ⟨h.declares.lists, h.declares.repeated⟩
  · exact h.outer
  · rw [qualifiedIn_refer]
    exact h.qualified
  · rw [declaredIn_refer]
    intro k j hj
    rw [hget, if_neg (hfresh j (List.mem_append_left _ (List.mem_of_getElem? hj)))]
    exact h.bound hj
  · rw [referredIn_refer]
    intro r hr hrb
    rcases List.mem_append.1 hr with hr | hr
    · rw [hget, if_neg (hold hr)]
      exact h.found r hr hrb
    · obtain rfl := List.mem_singleton.1 hr
      exact .inr ⟨o, by rw [hget, if_pos rfl], hl⟩
  · rw [referredIn_refer]
    refine ⟨h.waiting.1.trans (List.sublist_append_left ..), fun r hr => ?_⟩
    rw [hget, if_neg (hold (h.waiting.1.subset hr))]
    exact h.waiting.2 r hr
  · intro p hp
    have hp' : p i.name = false := by
      cases hpi : p i.name with
      | false => rfl
      | true => exact absurd ((hp _ hpi).symm.trans hl) (by simp)
    rw [referredIn_refer, List.filter_append, ← h.lost p hp]
    simp [hb, hp']
  · intro x hdeclared hreferred
    have hne : i.id ≠ x := by
      rw [referredIn_refer] at hreferred
      exact hreferred i (List.mem_append_right _ List.mem_cons_self) hb
    rw [hget, if_neg (Ne.symm hne)]
    exact h.free_refer hdeclared hreferred

/-- A name that is not declared yet waits. -/
theorem refer_waits (h : n.Records file fileScope es)
    (hfresh : ∀ j ∈ declaredIn es ++ referredIn es, j.id ≠ i.id) (hb : i.isBlank = false) :
    Names.Records file fileScope { n with pending := n.pending ++ [i] }
      (es ++ [NameEvent.refer i]) := by
  constructor
  · rw [declarations_refer]
    exact ⟨h.declares.lists, h.declares.repeated⟩
  · exact h.outer
  · rw [qualifiedIn_refer]
    exact h.qualified
  · rw [declaredIn_refer]
    exact h.bound
  · rw [referredIn_refer]
    intro r hr hrb
    rcases List.mem_append.1 hr with hr | hr
    · exact (h.found r hr hrb).imp_left (List.mem_append_left _)
    · exact .inl (List.mem_append_right _ hr)
  · rw [referredIn_refer]
    refine ⟨h.waiting.1.append (.refl _), fun r hr => ?_⟩
    rcases List.mem_append.1 hr with hr | hr
    · exact h.waiting.2 r hr
    · rw [List.mem_singleton.1 hr]
      exact ⟨hb, h.free i.id (fun j hj => hfresh j (List.mem_append_left _ hj))
        fun r hr _ => hfresh r (List.mem_append_right _ hr)⟩
  · intro p hp
    rw [referredIn_refer, List.filter_append, List.filter_append, h.lost p hp]
    simp [List.filter_cons, hb]
  · exact fun _ => h.free_refer

theorem refer (h : n.Records file fileScope es)
    (hfresh : ∀ j ∈ declaredIn es ++ referredIn es, j.id ≠ i.id) :
    (n.after file fileScope (.refer i)).Records file fileScope (es ++ [NameEvent.refer i]) := by
  obtain ⟨s, hs, ho⟩ := h.outer
  show (n.refer fileScope i).Records file fileScope _
  unfold Names.refer
  rw [SymbolTable.resolve?_of_outer hs ho]
  cases hb : i.isBlank with
  | true =>
    rw [if_pos rfl]
    exact h.refer_blank hb
  | false =>
    rw [if_neg Bool.false_ne_true]
    cases hl : n.symbols.lookup? fileScope i.name with
    | some o => exact h.refer_found hfresh hb hl
    | none => exact h.refer_waits hfresh hb

end Refer

/-- What is recorded of all events, when nothing is mentioned twice. -/
theorem all (h : n.Records file fileScope es) (es' : List NameEvent)
    (hfit : NameEvent.Fit n.symbols.scopes.size es')
    (hnodup : ((mentioned (es ++ es')).map (·.id)).Nodup) :
    (es'.foldl (Names.after file fileScope) n).Records file fileScope (es ++ es') := by
  induction es' generalizing n es with
  | nil => rwa [List.append_nil]
  | cons e es' ih =>
    rw [List.append_cons] at hnodup ⊢
    have hfresh {i : Ident} (hi : e.idents = [i]) :
        ∀ j ∈ declaredIn es ++ referredIn es, j.id ≠ i.id := by
      intro j hj heq
      have hids : (mentioned (es ++ [e])).map (·.id) =
          (mentioned es).map (·.id) ++ [i.id] := by
        simp [mentioned, hi]
      rw [mentioned, List.flatMap_append, List.map_append, List.nodup_append] at hnodup
      have hnodup := hnodup.1
      rw [show (es ++ [e]).flatMap NameEvent.idents = mentioned (es ++ [e]) from rfl, hids,
        List.nodup_append] at hnodup
      exact hnodup.2.2 j.id (List.mem_map_of_mem (mem_mentioned hj)) i.id (by simp) heq
    cases e with
    | enter =>
      refine ih h.enter ?_ hnodup
      show NameEvent.Fit (n.symbols.scopes.push _).size es'
      rw [Array.size_push]
      exact hfit
    | declare scope kind origin data i =>
      refine ih (h.declare hfit.1 (hfresh rfl)) ?_ hnodup
      obtain ⟨-, hsize⟩ := h.declares.declare (i := i)
        (d := (scope, ⟨kind, i.name, origin, i.pos, data⟩)) hfit.1 rfl rfl
      show NameEvent.Fit (Names.declare file n scope ⟨kind, i.name, origin, i.pos, data⟩ i).symbols.scopes.size es'
      rw [hsize]
      exact hfit.2
    | refer i =>
      refine ih (h.refer (hfresh rfl)) ?_ hnodup
      have hsymbols : (n.refer fileScope i).symbols = n.symbols := by
        unfold Names.refer
        split
        · rfl
        · split <;> rfl
      show NameEvent.Fit (n.refer fileScope i).symbols.scopes.size es'
      rw [hsymbols]
      exact hfit
    | qualify q => exact ih (h.qualify q) hfit hnodup

end Names.Records

/-! ### What waits to the end -/

section Settle

variable (found : Ident → Option ObjectId)

/-- Records what is found for a name. -/
def settleOne (r : Resolutions) (i : Ident) : Resolutions := ((found i).map (r.set i.id)).getD r

theorem get?_settleOne (r : Resolutions) (i : Ident) (x : IdentId) :
    (settleOne found r i).get? x = if x = i.id ∧ (found i).isSome then found i else r.get? x := by
  unfold settleOne
  cases hf : found i with
  | none => simp
  | some o =>
    simp only [Option.map_some, Option.getD_some, Option.isSome_some, and_true]
    exact Resolutions.get?_set ..

theorem get?_settle_other (r : Resolutions) (is : List Ident) (x : IdentId)
    (h : ∀ i ∈ is, i.id = x → found i = none) :
    (is.foldl (settleOne found) r).get? x = r.get? x := by
  induction is generalizing r with
  | nil => rfl
  | cons i is ih =>
    rw [List.foldl_cons, ih _ fun j hj => h j (List.mem_cons_of_mem _ hj), get?_settleOne,
      if_neg fun hx => ?_]
    rw [h i List.mem_cons_self hx.1.symm] at hx
    exact absurd hx.2 (by simp)

theorem get?_settle_mem (r : Resolutions) {is : List Ident} (hnodup : (is.map (·.id)).Nodup)
    {i : Ident} (hi : i ∈ is) (hnone : r.get? i.id = none) :
    (is.foldl (settleOne found) r).get? i.id = found i := by
  induction is generalizing r with
  | nil => cases hi
  | cons j is ih =>
    rw [List.map_cons, List.nodup_cons] at hnodup
    rw [List.foldl_cons]
    rcases List.mem_cons.1 hi with rfl | hi
    · rw [get?_settle_other found _ is i.id fun k hk hki =>
        absurd (hki ▸ List.mem_map_of_mem hk) hnodup.1, get?_settleOne, hnone]
      cases found i <;> simp
    · refine ih _ hnodup.2 hi ?_
      rw [get?_settleOne, if_neg fun h => ?_, hnone]
      exact hnodup.1 (h.1 ▸ List.mem_map_of_mem hi)

end Settle

/-- What the names of a file stand for in the end. -/
structure Names.Settled (fileScope : ScopeId) (n : Names) (es : List NameEvent)
    (r : Resolutions) (unresolved : List Ident) : Prop where
  bound : ∀ {k : ObjectId} {i : Ident}, (declaredIn es)[k]? = some i → r.get? i.id = some k
  referred : ∀ i ∈ referredIn es, i.isBlank = false →
    r.get? i.id = n.symbols.lookup? fileScope i.name
  free : ∀ x, (∀ i ∈ declaredIn es, i.id ≠ x) →
    (∀ i ∈ referredIn es, i.isBlank = false → i.id ≠ x) → r.get? x = none
  unresolved : unresolved = (referredIn es).filter fun i =>
    !i.isBlank && (n.symbols.lookup? fileScope i.name).isNone

/-- What waits is looked up when all is known. -/
theorem Names.Records.settle {file : SourceFile} {fileScope : ScopeId} {n : Names}
    {es : List NameEvent} (h : n.Records file fileScope es)
    (hnodup : ((mentioned es).map (·.id)).Nodup) :
    let found (i : Ident) := n.symbols.lookup? fileScope i.name
    n.Settled fileScope es (n.pending.foldl (settleOne found) n.resolutions)
      (n.pending.filter fun i => (found i).isNone) := by
  intro found
  have hids := (((mentioned_perm es).map (·.id)).nodup_iff).1 hnodup
  rw [List.map_append, List.map_append, List.nodup_append] at hids
  obtain ⟨-, hreferred, happart⟩ := hids
  have hreferred := (List.nodup_append.1 hreferred).1
  have hdistinct {i r : Ident} (hi : i ∈ declaredIn es) (hr : r ∈ referredIn es) : r.id ≠ i.id :=
    fun heq => happart i.id (List.mem_map_of_mem hi) r.id
      (List.mem_append_left _ (List.mem_map_of_mem hr)) heq.symm
  have hpending : (n.pending.map (·.id)).Nodup := hreferred.sublist (h.waiting.1.map _)
  have hother (x : IdentId) (hx : ∀ i ∈ n.pending, i.id ≠ x) :
      (n.pending.foldl (settleOne found) n.resolutions).get? x = n.resolutions.get? x :=
    get?_settle_other found _ _ x fun i hi hix => absurd hix (hx i hi)
  constructor
  · intro k i hk
    have hi := List.mem_of_getElem? hk
    rw [hother i.id fun r hr => hdistinct hi (h.waiting.1.subset hr)]
    exact h.bound hk
  · intro i hi hb
    by_cases hwait : i ∈ n.pending
    · exact get?_settle_mem found _ hpending hwait (h.waiting.2 i hwait).2
    · rcases h.found i hi hb with hp | ⟨o, ho, hl⟩
      · exact absurd hp hwait
      · have hne (r : Ident) (hr : r ∈ n.pending) : r.id ≠ i.id := fun heq => by
          -- what waits has no object yet
          have hnone := (h.waiting.2 r hr).2
          rw [heq, ho] at hnone
          cases hnone
        rw [hother i.id hne, ho, hl]
  · intro x hdeclared hfree
    rw [hother x fun r hr => hfree r (h.waiting.1.subset hr) (h.waiting.2 r hr).1]
    exact h.free x hdeclared hfree
  · refine h.lost (fun name => (n.symbols.lookup? fileScope name).isNone) fun name hname => ?_
    exact Option.isNone_iff_eq_none.1 hname

end Idl
