/-
Idl/Proofs/Scopes.lean

What a symbol table answers, however it was filled.

Scopes and objects are created and objects are named in scopes, in any order (`SymbolAction`,
`SymbolTable.After`).  A lookup changes only where an object is named under a name that is still
free (`SymbolTable.lookup?_insert_eq`), so the first object of a name keeps it.  Whatever is done,
the outer scope of a scope is older than the scope, and a scope names objects by their own names
and no name twice (`Scope.Proper`).  The first of these lets every search outwards come to an end
(`SymbolTable.OuterChain`), the others make the listing of a scope complete.

Main result: `SymbolTable.names_after`.
-/
import Idl.Proofs.Repeats
import Idl.Proofs.Sorting
import Idl.Scope
import Mathlib.Data.List.Find
import Mathlib.Data.List.Nodup

namespace Idl

/-! ### A symbol table in use -/

/-- What can be done with a symbol table. -/
inductive SymbolAction where
  | newScope (outer : Option ScopeId)
  | newObject (o : Object)
  | insert (scope : ScopeId) (id : ObjectId)

/-- The objects that were to be named in a scope, the earliest first, whether or not their names
were still free. -/
def insertedInto (scope : ScopeId) (actions : List SymbolAction) : List ObjectId :=
  actions.filterMap fun
    | .insert s id => if s = scope then some id else none
    | _ => none

namespace SymbolTable

/-- Does one thing with a table. -/
def act (t : SymbolTable) : SymbolAction → SymbolTable
  | .newScope outer => (t.newScope outer).2
  | .newObject o => (t.newObject o).2
  | .insert scope id => (t.insert scope id).2

/-- An action uses scopes and objects that the table has. -/
def Allows (t : SymbolTable) : SymbolAction → Prop
  | .newScope none => True
  | .newScope (some outer) => outer < t.scopes.size
  | .newObject _ => True
  | .insert scope id => scope < t.scopes.size ∧ id < t.objects.size

instance (t : SymbolTable) : DecidablePred t.Allows
  | .newScope none => .isTrue trivial
  | .newScope (some outer) => inferInstanceAs (Decidable (outer < t.scopes.size))
  | .newObject _ => .isTrue trivial
  | .insert scope id => inferInstanceAs (Decidable (scope < t.scopes.size ∧ id < t.objects.size))

/-- The actions, one after the other, make the table out of an empty one. -/
inductive After : List SymbolAction → SymbolTable → Prop
  | empty : After [] {}
  | act {actions : List SymbolAction} {t : SymbolTable} {a : SymbolAction} (h : After actions t)
      (ha : t.Allows a) : After (actions ++ [a]) (t.act a)

/-- The name of an object. -/
def nameOf? (t : SymbolTable) (id : ObjectId) : Option String := t.objects[id]?.map (·.name)

/-! ### Lookups behind one action -/

variable {t : SymbolTable} {actions : List SymbolAction}

/-- A new scope names nothing. -/
theorem lookup?_newScope_eq (t : SymbolTable) (outer : Option ScopeId) (i : ScopeId)
    (name : String) : (t.newScope outer).2.lookup? i name = t.lookup? i name := by
  show (t.scopes.push { outer := outer })[i]?.bind _ = t.scopes[i]?.bind _
  rw [Array.getElem?_push]
  split
  · next hi =>
    rw [hi, Array.getElem?_eq_none (Nat.le_refl _)]
    rfl
  · rfl

/-- Naming an object gives a scope the name if it was free, and changes nothing else. -/
theorem lookup?_insert_eq (t : SymbolTable) (scope : ScopeId) (id : ObjectId) (i : ScopeId)
    (name : String) : (t.insert scope id).2.lookup? i name = (t.lookup? i name).or
      (if i = scope ∧ i < t.scopes.size ∧ t.nameOf? id = some name then some id else none) := by
  unfold insert nameOf?
  cases ho : t.objects[id]? with
  | none => simp
  | some o =>
    dsimp only
    cases hold : t.lookup? scope o.name with
    | some existing =>
      dsimp only
      split
      · next h =>
        obtain ⟨rfl, -, hname⟩ := h
        rw [← Option.some.inj hname, hold]
        rfl
      · rw [Option.or_none]
    | none =>
      unfold lookup? at hold ⊢
      dsimp only
      rw [Array.getElem?_modify]
      by_cases hi : scope = i
      · subst hi
        rw [if_pos rfl]
        cases hs : t.scopes[scope]? with
        | none =>
          have hsize : ¬ scope < t.scopes.size := Nat.not_lt.2 (Array.getElem?_eq_none_iff.1 hs)
          rw [if_neg fun h => hsize h.2.1]
          rfl
        | some s =>
          have hsize : scope < t.scopes.size := (Array.getElem?_eq_some_iff.1 hs).1
          rw [hs] at hold
          show Scope.find? { s with names := (o.name, id) :: s.names } name = (s.find? name).or _
          by_cases hname : o.name = name
          · subst hname
            rw [if_pos ⟨rfl, hsize, rfl⟩]
            have hnone : s.find? o.name = none := hold
            rw [hnone]
            unfold Scope.find?
            rw [List.find?_cons_of_pos (by simp)]
            rfl
          · rw [if_neg fun h => hname (Option.some.inj h.2.2), Option.or_none]
            unfold Scope.find?
            rw [List.find?_cons_of_neg (by simpa using hname)]
      · rw [if_neg hi, if_neg fun h => hi h.1.symm, Option.or_none]

theorem objects_insert (t : SymbolTable) (scope : ScopeId) (id : ObjectId) :
    (t.insert scope id).2.objects = t.objects := by
  unfold insert
  split
  · rfl
  · split <;> rfl

/-- Naming an object answers with what has the name, and then changes nothing. -/
theorem insert_eq {o : Object} {id : ObjectId} (ho : t.objects[id]? = some o) (scope : ScopeId) :
    (t.insert scope id).1 = t.lookup? scope o.name ∧
      ((t.lookup? scope o.name).isSome = true → (t.insert scope id).2 = t) := by
  unfold insert
  rw [ho]
  dsimp only
  cases t.lookup? scope o.name with
  | some existing => exact ⟨rfl, fun _ => rfl⟩
  | none => exact ⟨rfl, fun h => by cases h⟩

/-! ### The first object of a name -/

theorem insertedInto_append (scope : ScopeId) (actions : List SymbolAction) (a : SymbolAction) :
    insertedInto scope (actions ++ [a]) = insertedInto scope actions ++ insertedInto scope [a] :=
  List.filterMap_append

/-- Objects keep their names. -/
theorem nameOf?_act (a : SymbolAction) {id : ObjectId} (hid : id < t.objects.size) :
    (t.act a).nameOf? id = t.nameOf? id := by
  unfold nameOf?
  cases a with
  | newScope outer => rfl
  | newObject o =>
    show (t.objects.push o)[id]?.map _ = _
    rw [Array.getElem?_push_lt hid, Array.getElem?_eq_getElem hid]
  | insert scope id' =>
    show (t.insert scope id').2.objects[id]?.map _ = _
    rw [objects_insert]

theorem size_objects_act (t : SymbolTable) (a : SymbolAction) :
    t.objects.size ≤ (t.act a).objects.size := by
  cases a with
  | newScope outer => exact Nat.le_refl _
  | newObject o =>
    show _ ≤ (t.objects.push o).size
    rw [Array.size_push]
    exact Nat.le_succ _
  | insert scope id =>
    show _ ≤ (t.insert scope id).2.objects.size
    rw [objects_insert]

/-- Only objects of the table were named. -/
theorem After.lt_of_inserted (h : After actions t) {scope : ScopeId} :
    ∀ id ∈ insertedInto scope actions, id < t.objects.size := by
  induction h with
  | empty =>
    intro id hid
    cases hid
  | @act actions t a _ ha ih =>
    intro id hid
    rw [insertedInto_append, List.mem_append] at hid
    refine Nat.lt_of_lt_of_le ?_ (t.size_objects_act a)
    rcases hid with hid | hid
    · exact ih id hid
    · cases a with
      | insert s id' =>
        obtain ⟨b, hb, hid⟩ := List.mem_filterMap.1 hid
        obtain rfl := List.mem_singleton.1 hb
        obtain rfl : id' = id := (Option.ite_none_right_eq_some.1 hid).2 |> Option.some.inj
        exact ha.2
      | _ => cases hid

/-- **The first object of a name keeps it.** -/
theorem After.lookup?_eq (h : After actions t) (i : ScopeId) (name : String) :
    t.lookup? i name = (insertedInto i actions).find? fun id => t.nameOf? id = some name := by
  induction h with
  | empty => rfl
  | @act actions t a h ha ih =>
    -- those that were named before have the names that they had
    have hsame : (insertedInto i actions).find? (fun id => decide ((t.act a).nameOf? id = some name)) =
        t.lookup? i name := by
      rw [ih]
      refine List.find?_congr fun id hid => ?_
      rw [nameOf?_act a (h.lt_of_inserted id hid)]
    rw [insertedInto_append, List.find?_append, hsame]
    cases a with
    | newScope outer => exact (lookup?_newScope_eq t outer i name).trans Option.or_none.symm
    | newObject o => exact Option.or_none.symm
    | insert scope id =>
      have hname : (t.act (.insert scope id)).nameOf? id = t.nameOf? id := nameOf?_act _ ha.2
      refine (lookup?_insert_eq t scope id i name).trans (congrArg _ ?_)
      by_cases hi : scope = i
      · subst hi
        have hone : insertedInto scope [.insert scope id] = [id] := by simp [insertedInto]
        rw [hone]
        by_cases hn : t.nameOf? id = some name
        · rw [if_pos ⟨rfl, ha.1, hn⟩, List.find?_cons_of_pos (by rw [hname, hn]; simp)]
        · rw [if_neg fun h => hn h.2.2, List.find?_cons_of_neg (by rw [hname]; simpa using hn)]
          rfl
      · have hnone : insertedInto i [.insert scope id] = [] := by simp [insertedInto, hi]
        rw [hnone, if_neg fun h => hi h.1.symm]
        rfl

end SymbolTable

/-! ### Tables in good order -/

/-- The scope of the given number has an older outer scope, if any, and names objects by their own
names, no name twice. -/
structure Scope.Proper (objects : Array Object) (i : ScopeId) (s : Scope) : Prop where
  older : ∀ outer ∈ s.outer, outer < i
  named : ∀ e ∈ s.names, objects[e.2]?.map (·.name) = some e.1
  once : (s.names.map (·.1)).Nodup

namespace SymbolTable

variable {t : SymbolTable} {actions : List SymbolAction}

/-- All scopes of the table are in good order. -/
def Proper (t : SymbolTable) : Prop :=
  ∀ (i : ScopeId) (s : Scope), t.scopes[i]? = some s → s.Proper t.objects i

theorem proper_empty : Proper {} := fun _ _ h => by simp at h

theorem Proper.newScope (h : t.Proper) {outer : Option ScopeId} (ha : t.Allows (.newScope outer)) :
    (t.newScope outer).2.Proper := by
  intro i s hs
  have hs : (t.scopes.push { outer := outer })[i]? = some s := hs
  rw [Array.getElem?_push] at hs
  split at hs
  · next hi =>
    obtain rfl := Option.some.inj hs
    refine ⟨fun j hj => ?_, by simp, List.nodup_nil⟩
    obtain rfl : outer = some j := hj
    exact hi ▸ ha
  · exact h i s hs

theorem Proper.newObject (h : t.Proper) (o : Object) : (t.newObject o).2.Proper := by
  intro i s hs
  have hproper := h i s hs
  refine ⟨hproper.older, fun e he => ?_, hproper.once⟩
  obtain ⟨o', ho', hname⟩ := Option.map_eq_some_iff.1 (hproper.named e he)
  have hid : e.2 < t.objects.size := (Array.getElem?_eq_some_iff.1 ho').1
  show (t.objects.push o)[e.2]?.map _ = _
  rw [Array.getElem?_push_lt hid, ← Array.getElem?_eq_getElem hid]
  exact hproper.named e he

/-- A free name is given to an object. -/
theorem Proper.insert (h : t.Proper) (scope : ScopeId) (id : ObjectId) :
    (t.insert scope id).2.Proper := by
  unfold SymbolTable.insert
  cases ho : t.objects[id]? with
  | none => exact h
  | some o =>
    dsimp only
    cases hfree : t.lookup? scope o.name with
    | some existing => exact h
    | none =>
      intro i s hs
      have hs : (t.scopes.modify scope fun s => { s with names := (o.name, id) :: s.names })[i]? =
          some s := hs
      rw [Array.getElem?_modify] at hs
      split at hs
      · next hi =>
        subst hi
        obtain ⟨old, hold, rfl⟩ := Option.map_eq_some_iff.1 hs
        have hproper := h scope old hold
        have hfind : old.find? o.name = none := by
          unfold lookup? at hfree
          rwa [hold] at hfree
        refine ⟨hproper.older, List.forall_mem_cons.2 ⟨?_, hproper.named⟩, ?_⟩
        · show t.objects[id]?.map (·.name) = some o.name
          rw [ho]
          rfl
        · refine List.nodup_cons.2 ⟨fun hmem => ?_, hproper.once⟩
          obtain ⟨e, he, hname⟩ := List.mem_map.1 hmem
          have hnone := List.find?_eq_none.1 (Option.map_eq_none_iff.1 hfind) e he
          exact hnone (decide_eq_true hname)
      · exact h i s hs

/-- Whatever is done, a table stays in good order. -/
theorem Proper.act (h : t.Proper) {a : SymbolAction} (ha : t.Allows a) : (t.act a).Proper := by
  cases a with
  | newScope outer => exact h.newScope ha
  | newObject o => exact h.newObject o
  | insert scope id => exact h.insert scope id

theorem After.proper (h : After actions t) : t.Proper := by
  induction h with
  | empty => exact proper_empty
  | act _ ha ih => exact ih.act ha

/-! ### Searches outwards -/

/-- The scopes that a search from a scope outwards comes by: the scope itself, its outer scope, the
outer scope of that one, and so on up to one that has none. -/
inductive OuterChain (t : SymbolTable) : ScopeId → List ScopeId → Prop
  | outermost {i : ScopeId} {s : Scope} (hs : t.scopes[i]? = some s) (ho : s.outer = none) :
      t.OuterChain i [i]
  | nested {i outer : ScopeId} {s : Scope} {chain : List ScopeId} (hs : t.scopes[i]? = some s)
      (ho : s.outer = some outer) (hrest : t.OuterChain outer chain) : t.OuterChain i (i :: chain)

/-- Every search outwards ends, since it comes to older and older scopes. -/
theorem Proper.exists_outerChain (h : t.Proper) {i : ScopeId} (hi : i < t.scopes.size) :
    ∃ chain, t.OuterChain i chain := by
  induction i using Nat.strongRecOn with
  | ind i ih =>
    have hs : t.scopes[i]? = some t.scopes[i] := Array.getElem?_eq_getElem hi
    cases ho : t.scopes[i].outer with
    | none => exact ⟨[i], .outermost hs ho⟩
    | some outer =>
      have holder : outer < i := (h i _ hs).older outer ho
      obtain ⟨chain, hchain⟩ := ih outer holder (Nat.lt_trans holder hi)
      exact ⟨i :: chain, .nested hs ho hchain⟩

/-- A name is resolved in the first scope that has it. -/
theorem Proper.resolve?_eq (h : t.Proper) {i : ScopeId} {chain : List ScopeId}
    (hchain : t.OuterChain i chain) (name : String) :
    t.resolve? i name = chain.findSome? fun j => t.lookup? j name := by
  induction hchain with
  | @outermost i s hs ho =>
    have hlookup : t.lookup? i name = s.find? name := by rw [lookup?, hs]; rfl
    rw [resolve?, List.findSome?_cons, hlookup, hs]
    dsimp only
    cases s.find? name with
    | some id => rfl
    | none => rw [ho]; rfl
  | @nested i outer s chain hs ho _ ih =>
    have hlookup : t.lookup? i name = s.find? name := by rw [lookup?, hs]; rfl
    have holder : outer < i := (h i s hs).older outer ho
    rw [resolve?, List.findSome?_cons, hlookup, hs, ← ih]
    dsimp only
    cases s.find? name with
    | some id => rfl
    | none =>
      rw [ho]
      exact if_pos holder

/-! ### Listings -/

/-- What a scope names is what is found in it under some name, its own. -/
theorem Proper.mem_objectsIn (h : t.Proper) (i : ScopeId) (id : ObjectId) :
    id ∈ t.objectsIn i ↔ ∃ o, t.objects[id]? = some o ∧ t.lookup? i o.name = some id := by
  unfold objectsIn lookup?
  dsimp only
  rw [List.mem_mergeSort, List.mem_map]
  cases hs : t.scopes[i]? with
  | none => simp
  | some s =>
    have hproper := h i s hs
    show (∃ e ∈ s.names, e.2 = id) ↔ ∃ o : Object, _ ∧ s.find? o.name = some id
    constructor
    · rintro ⟨e, he, rfl⟩
      obtain ⟨o, ho, hname⟩ := Option.map_eq_some_iff.1 (hproper.named e he)
      refine ⟨o, ho, ?_⟩
      -- no other entry has the name
      have hfind : s.names.find? (fun x => decide (x.1 = o.name)) = some e :=
        find?_eq_some_of_unique he (decide_eq_true hname.symm) fun x hx hxname =>
          List.inj_on_of_nodup_map hproper.once hx he ((of_decide_eq_true hxname).trans hname)
      unfold Scope.find?
      rw [hfind]
      rfl
    · rintro ⟨o, -, hfind⟩
      obtain ⟨e, he, rfl⟩ := Option.map_eq_some_iff.1 hfind
      exact ⟨e, List.mem_of_find?_eq_some he, rfl⟩

/-- A listing has every object once, in the order of positions and then of numbers. -/
theorem Proper.objectsIn_ordered (h : t.Proper) (i : ScopeId) : (t.objectsIn i).Pairwise fun a b =>
    t.posOf a < t.posOf b ∨ t.posOf a = t.posOf b ∧ a < b := by
  have hsorted : (t.objectsIn i).Pairwise fun a b => lexLe t.posOf id a b = true :=
    List.pairwise_mergeSort lexLe_trans lexLe_total _
  have hnodup : (t.objectsIn i).Nodup := by
    unfold objectsIn
    refine (List.mergeSort_perm _ _).nodup_iff.2 ?_
    cases hs : t.scopes[i]? with
    | none => exact List.nodup_nil
    | some s =>
      -- two entries for one object would have its name
      have hproper := h i s hs
      refine List.Nodup.map_on (fun e he e' he' heq => ?_) (List.Nodup.of_map _ hproper.once)
      have hname := (hproper.named e he).symm.trans (heq ▸ hproper.named e' he')
      exact Prod.ext (Option.some.inj hname) heq
  refine (hsorted.and hnodup).imp fun {a b} hab => ?_
  rcases lexLe_iff.1 hab.1 with hlt | ⟨heq, hle⟩
  · exact .inl hlt
  · exact .inr ⟨heq, Nat.lt_of_le_of_ne hle hab.2⟩

/-- **Scopes keep the first declaration and resolve innermost.**  Whatever was created and named, in
any order, as long as scopes and objects were there when they were used: a name stands in a scope for
the first object of that name that was to be named there, and naming another one answers with that
object and changes nothing.  The scopes around a scope come to an end, and a name resolves to what it
stands for in the first of them that has it.  A listing has just the objects that the scope has, each
once, in the order of positions and then of numbers. -/
theorem names_after (h : After actions t) :
    (∀ i name, t.lookup? i name =
      (insertedInto i actions).find? fun id => t.nameOf? id = some name) ∧
    (∀ i id o, t.objects[id]? = some o → (t.insert i id).1 = t.lookup? i o.name ∧
      ((t.lookup? i o.name).isSome = true → (t.insert i id).2 = t)) ∧
    (∀ i < t.scopes.size, ∃ chain, t.OuterChain i chain ∧
      ∀ name, t.resolve? i name = chain.findSome? fun j => t.lookup? j name) ∧
    ∀ i, (∀ id, id ∈ t.objectsIn i ↔ ∃ o, t.objects[id]? = some o ∧ t.lookup? i o.name = some id) ∧
      (t.objectsIn i).Pairwise fun a b =>
        t.posOf a < t.posOf b ∨ t.posOf a = t.posOf b ∧ a < b := by
  have hproper := h.proper
  refine ⟨h.lookup?_eq, fun i id o ho => insert_eq ho i, fun i hi => ?_, fun i =>
    ⟨hproper.mem_objectsIn i, hproper.objectsIn_ordered i⟩⟩
  obtain ⟨chain, hchain⟩ := hproper.exists_outerChain hi
  exact ⟨chain, hchain, hproper.resolve?_eq hchain⟩

/-- A scope inside of another one.  Both are to have an `x`, the inner one twice, and only the outer
one has a `y`. -/
def shadowing : List SymbolAction :=
  [.newScope none, .newScope (some 0), .newObject ⟨.bean, "x", .none, 4, none⟩,
    .newObject ⟨.var, "x", .none, 7, none⟩, .newObject ⟨.bean, "y", .none, 2, none⟩,
    .insert 0 0, .insert 1 1, .insert 0 2, .insert 1 0]

/-- The table in which the inner scope shadows the outer one. -/
def shadowed : SymbolTable := shadowing.foldl act {}

theorem after_shadowing : After shadowing shadowed := by
  have hscopes := (After.empty.act (a := .newScope none) (by decide)).act
    (a := .newScope (some 0)) (by decide)
  have hobjects := ((hscopes.act (a := .newObject ⟨.bean, "x", .none, 4, none⟩) (by decide)).act
    (a := .newObject ⟨.var, "x", .none, 7, none⟩) (by decide)).act
    (a := .newObject ⟨.bean, "y", .none, 2, none⟩) (by decide)
  exact (((hobjects.act (a := .insert 0 0) (by decide)).act (a := .insert 1 1) (by decide)).act
    (a := .insert 0 2) (by decide)).act (a := .insert 1 0) (by decide)

theorem outerChain_shadowed : shadowed.OuterChain 1 [1, 0] :=
  .nested (s := ⟨some 0, [("x", 1)]⟩) rfl rfl
    (.outermost (s := ⟨none, [("y", 2), ("x", 0)]⟩) rfl rfl)

/-- The inner scope keeps its own `x`, and takes `y` from around it. -/
theorem names_after_shadowing : After shadowing shadowed ∧
    shadowed.lookup? 1 "x" = some 1 ∧ (shadowed.insert 1 0).1 = some 1 ∧
    shadowed.resolve? 1 "y" = some 2 ∧ 2 ∈ shadowed.objectsIn 0 := by
  obtain ⟨hlookup, hinsert, -, hlisting⟩ := names_after after_shadowing
  have hx : shadowed.lookup? 1 "x" = some 1 := (hlookup 1 "x").trans (by decide)
  have hy : shadowed.lookup? 0 "y" = some 2 := (hlookup 0 "y").trans (by decide)
  have hobject : shadowed.objects[0]? = some ⟨.bean, "x", .none, 4, none⟩ := by decide
  refine ⟨after_shadowing, hx, (hinsert 1 0 _ hobject).1.trans hx, ?_, ?_⟩
  · exact (after_shadowing.proper.resolve?_eq outerChain_shadowed "y").trans (by decide)
  · exact ((hlisting 0).1 2).2 ⟨⟨.bean, "y", .none, 2, none⟩, by decide, hy⟩

end SymbolTable

end Idl
