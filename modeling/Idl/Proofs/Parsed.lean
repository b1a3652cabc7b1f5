/-
Idl/Proofs/Parsed.lean

Parsed files, as linking finds them.

`File.Known` says what linking has to know of a parsed file: what its scope names, what its
references stand for, and which names wait.  It holds of a source that is read alone
(`Source.known`), stays true where the source is placed, and however the symbol table grows; so it
holds of every file of a run (`known_of_seated`).
-/
import Idl.Proofs.Link.Packages
import Idl.Proofs.Placement.Layout
import Idl.Proofs.Sorting
import Idl.Proofs.Trace.Source

namespace Idl

/-- A name and its place. -/
abbrev Spot := String × Pos

/-- The name under which something can be found; the blank name is none. -/
def Spot.key (x : Spot) : Option String := if x.1 = "_" then none else some x.1

/-- The name under which an object can be found. -/
def Object.key (o : Object) : Option String := Spot.key o.spot

theorem Spot.key_eq_some {x : Spot} {name : String} : x.key = some name ↔ x.1 = name ∧ name ≠ "_" := by
  unfold key
  split
  · next h => simp [h]; exact fun h' => h'.symm
  · next h =>
    rw [Option.some.injEq]
    exact ⟨fun h' => ⟨h', h' ▸ h⟩, And.left⟩

theorem Object.key_eq_some {o : Object} {name : String} :
    o.key = some name ↔ o.name = name ∧ name ≠ "_" := Spot.key_eq_some

theorem Object.key_congr {o o' : Object} (h : o.name = o'.name) : o.key = o'.key := by
  unfold key Spot.key spot
  rw [h]

theorem Declaration.key_eq (d : Declaration) : d.key = d.2.key.map (d.1, ·) := by
  unfold Declaration.key Object.key Spot.key
  show (if d.2.name = "_" then _ else _) = Option.map _ (if d.2.name = "_" then _ else _)
  split <;> rfl

/-- What is known of a parsed file in a symbol table.  Its references are `refs`, each one once. -/
structure File.Known (t : SymbolTable) (f : File) (refs : List Ident) : Prop where
  scope : f.scope < t.scopes.size
  valid : LinkState.Valid t f.scope
  entries : (t.entries f.scope).map (·.2) = firsts Object.key [] f.declarations
  lookup : ∀ name, t.lookup? f.scope name =
    ((t.entries f.scope).find? (·.2.name = name)).map (·.1)
  mem_refs : ∀ i, i ∈ refs ↔ i ∈ f.references
  referred : ∀ i ∈ refs, i.isBlank = false → f.resolutions.get? i.id = t.lookup? f.scope i.name
  blank : ∀ i ∈ refs, i.isBlank = true → f.resolutions.get? i.id = none
  free : ∀ q ∈ f.qualifiedNames, ∀ i ∈ q.idents, f.resolutions.get? i.id = none
  unresolved : f.unresolved =
    refs.filter fun i => !i.isBlank && (t.lookup? f.scope i.name).isNone
  qualified : f.qualified = f.qualifiedNames
  numbered : ((f.imports.filterMap ImportSpec.alias? ++
    (refs ++ f.qualifiedNames.flatMap QualifiedRef.idents)).map (·.id)).Nodup
  /-- No two names that may stay unresolved are spelled alike and stand at the same place. -/
  spots : ((refs.filter (fun i => !i.isBlank) ++
    f.qualifiedNames.flatMap QualifiedRef.idents).map Ident.spot).Nodup

/-! ### A source alone -/

theorem map_fst_filter_zipIdx {α : Type} (p : α → Bool) (xs : List α) :
    (xs.zipIdx.filter fun x => p x.1).map (·.1) = xs.filter p := by
  have h : (xs.zipIdx.map Prod.fst).filter p = xs.filter p := by rw [List.zipIdx_map_fst]
  rw [← h, List.filter_map]
  rfl

namespace Source

variable (s : Source)

/-- The declarations of constants and beans that can be found, with the numbers of their objects. -/
def outerEntries : List Entry :=
  ((entered (declarations s.events)).filter fun e => e.1.1 = 0).map fun e => (e.2, e.1.2)

theorem outer_declarations : (declarations s.events).filter (fun d => decide (d.1 = 0)) =
    s.alone.file.declarations.map (0, ·) := by
  have h := filter_declarations_outer s.alone.file.scope s.alone.file.id
    1 (s.reading.scope ▸ Nat.one_pos) 0 s.alone.file.decls
  rwa [← s.events_eq, s.reading.scope] at h

theorem declared_sublist : s.alone.file.declared.Sublist s.account.idents :=
  (declared_sublist_decls ..).trans (List.sublist_cons_self ..)

/-- Constants and beans are declared in the order of their places. -/
theorem declarations_ordered : s.alone.file.declarations.Pairwise fun o o' => o.pos ≤ o'.pos := by
  have h := (s.reading.ordered.sublist s.declared_sublist).imp And.left
  have hspots : (s.alone.file.declared.map Ident.spot).Pairwise fun x y => x.2 ≤ y.2 :=
    List.pairwise_map.2 h
  rw [← s.alone.file.spot_declarations, List.pairwise_map] at hspots
  exact hspots

/-- The declarations of the file, with their numbers among all declarations. -/
def numbered : List (Declaration × ObjectId) :=
  (declarations s.events).zipIdx.filter fun e => e.1.1 = 0

theorem numbered_fst : s.numbered.map (·.1) = s.alone.file.declarations.map (0, ·) :=
  (map_fst_filter_zipIdx (fun d : Declaration => decide (d.1 = 0)) _).trans s.outer_declarations

theorem numbered_ordered : s.numbered.Pairwise fun e e' =>
    e.1.2.pos ≤ e'.1.2.pos ∧ e.2 < e'.2 := by
  refine List.Pairwise.and ?_ ?_
  · have h : (s.alone.file.declarations.map ((0, ·) : Object → Declaration)).Pairwise
        fun d d' => d.2.pos ≤ d'.2.pos := List.pairwise_map.2 s.declarations_ordered
    rw [← s.numbered_fst, List.pairwise_map] at h
    exact h
  · have h : ((declarations s.events).zipIdx.map Prod.snd).Pairwise (· < ·) := by
      rw [List.zipIdx_map_snd]
      exact List.pairwise_lt_range'
    exact (List.pairwise_map.1 h).filter _

/-- The declarations that can be found are the first ones of each name. -/
theorem outerEntries_eq : s.outerEntries =
    (firsts (fun e => Object.key e.1.2) [] s.numbered).map fun e => (e.2, e.1.2) := by
  have hsort (x y : Declaration × ObjectId) (hx : x.1.key ≠ none) (hxy : x.1.key = y.1.key) :
      decide (x.1.1 = 0) = decide (y.1.1 = 0) := by
    cases hk : x.1.key with
    | none => exact absurd hk hx
    | some k =>
      have hx := (Declaration.key_eq_some.1 hk).1
      have hy := (Declaration.key_eq_some.1 (hxy.symm.trans hk)).1
      rw [hx, hy]
  have hkey : firsts (fun e : Declaration × ObjectId => e.1.key) [] s.numbered =
      firsts (fun e => e.1.2.key) [] s.numbered := by
    refine firsts_renamed (f := fun name => ((0 : ScopeId), name)) (fun a b h =>
      (Prod.mk.inj h).2) [] fun e he => ?_
    have hscope : e.1.1 = 0 := of_decide_eq_true (List.mem_filter.1 he).2
    rw [e.1.key_eq, hscope]
  unfold outerEntries entered
  rw [filter_firsts hsort]
  exact congrArg (List.map _) hkey

theorem outerEntries_unique : ∀ x ∈ s.outerEntries, ∀ y ∈ s.outerEntries,
    x.2.name = y.2.name → y = x := by
  rw [outerEntries_eq]
  intro x hx y hy hname
  obtain ⟨a, ha, rfl⟩ := List.mem_map.1 hx
  obtain ⟨b, hb, rfl⟩ := List.mem_map.1 hy
  have hkey : a.1.2.key = b.1.2.key := Object.key_congr hname
  rw [firsts_unique (φ := fun e : Declaration × ObjectId => e.1.2.key) ha hb hkey]

theorem has_outerEntries : s.alone.symbols.Has s.outerEntries := by
  rw [outerEntries_eq]
  intro e he
  obtain ⟨x, hx, rfl⟩ := List.mem_map.1 he
  have hx := (List.mem_filter.1 ((firsts_sublist [] _).subset hx)).1
  rw [s.reading.lists.getElem?_objects, List.mem_zipIdx_iff_getElem?.1 hx]
  rfl

/-- What can be found comes in the order of places, and of numbers. -/
theorem outerEntries_ordered : s.outerEntries.Pairwise fun e e' =>
    e.2.pos ≤ e'.2.pos ∧ e.1 < e'.1 := by
  rw [outerEntries_eq, List.pairwise_map]
  exact s.numbered_ordered.sublist (firsts_sublist [] _)

/-- The scope of the file names what can be found. -/
theorem outer_scope : ∃ scope, s.alone.symbols.scopes[0]? = some scope ∧
    scope.names = (s.outerEntries.map fun e => (e.2.name, e.1)).reverse := by
  have hsize : 0 < s.alone.symbols.scopes.size := by
    rw [s.reading.scopes]
    exact Nat.lt_of_lt_of_le Nat.one_pos (Nat.le_add_right ..)
  refine ⟨_, Array.getElem?_eq_getElem hsize, ?_⟩
  rw [s.reading.lists.names (Array.getElem?_eq_getElem hsize)]
  unfold outerEntries
  rw [List.map_map]
  rfl

theorem objectsIn_outer : s.alone.symbols.objectsIn 0 = s.outerEntries.map (·.1) := by
  obtain ⟨scope, hscope, hnames⟩ := s.outer_scope
  have hpos {e : Entry} (he : e ∈ s.outerEntries) : s.alone.symbols.posOf e.1 = e.2.pos :=
    s.has_outerEntries.posOf he
  have hids : ((s.alone.symbols.scopes[0]?.map (·.names)).getD []).map (·.2) =
      (s.outerEntries.map (·.1)).reverse := by
    rw [hscope]
    show scope.names.map _ = _
    rw [hnames, List.map_reverse, List.map_map]
    rfl
  unfold SymbolTable.objectsIn
  rw [hids]
  refine mergeSort_eq_of_perm (lexLe_trans (f := s.alone.symbols.posOf) (g := id)) lexLe_total
    (List.reverse_perm _) ?_ fun a _ b _ hab hba => (lexLe_antisymm hab hba).2
  refine List.pairwise_map.2 (s.outerEntries_ordered.imp_of_mem fun {e e'} he he' h => ?_)
  rw [lexLe_iff, hpos he, hpos he']
  exact (Nat.lt_or_eq_of_le h.1).imp_right fun heq => ⟨heq, Nat.le_of_lt h.2⟩

theorem entries_outer : s.alone.symbols.entries 0 = s.outerEntries := by
  unfold SymbolTable.entries
  rw [objectsIn_outer, List.filterMap_map]
  have h : ∀ e ∈ s.outerEntries,
      ((fun id => (s.alone.symbols.objects[id]?).map (id, ·)) ∘ fun e : Entry => e.1) e = some e := by
    intro e he
    show (s.alone.symbols.objects[e.1]?).map (e.1, ·) = some e
    rw [s.has_outerEntries e he]
    rfl
  rw [List.filterMap_congr h, List.filterMap_some]

theorem lookup?_outer (name : String) : s.alone.symbols.lookup? 0 name =
    (s.outerEntries.find? (·.2.name = name)).map (·.1) := by
  obtain ⟨scope, hscope, hnames⟩ := s.outer_scope
  exact SymbolTable.lookup?_of_names hscope hnames s.outerEntries_unique name

theorem outerEntries_objects :
    s.outerEntries.map (·.2) = firsts Object.key [] s.alone.file.declarations := by
  have hobjects : s.numbered.map (fun e => e.1.2) = s.alone.file.declarations := by
    have h := congrArg (List.map Prod.snd) s.numbered_fst
    rw [List.map_map, List.map_map] at h
    exact h.trans (List.map_id _)
  rw [outerEntries_eq, ← hobjects, firsts_map, List.map_map]
  rfl

/-! ### Names of a source alone -/

theorem mentioned_nodup : ((s.alone.file.imports.filterMap ImportSpec.alias? ++
    (declaredIn s.events ++ (referredIn s.events ++
      s.alone.file.qualifiedNames.flatMap QualifiedRef.idents))).map (·.id)).Nodup := by
  have haliases : s.alone.file.decls.flatMap Decl.aliases =
      s.alone.file.imports.filterMap ImportSpec.alias? := (List.filterMap_flatMap ..).symm
  have hqualified : qualifiedIn s.events = s.alone.file.qualifiedNames := by
    rw [s.events_eq]
    exact qualifiedIn_decls ..
  have hperm := mentioned_perm s.events
  rw [hqualified] at hperm
  have hsub := s.mentioned_subperm
  rw [haliases] at hsub
  obtain ⟨is, his, hsublist⟩ := ((hperm.symm.append_left _).subperm.trans hsub)
  exact ((his.map (·.id)).nodup_iff).1 (s.reading.numbered.sublist (hsublist.map _))

theorem mem_idents {i : Ident} (hi : i ∈ declaredIn s.events ++ (referredIn s.events ++
    s.alone.file.qualifiedNames.flatMap QualifiedRef.idents)) : i ∈ s.account.idents := by
  have hqualified : qualifiedIn s.events = s.alone.file.qualifiedNames := by
    rw [s.events_eq]
    exact qualifiedIn_decls ..
  refine s.mentioned_subperm.subset (List.mem_append_right _ ((mentioned_perm s.events).mem_iff.2 ?_))
  rwa [hqualified]

/-- A name that is not missing has a place of its own. -/
theorem pos_ne {i j : Ident} (hi : i ∈ s.account.idents) (hj : j ∈ s.account.idents)
    (hid : i.id ≠ j.id) (hb : i.isBlank = false) : i.pos ≠ j.pos := by
  let R (i j : Ident) : Prop := i.pos = j.pos → i = j ∨ i.name = "_"
  have hall : ∀ ⦃i⦄, i ∈ s.account.idents → ∀ ⦃j⦄, j ∈ s.account.idents → R i j := by
    refine List.Pairwise.forall_of_forall_of_flip (fun _ _ _ => .inl rfl)
      (s.reading.ordered.imp fun h heq => .inr (h.2 heq).1.1)
      (s.reading.ordered.imp fun h heq => .inr (h.2 heq.symm).2.1)
  intro heq
  rcases hall hi hj heq with h | hn
  · exact hid (congrArg Ident.id h)
  · exact of_decide_eq_false hb hn

/-- Qualified names stand one behind the other. -/
theorem qualified_ordered : (s.alone.file.qualifiedNames.flatMap QualifiedRef.idents).Pairwise
    fun i j => i.pos < j.pos := by
  have hsub : (s.alone.file.qualifiedNames.flatMap QualifiedRef.idents).Sublist s.account.idents :=
    (qualified_sublist_decls ..).trans (List.sublist_cons_self ..)
  have hordered := s.reading.ordered.sublist hsub
  have hsolid : ∀ q ∈ s.alone.file.qualifiedNames, q.qualifier ∈ s.account.solid := fun q hq =>
    List.mem_append_right _ (qualifier_solid_decls _ _ _ _ _ hq)
  generalize s.alone.file.qualifiedNames = qs at hordered hsolid
  induction qs with
  | nil => exact .nil
  | cons q qs ih =>
    have hq := hsolid q List.mem_cons_self
    have hrest : ∀ q' ∈ qs, q'.qualifier ∈ s.account.solid := fun q' h =>
      hsolid q' (List.mem_cons_of_mem q h)
    rw [List.flatMap_cons] at hordered ⊢
    have hcons : q.idents ++ qs.flatMap QualifiedRef.idents =
        q.qualifier :: q.name :: qs.flatMap QualifiedRef.idents := rfl
    rw [hcons] at hordered ⊢
    obtain ⟨hfirst, hordered⟩ := List.pairwise_cons.1 hordered
    obtain ⟨hsecond, hordered⟩ := List.pairwise_cons.1 hordered
    have ih := ih hordered hrest
    refine List.pairwise_cons.2 ⟨fun j hj => ?_, List.pairwise_cons.2 ⟨fun j hj => ?_, ih⟩⟩
    · exact Nat.lt_of_le_of_ne (hfirst j hj).1 fun heq => ((hfirst j hj).2 heq).1.2 hq
    · -- the next qualifier stands between the two
      cases qs with
      | nil => cases hj
      | cons q' qs =>
        have hq' := hrest q' List.mem_cons_self
        have hmem : q'.qualifier ∈ (q' :: qs).flatMap QualifiedRef.idents := List.mem_cons_self
        have hlt : q.name.pos < q'.qualifier.pos := Nat.lt_of_le_of_ne (hsecond _ hmem).1
          fun heq => ((hsecond _ hmem).2 heq).2.2 hq'
        rcases List.mem_cons.1 hj with rfl | hj
        · exact hlt
        · exact Nat.lt_trans hlt ((List.pairwise_cons.1 ih).1 j hj)

/-- No two names that a source uses, blank ones aside, are one name at one place. -/
theorem used_spots_nodup : (((referredIn s.events).filter (fun i => !i.isBlank) ++
    s.alone.file.qualifiedNames.flatMap QualifiedRef.idents).map Ident.spot).Nodup := by
  have hids := s.mentioned_nodup
  rw [List.map_append, List.map_append, List.map_append, List.nodup_append, List.nodup_append] at hids
  obtain ⟨-, ⟨-, hnames, -⟩, -⟩ := hids
  obtain ⟨hrefs, -, hother⟩ := List.nodup_append.1 hnames
  have hin {i : Ident} (hi : i ∈ referredIn s.events ++
      s.alone.file.qualifiedNames.flatMap QualifiedRef.idents) : i ∈ s.account.idents :=
    s.mem_idents (List.mem_append_right _ hi)
  have hnonblank {i : Ident} (hi : i ∈ (referredIn s.events).filter fun i => !i.isBlank) :
      i ∈ referredIn s.events ∧ i.isBlank = false := by
    simpa using List.mem_filter.1 hi
  rw [List.map_append]
  refine List.nodup_append.2 ⟨?_, ?_, fun x hx y hy => ?_⟩
  · have hsub := (List.pairwise_map.1 hrefs).sublist (List.filter_sublist (p := fun i => !i.isBlank))
    refine List.pairwise_map.2 (hsub.imp_of_mem fun {i j} hi hj hid => ?_)
    obtain ⟨hi, hb⟩ := hnonblank hi
    have hne := s.pos_ne (hin (List.mem_append_left _ hi))
      (hin (List.mem_append_left _ (hnonblank hj).1)) hid hb
    exact fun heq => hne (Prod.mk.inj heq).2
  · refine List.pairwise_map.2 (s.qualified_ordered.imp fun hlt heq => ?_)
    exact Nat.ne_of_lt hlt (Prod.mk.inj heq).2
  · obtain ⟨i, hi, rfl⟩ := List.mem_map.1 hx
    obtain ⟨j, hj, rfl⟩ := List.mem_map.1 hy
    obtain ⟨hi, hb⟩ := hnonblank hi
    have hne := s.pos_ne (hin (List.mem_append_left _ hi)) (hin (List.mem_append_right _ hj))
      (hother i.id (List.mem_map_of_mem hi) j.id (List.mem_map_of_mem hj)) hb
    exact fun heq => hne (Prod.mk.inj heq).2

/-- What is known of a source that is read alone. -/
theorem known : s.alone.file.Known s.alone.symbols (referredIn s.events) := by
  have hids := s.mentioned_nodup
  rw [List.map_append, List.map_append, List.map_append, List.nodup_append, List.nodup_append] at hids
  obtain ⟨haliases, ⟨-, hnames, hdeclared⟩, hapart⟩ := hids
  have hnumbered : ((referredIn s.events ++
      s.alone.file.qualifiedNames.flatMap QualifiedRef.idents).map (·.id)).Nodup := by
    rwa [List.map_append]
  rw [List.nodup_append] at hnames
  obtain ⟨hrefs, -, hother⟩ := hnames
  have hfree {i : Ident} (hi : i ∈ referredIn s.events ++
      s.alone.file.qualifiedNames.flatMap QualifiedRef.idents)
      (hno : ∀ j ∈ referredIn s.events, j.isBlank = false → j.id ≠ i.id) :
      s.alone.file.resolutions.get? i.id = none := by
    refine s.reading.free i.id (fun j hj heq => ?_) hno
    refine hdeclared j.id (List.mem_map_of_mem hj) i.id ?_ heq
    rw [← List.map_append]
    exact List.mem_map_of_mem hi
  refine
    { scope := ?_
      valid := ?_
      entries := ?_
      lookup := fun name => ?_
      mem_refs := fun i => ?_
      referred := fun i hi hb => ?_
      blank := fun i hi hb => hfree (List.mem_append_left _ hi) fun j hj hjb heq => ?_
      free := fun q hq i hi => ?_
      unresolved := ?_
      qualified := s.reading.qualified
      numbered := ?_
      spots := ?_ }
  · rw [s.reading.scope, s.reading.scopes]
    exact Nat.lt_of_lt_of_le Nat.one_pos (Nat.le_add_right ..)
  · unfold LinkState.Valid
    rw [s.reading.scope, entries_outer, objectsIn_outer]
  · rw [s.reading.scope, entries_outer, outerEntries_objects]
  · rw [s.reading.scope, entries_outer, lookup?_outer]
  · rw [s.events_eq]
    exact mem_referredIn_decls ..
  · rw [s.reading.scope]
    exact s.reading.referred i hi hb
  · have hsame : j = i := List.inj_on_of_nodup_map hrefs hj hi heq
    rw [hsame, hb] at hjb
    cases hjb
  · have hmem : i ∈ s.alone.file.qualifiedNames.flatMap QualifiedRef.idents :=
      List.mem_flatMap.2 ⟨q, hq, hi⟩
    exact hfree (List.mem_append_right _ hmem) fun j hj _ heq =>
      hother j.id (List.mem_map_of_mem hj) i.id (List.mem_map_of_mem hmem) heq
  · rw [s.reading.scope]
    exact s.reading.unresolved
  · rw [List.map_append]
    refine List.nodup_append.2 ⟨haliases, hnumbered, fun x hx y hy => hapart x hx y ?_⟩
    rw [List.map_append] at hy
    exact List.mem_append_right _ hy
  · exact s.used_spots_nodup

end Source

/-! ### A file behind others -/

section Placed

variable (ρ : Placement) {t : SymbolTable} {f : File} {refs : List Ident}

theorem SymbolTable.objectsIn_placed (t : SymbolTable) (i : ScopeId) :
    (t.placed ρ).objectsIn (ρ.scope i) = (t.objectsIn i).map ρ.object := by
  have hnames : (((t.placed ρ).scopes[ρ.scope i]?.map (·.names)).getD []).map (·.2) =
      (((t.scopes[i]?.map (·.names)).getD []).map (·.2)).map ρ.object := by
    rw [getElem?_scopes_placed]
    cases t.scopes[i]? with
    | none => rfl
    | some s => simp [Scope.placed, Function.comp_def]
  unfold objectsIn
  rw [hnames, List.map_mergeSort fun a _ b _ => ?_]
  rw [posOf_placed, posOf_placed, decide_eq_decide.2 (ρ.pos_lt_pos), decide_eq_decide.2 (ρ.pos_inj),
    decide_eq_decide.2 (ρ.object_le_object)]

theorem SymbolTable.entries_placed (t : SymbolTable) (i : ScopeId) :
    (t.placed ρ).entries (ρ.scope i) =
      (t.entries i).map fun e => (ρ.object e.1, e.2.placed ρ) := by
  unfold entries
  rw [objectsIn_placed, List.filterMap_map, List.map_filterMap]
  refine List.filterMap_congr fun id _ => ?_
  show ((t.placed ρ).objects[ρ.object id]?).map _ = _
  rw [getElem?_objects_placed]
  cases t.objects[id]? <;> rfl

theorem ImportSpec.alias?_placed (spec : ImportSpec) :
    (spec.placed ρ).alias? = spec.alias?.map (Ident.placed ρ) := by
  unfold alias? placed
  cases spec.localName with
  | none => rfl
  | some i => by_cases h : i.name = "." <;> simp [Option.filter, h]

theorem File.imports_placed (f : File) : (f.placed ρ).imports = f.imports.map (ImportSpec.placed ρ) := by
  have h (d : Decl) : (d.placed ρ).importSpecs = d.importSpecs.map (ImportSpec.placed ρ) := by
    cases d <;> rfl
  simp only [imports, placed, List.flatMap_map, List.map_flatMap, h]

/-- What is known of a file is known of it where it is placed. -/
theorem File.Known.placed (h : f.Known t refs) :
    (f.placed ρ).Known (t.placed ρ) (refs.map (Ident.placed ρ)) := by
  have hentries := t.entries_placed ρ f.scope
  have hlookup (name : String) :
      (t.placed ρ).lookup? (ρ.scope f.scope) name = (t.lookup? f.scope name).map ρ.object :=
    SymbolTable.lookup?_placed ..
  have hget (i : IdentId) :
      (f.placed ρ).resolutions.get? i = (f.resolutions.get? i).map ρ.object :=
    Resolutions.get?_placed ..
  have hidents : (f.qualifiedNames.map (QualifiedRef.placed ρ)).flatMap QualifiedRef.idents =
      (f.qualifiedNames.flatMap QualifiedRef.idents).map (Ident.placed ρ) := by
    rw [List.flatMap_map, List.map_flatMap]
    rfl
  refine
    { scope := ?_
      valid := ?_
      entries := ?_
      lookup := fun name => ?_
      mem_refs := fun i => ?_
      referred := fun i hi hb => ?_
      blank := fun i hi hb => ?_
      free := fun q hq i hi => ?_
      unresolved := ?_
      qualified := ?_
      numbered := ?_
      spots := ?_ }
  · show ρ.scope f.scope < (ρ.before.scopes ++ t.scopes.map (Scope.placed ρ)).size
    rw [Array.size_append, Array.size_map]
    exact Nat.add_lt_add_left h.scope _
  · show ((t.placed ρ).entries (ρ.scope f.scope)).map _ = (t.placed ρ).objectsIn (ρ.scope f.scope)
    rw [hentries, SymbolTable.objectsIn_placed, ← h.valid, List.map_map, List.map_map]
    rfl
  · show ((t.placed ρ).entries (ρ.scope f.scope)).map _ = _
    have hobjects : (t.entries f.scope).map (fun e => e.2.placed ρ) =
        (firsts Object.key [] f.declarations).map (Object.placed ρ) := by
      rw [← h.entries, List.map_map]
      rfl
    rw [hentries, List.map_map, f.declarations_placed, firsts_map]
    exact hobjects
  · show (t.placed ρ).lookup? (ρ.scope f.scope) name =
      (((t.placed ρ).entries (ρ.scope f.scope)).find? _).map _
    rw [hlookup, hentries, h.lookup, List.find?_map, Option.map_map, Option.map_map]
    rfl
  · rw [f.references_placed]
    simp only [List.mem_map, h.mem_refs]
  · obtain ⟨j, hj, rfl⟩ := List.mem_map.1 hi
    show _ = (t.placed ρ).lookup? (ρ.scope f.scope) j.name
    rw [hget, hlookup]
    exact congrArg (Option.map ρ.object) (h.referred j hj hb)
  · obtain ⟨j, hj, rfl⟩ := List.mem_map.1 hi
    rw [hget]
    exact congrArg (Option.map ρ.object) (h.blank j hj hb)
  · rw [f.qualifiedNames_placed] at hq
    obtain ⟨r, hr, rfl⟩ := List.mem_map.1 hq
    obtain ⟨j, hj, rfl⟩ := List.mem_map.1 (show i ∈ r.idents.map (Ident.placed ρ) from hi)
    rw [hget]
    exact congrArg (Option.map ρ.object) (h.free r hr j hj)
  · show f.unresolved.map _ = _
    rw [h.unresolved, List.filter_map]
    congr 1
    refine List.filter_congr fun i _ => ?_
    show _ = (!i.isBlank && ((t.placed ρ).lookup? (ρ.scope f.scope) i.name).isNone)
    rw [hlookup, Option.isNone_map]
  · show f.qualified.map _ = _
    rw [h.qualified, f.qualifiedNames_placed]
  · have hids (is : List Ident) : (is.map (Ident.placed ρ)).map (·.id) = is.map (·.id) := by
      rw [List.map_map]
      rfl
    have haliases : (f.placed ρ).imports.filterMap ImportSpec.alias? =
        (f.imports.filterMap ImportSpec.alias?).map (Ident.placed ρ) := by
      rw [f.imports_placed, List.filterMap_map, List.map_filterMap]
      exact List.filterMap_congr fun x _ => x.alias?_placed ρ
    rw [f.qualifiedNames_placed, haliases, hidents, ← List.map_append, ← List.map_append, hids]
    exact h.numbered
  · have hspots (is : List Ident) : ((is.map (Ident.placed ρ)).map Ident.spot).Nodup ↔
        (is.map Ident.spot).Nodup := by
      simp only [List.Nodup, List.pairwise_map]
      refine List.Pairwise.iff fun i j => not_congr ?_
      simp [Ident.spot, ρ.pos_inj]
    have hfilter : (refs.map (Ident.placed ρ)).filter (fun i => !i.isBlank) =
        (refs.filter fun i => !i.isBlank).map (Ident.placed ρ) := List.filter_map
    rw [f.qualifiedNames_placed, hidents, hfilter, ← List.map_append, hspots]
    exact h.spots

end Placed

/-! ### A table that grows -/

section Within

variable {t t' : SymbolTable} {f : File} {refs : List Ident}

theorem SymbolTable.Within.objectsIn (h : t.Within t') {i : ScopeId} (hi : i < t.scopes.size)
    (hvalid : LinkState.Valid t i) : t'.objectsIn i = t.objectsIn i := by
  have hs := Array.getElem?_eq_getElem hi
  have hpos {o : ObjectId} (ho : o ∈ t.objectsIn i) : t'.posOf o = t.posOf o := by
    rw [← hvalid] at ho
    obtain ⟨e, he, rfl⟩ := List.mem_map.1 ho
    exact h.posOf (Array.getElem?_eq_some_iff.1 (t.has_entries i e he)).1
  have hmem {o : ObjectId} (ho : o ∈ ((t.scopes[i]?.map (·.names)).getD []).map (·.2)) :
      t'.posOf o = t.posOf o := hpos (List.mem_mergeSort.2 ho)
  have hsort := List.map_mergeSort (f := id) (r := lexLe t.posOf id) (s := lexLe t'.posOf id)
    (l := ((t.scopes[i]?.map (·.names)).getD []).map (·.2)) fun a ha b hb => by
      unfold lexLe
      simp only [id_eq, hmem ha, hmem hb]
  rw [List.map_id, List.map_id] at hsort
  unfold SymbolTable.objectsIn
  rw [h.scopes hs, ← hs]
  exact hsort.symm

theorem SymbolTable.Within.entries (h : t.Within t') {i : ScopeId} (hi : i < t.scopes.size)
    (hvalid : LinkState.Valid t i) : t'.entries i = t.entries i := by
  unfold SymbolTable.entries
  rw [h.objectsIn hi hvalid]
  refine List.filterMap_congr fun o ho => ?_
  rw [← hvalid] at ho
  obtain ⟨e, he, rfl⟩ := List.mem_map.1 ho
  rw [t.has_entries i e he, h.objects (t.has_entries i e he)]

/-- What is known of a file stays known while the table grows. -/
theorem File.Known.within (h : f.Known t refs) (hw : t.Within t') : f.Known t' refs := by
  have hentries := hw.entries h.scope h.valid
  have hlookup := hw.lookup? h.scope
  refine
    { scope := Nat.lt_of_lt_of_le h.scope hw.scopes_size
      valid := ?_
      entries := hentries ▸ h.entries
      lookup := fun name => by rw [hlookup, hentries, h.lookup]
      mem_refs := h.mem_refs
      referred := fun i hi hb => by rw [hlookup, h.referred i hi hb]
      blank := h.blank
      free := h.free
      unresolved := by simp only [hlookup, h.unresolved]
      qualified := h.qualified
      numbered := h.numbered
      spots := h.spots }
  unfold LinkState.Valid
  rw [hentries, hw.objectsIn h.scope h.valid]
  exact h.valid

end Within

/-! ### All files of a run -/

/-- What is known of every file that is parsed. -/
theorem known_of_seated {sources : List Source} {s : Source} {ρ : Placement}
    (h : (s, ρ) ∈ seated (Board.empty.layout sources)) :
    (s.alone.file.placed ρ).Known (parseSources sources).symbols
      ((referredIn s.events).map (Ident.placed ρ)) := by
  rw [parseSources_eq]
  exact (s.known.placed ρ).within (Board.seats_after sources h).symbols

theorem mem_parsed {sources : List Source} {f : File} (h : f ∈ (parseSources sources).parsed) :
    ∃ s ρ, (s, ρ) ∈ seated (Board.empty.layout sources) ∧ f = s.alone.file.placed ρ := by
  rw [parseSources_eq] at h
  obtain ⟨x, hx, rfl⟩ := List.mem_map.1 h
  exact ⟨x.1, x.2, hx, rfl⟩

/-- What is parsed can be linked. -/
theorem parseSources_linkable (sources : List Source) :
    Linkable (parseSources sources).symbols (parseSources sources).parsed where
  scope f hf := by
    obtain ⟨s, ρ, h, rfl⟩ := mem_parsed hf
    exact (known_of_seated h).scope
  valid f hf := by
    obtain ⟨s, ρ, h, rfl⟩ := mem_parsed hf
    exact (known_of_seated h).valid

end Idl
