/-
Idl/Proofs/Objects.lean

Declarations and objects point at each other.

Nothing in a tree points at an object: an identifier that declares something stands for an object by
its number, and the object says by indices where it is declared.  Both ways agree.  The object of a
declaring identifier has its name and place, its indices lead back to the node with the identifier
(`File.declarer_of_declares`), and what linking adds disturbs neither (`File.Bound.linked`).  Nothing
stands for an object that is not there either: scopes name objects of the table
(`SymbolTable.Closed`), a property that each step of parsing and linking keeps.

Main result: `declarations_bound`.
-/
import Idl.Proofs.Identifiers
import Idl.Proofs.Isolation
import Idl.Proofs.Resolution

namespace Idl

/-! ### Declaring identifiers and their nodes -/

/-- The identifiers that a declaration declares. -/
def Decl.declaring : Decl → List Ident
  | .consts g => g.specs.map (·.name)
  | .bean b => b.name :: b.declared
  | _ => []

/-- The identifiers of a file that declare something. -/
def File.declaring (f : File) : List Ident := f.decls.flatMap Decl.declaring

/-- A node that declares names. -/
inductive Declarer where
  | const (s : ConstSpec)
  | bean (b : Bean)
  | member (kind : BeanKind) (m : Member)

namespace Declarer

/-- The names that a node declares. -/
def names : Declarer → List Ident
  | .const s => [s.name]
  | .bean b => [b.name]
  | .member _ m => m.names

/-- The sort of thing that a node declares. -/
def kind : Declarer → ObjectKind
  | .const _ => .const
  | .bean _ => .bean
  | .member kind _ => kind.memberKind

/-- Whether the place of the node in its group counts: that of a constant, or of a member of an
enumeration. -/
def isCounted : Declarer → Bool
  | .const _ => true
  | .bean _ => false
  | .member kind _ => kind = .enum

end Declarer

/-- The index in the group or the bean. -/
def Origin.index? : Origin → Option Nat
  | .spec _ _ i => some i
  | .field _ _ i => some i
  | _ => Option.none

/-- The node of a file that the indices of an origin lead to. -/
def File.declarer? (f : File) : Origin → Option Declarer
  | .decl file d =>
    match f.decls[d]? with
    | some (.bean b) => if file = f.id then some (.bean b) else none
    | _ => none
  | .spec file d i =>
    match f.decls[d]? with
    | some (.consts g) => if file = f.id then g.specs[i]?.map .const else none
    | _ => none
  | .field file d i =>
    match f.decls[d]? with
    | some (.bean b) => if file = f.id then b.body.members[i]?.map (.member b.kind) else none
    | _ => none
  | _ => none

/-- The identifier stands for an object of its name and place, whose indices lead to a node that
declares the identifier. -/
def File.PointsBack (t : SymbolTable) (f : File) (i : Ident) : Prop :=
  ∃ id o node, f.resolutions.get? i.id = some id ∧ t.objects[id]? = some o ∧
    o.name = i.name ∧ o.pos = i.pos ∧
    f.declarer? o.origin = some node ∧ i ∈ node.names ∧ o.kind = node.kind ∧
    o.data = if node.isCounted then o.origin.index?.map Int.ofNat else none

/-! ### What a tree declares -/

/-- The identifiers that the declaration at an index declares, with the objects they stand for. -/
def Decl.declares (file : FileId) (d : Decl) (index : Nat) : List (Ident × Object) :=
  match d with
  | .consts g => g.specs.zipIdx.map fun s => (s.1.name, s.1.object file index s.2)
  | .bean b =>
    (b.name, b.object file index) :: b.body.members.zipIdx.flatMap fun m =>
      m.1.names.map fun i => (i, b.kind.memberObject file index m.2 i)
  | _ => []

/-- The identifiers that a file declares, with the objects they stand for. -/
def File.declares (f : File) : List (Ident × Object) :=
  f.decls.zipIdx.flatMap fun d => d.1.declares f.id d.2

/-- The indices of an object that is declared lead to the node that declares it. -/
theorem File.declarer_of_declares {f : File} {x : Ident × Object} (h : x ∈ f.declares) :
    x.2.name = x.1.name ∧ x.2.pos = x.1.pos ∧
      ∃ node, f.declarer? x.2.origin = some node ∧ x.1 ∈ node.names ∧ x.2.kind = node.kind ∧
        x.2.data = if node.isCounted then x.2.origin.index?.map Int.ofNat else none := by
  obtain ⟨⟨d, k⟩, hd, h⟩ := List.mem_flatMap.1 h
  have hd : f.decls[k]? = some d := List.mem_zipIdx_iff_getElem?.1 hd
  cases d with
  | consts g =>
    obtain ⟨⟨s, j⟩, hs, rfl⟩ := List.mem_map.1 h
    have hs : g.specs[j]? = some s := List.mem_zipIdx_iff_getElem?.1 hs
    refine ⟨rfl, rfl, .const s, ?_, List.mem_cons_self, rfl, rfl⟩
    simp only [ConstSpec.object, declarer?, hd, if_true, hs, Option.map_some]
  | bean b =>
    rcases List.mem_cons.1 h with rfl | h
    · refine ⟨rfl, rfl, .bean b, ?_, List.mem_cons_self, rfl, rfl⟩
      simp only [Bean.object, declarer?, hd, if_true]
    · obtain ⟨⟨m, j⟩, hm, h⟩ := List.mem_flatMap.1 h
      obtain ⟨i, hi, rfl⟩ := List.mem_map.1 h
      have hm : b.body.members[j]? = some m := List.mem_zipIdx_iff_getElem?.1 hm
      refine ⟨rfl, rfl, .member b.kind m, ?_, hi, rfl, ?_⟩
      · simp only [BeanKind.memberObject, declarer?, hd, if_true, hm, Option.map_some]
      · simp [BeanKind.memberObject, Declarer.isCounted, Origin.index?]
  | _ => cases h

/-- Whatever a file declares, it declares as an object. -/
theorem File.exists_declares {f : File} {i : Ident} (h : i ∈ f.declaring) :
    ∃ o, (i, o) ∈ f.declares := by
  obtain ⟨d, hd, h⟩ := List.mem_flatMap.1 h
  obtain ⟨k, hk⟩ := List.mem_iff_getElem?.1 hd
  have hdecl {o : Object} (ho : (i, o) ∈ d.declares f.id k) : (i, o) ∈ f.declares :=
    List.mem_flatMap.2 ⟨(d, k), List.mem_zipIdx_iff_getElem?.2 hk, ho⟩
  cases d with
  | consts g =>
    obtain ⟨s, hs, rfl⟩ := List.mem_map.1 h
    obtain ⟨j, hj⟩ := List.mem_iff_getElem?.1 hs
    exact ⟨_, hdecl (List.mem_map.2 ⟨(s, j), List.mem_zipIdx_iff_getElem?.2 hj, rfl⟩)⟩
  | bean b =>
    rcases List.mem_cons.1 h with rfl | h
    · exact ⟨_, hdecl List.mem_cons_self⟩
    · obtain ⟨m, hm, hi⟩ := List.mem_flatMap.1 h
      obtain ⟨j, hj⟩ := List.mem_iff_getElem?.1 hm
      refine ⟨b.kind.memberObject f.id k j i, hdecl (List.mem_cons_of_mem _ ?_)⟩
      refine List.mem_flatMap.2 ⟨(m, j), List.mem_zipIdx_iff_getElem?.2 hj, ?_⟩
      exact List.mem_map.2 ⟨i, hi, rfl⟩
  | _ => cases h

theorem Decl.declares_placed (ρ : Placement) (file : FileId) (d : Decl) (index : Nat) :
    (d.placed ρ).declares ρ.fileId index =
      (d.declares file index).map fun x => (x.1.placed ρ, x.2.placed ρ) := by
  cases d with
  | consts g =>
    simp only [placed, SpecGroup.placed, declares, List.zipIdx_map, List.map_map]
    rfl
  | bean b =>
    simp only [placed, Bean.placed, MemberList.placed, declares, List.zipIdx_map, List.flatMap_map,
      List.map_cons, List.map_flatMap]
    refine congrArg (_ :: ·) (List.flatMap_congr fun m _ => ?_)
    show (m.1.names.map (Ident.placed ρ)).map _ = _
    rw [List.map_map, List.map_map]
    rfl
  | _ => rfl

theorem File.declares_placed (ρ : Placement) (f : File) :
    (f.placed ρ).declares = f.declares.map fun x => (x.1.placed ρ, x.2.placed ρ) := by
  simp only [declares, placed, List.zipIdx_map, List.flatMap_map, List.map_flatMap]
  refine List.flatMap_congr fun d _ => ?_
  exact Decl.declares_placed ρ f.id d.1 d.2

/-! ### What events declare -/

/-- What an event declares: an identifier, with the object it stands for. -/
def NameEvent.declares? : NameEvent → Option (Ident × Object)
  | .declare _ kind origin data i => some (i, ⟨kind, i.name, origin, i.pos, data⟩)
  | _ => none

/-- What events declare, in order. -/
def declaresIn (es : List NameEvent) : List (Ident × Object) := es.filterMap NameEvent.declares?

theorem declaresIn_append (es es' : List NameEvent) :
    declaresIn (es ++ es') = declaresIn es ++ declaresIn es' := List.filterMap_append

theorem map_fst_declaresIn (es : List NameEvent) : (declaresIn es).map (·.1) = declaredIn es := by
  unfold declaresIn declaredIn
  rw [List.map_filterMap]
  refine List.filterMap_congr fun e _ => ?_
  cases e <;> rfl

theorem map_snd_declaresIn (es : List NameEvent) :
    (declaresIn es).map (·.2) = (declarations es).map (·.2) := by
  unfold declaresIn declarations
  rw [List.map_filterMap, List.map_filterMap]
  refine List.filterMap_congr fun e _ => ?_
  cases e <;> rfl

theorem mem_declaresIn_members {kind : BeanKind} {scope : ScopeId} {file : FileId} {decl k : Nat}
    {ms : List Member} {m : Member} {j : Nat} (hm : (m, j) ∈ ms.zipIdx k) {i : Ident}
    (hi : i ∈ m.names) : (i, kind.memberObject file decl j i) ∈
      declaresIn (membersAccount kind scope file decl k ms).events := by
  induction ms generalizing k with
  | nil => cases hm
  | cons x ms ih =>
    rw [membersAccount_cons_events, declaresIn_append, List.mem_append]
    rcases List.mem_cons.1 hm with h | hm
    · obtain ⟨rfl, rfl⟩ := Prod.mk.inj h
      refine .inl (List.mem_filterMap.2 ⟨_, List.mem_append_left _ (List.mem_map_of_mem hi), ?_⟩)
      rfl
    · exact .inr (ih hm)

theorem mem_declaresIn_consts {outer : ScopeId} {file : FileId} {decl k : Nat}
    {previous : Option Value} {first : Option Pos} {ss : List ConstSpec} {s : ConstSpec} {j : Nat}
    (hs : (s, j) ∈ ss.zipIdx k) : (s.name, s.object file decl j) ∈
      declaresIn (constsAccount outer file decl k previous first ss).events := by
  induction ss generalizing k previous first with
  | nil => cases hs
  | cons x ss ih =>
    rw [constsAccount_cons_events, declaresIn_append, List.mem_append]
    rcases List.mem_cons.1 hs with h | hs
    · obtain ⟨rfl, rfl⟩ := Prod.mk.inj h
      exact .inr (List.mem_filterMap.2 ⟨_, List.mem_cons_self, rfl⟩)
    · obtain ⟨e, he, h⟩ := List.mem_filterMap.1 (ih hs)
      exact .inr (List.mem_filterMap.2 ⟨e, List.mem_cons_of_mem _ he, h⟩)

/-- Whatever a declaration declares, is declared while it is parsed. -/
theorem Decl.mem_declaresIn {d : Decl} {file : FileId} {index : Nat} {x : Ident × Object}
    (h : x ∈ d.declares file index) (outer scope : ScopeId) :
    x ∈ declaresIn (d.account outer scope file index).events := by
  cases d with
  | consts g =>
    obtain ⟨⟨s, j⟩, hs, rfl⟩ := List.mem_map.1 h
    exact mem_declaresIn_consts hs
  | bean b =>
    rw [account, Bean.events_account]
    show x ∈ declaresIn (_ ++ [_])
    rw [declaresIn_append, List.mem_append]
    rcases List.mem_cons.1 h with rfl | h
    · exact .inr List.mem_cons_self
    · obtain ⟨⟨m, j⟩, hm, h⟩ := List.mem_flatMap.1 h
      obtain ⟨i, hi, rfl⟩ := List.mem_map.1 h
      exact .inl (mem_declaresIn_members hm hi)
  | _ => cases h

theorem mem_declaresIn_decls {outer scope : ScopeId} {file : FileId} {k : Nat} {ds : List Decl}
    {d : Decl} {j : Nat} (hd : (d, j) ∈ ds.zipIdx k) {x : Ident × Object}
    (h : x ∈ d.declares file j) : x ∈ declaresIn (declsAccount outer scope file k ds).events := by
  induction ds generalizing scope k with
  | nil => cases hd
  | cons y ds ih =>
    rw [declsAccount, Account.events_append, declaresIn_append, List.mem_append]
    rcases List.mem_cons.1 hd with heq | hd
    · obtain ⟨rfl, rfl⟩ := Prod.mk.inj heq
      exact .inl (d.mem_declaresIn h ..)
    · exact .inr (ih hd)

/-! ### Tables that name nothing that is not there -/

/-- Every scope names objects of the table. -/
def SymbolTable.Closed (t : SymbolTable) : Prop :=
  ∀ (i : ScopeId) (s : Scope), t.scopes[i]? = some s → ∀ e ∈ s.names, e.2 < t.objects.size

namespace SymbolTable.Closed

variable {t : SymbolTable}

theorem empty : SymbolTable.Closed {} := fun _ _ h => by simp at h

/-- Whatever is looked up is there. -/
theorem lookup? (h : t.Closed) {i : ScopeId} {name : String} {o : ObjectId}
    (ho : t.lookup? i name = some o) : o < t.objects.size := by
  obtain ⟨s, hs, ho⟩ := Option.bind_eq_some_iff.1 ho
  obtain ⟨e, he, rfl⟩ := Option.map_eq_some_iff.1 ho
  exact h i s hs e (List.mem_of_find?_eq_some he)

theorem newScope (h : t.Closed) (outer : Option ScopeId) : (t.newScope outer).2.Closed := by
  intro i s hs e he
  have hs : (t.scopes.push { outer := outer })[i]? = some s := hs
  rw [Array.getElem?_push] at hs
  split at hs
  · rw [← Option.some.inj hs] at he
    cases he
  · exact h i s hs e he

theorem newObject (h : t.Closed) (o : Object) : (t.newObject o).2.Closed := by
  intro i s hs e he
  show e.2 < (t.objects.push o).size
  rw [Array.size_push]
  exact Nat.lt_succ_of_lt (h i s hs e he)

/-- Only objects of the table can be named. -/
theorem insert (h : t.Closed) (scope : ScopeId) (id : ObjectId) : (t.insert scope id).2.Closed := by
  unfold SymbolTable.insert
  split
  · exact h
  · next o ho =>
    split
    · exact h
    · intro i s hs e he
      have hid : id < t.objects.size := (Array.getElem?_eq_some_iff.1 ho).1
      have hs : (t.scopes.modify scope fun s => { s with names := (o.name, id) :: s.names })[i]? =
          some s := hs
      rw [Array.getElem?_modify] at hs
      split at hs
      · obtain ⟨s', hs', rfl⟩ := Option.map_eq_some_iff.1 hs
        rcases List.mem_cons.1 he with rfl | he
        · exact hid
        · exact h i s' hs' e he
      · exact h i s hs e he

/-- A placed table names objects of its own, behind those that are there. -/
theorem placed (h : t.Closed) {ρ : Placement} (hbefore : ρ.before.Closed) :
    (t.placed ρ).Closed := by
  intro i s hs e he
  have hsize : (t.placed ρ).objects.size = ρ.before.objects.size + t.objects.size := by
    unfold SymbolTable.placed
    rw [Array.size_append, Array.size_map]
  rw [hsize]
  have hs : (ρ.before.scopes ++ t.scopes.map (Scope.placed ρ))[i]? = some s := hs
  rw [Array.getElem?_append] at hs
  split at hs
  · exact Nat.lt_add_right _ (hbefore i s hs e he)
  · rw [Array.getElem?_map] at hs
    obtain ⟨s', hs', rfl⟩ := Option.map_eq_some_iff.1 hs
    obtain ⟨e', he', rfl⟩ := List.mem_map.1 he
    exact Nat.add_lt_add_left (h _ s' hs' e' he') _

end SymbolTable.Closed

/-- A table of declarations names objects of declarations. -/
theorem SymbolTable.Lists.closed {t : SymbolTable} {ds : List Declaration} (h : t.Lists ds) :
    t.Closed := by
  intro i s hs e he
  rw [h.names hs, List.mem_reverse] at he
  obtain ⟨x, hx, rfl⟩ := List.mem_map.1 he
  have hx := (firsts_sublist [] _).subset (List.mem_filter.1 hx).1
  rw [h.objects_size]
  exact (List.getElem?_eq_some_iff.1 (List.mem_zipIdx_iff_getElem?.1 hx)).1

/-! ### Linking keeps tables closed -/

/-- From a state with a closed table, the step leads to one with a closed table. -/
def Link.KeepsClosed {α : Type} (m : Link α) : Prop :=
  ∀ s : LinkState, s.symbols.Closed → (m s).2.symbols.Closed

namespace Link.KeepsClosed

variable {α β : Type}

protected theorem pure (a : α) : KeepsClosed (pure a : Link α) := fun _ h => h

protected theorem bind {m : Link α} {f : α → Link β} (hm : KeepsClosed m)
    (hf : ∀ a, KeepsClosed (f a)) : KeepsClosed (m >>= f) :=
  fun s h => hf (m s).1 (m s).2 (hm s h)

protected theorem report (message : String) (span : Span) :
    KeepsClosed (Link.report message span) :=
  fun _ h => h

protected theorem forM {step : α → Link Unit} (h : ∀ x, KeepsClosed (step x)) (xs : List α) :
    KeepsClosed (xs.forM step) := by
  intro s hs
  rw [Link.forM_eq]
  induction xs generalizing s with
  | nil => exact hs
  | cons x xs ih => exact ih (step x s).2 (h x s hs)

protected theorem foldlM {step : β → α → Link β} (h : ∀ b x, KeepsClosed (step b x)) (b : β)
    (xs : List α) : KeepsClosed (xs.foldlM step b) := by
  intro s hs
  rw [Link.foldlM_eq]
  induction xs generalizing b s with
  | nil => exact hs
  | cons x xs ih => exact ih (step b x s).1 (step b x s).2 (h b x s hs)

end Link.KeepsClosed

theorem mergeObject_keepsClosed (files : FileSet) (scope : ScopeId) (id : ObjectId) :
    Link.KeepsClosed (mergeObject files scope id) := by
  intro s hs
  have h := hs.insert scope id
  unfold mergeObject
  simp only [bind, StateT.bind, get, getThe, MonadStateOf.get, StateT.get, pure]
  generalize s.symbols.insert scope id = r at h ⊢
  obtain ⟨existing, t⟩ := r
  cases existing with
  | none => exact h
  | some o => cases t.objects[id]? <;> exact h

theorem importedObject_keepsClosed (imports : NameMap ObjectId) (id : String) (pos : Pos) :
    Link.KeepsClosed (importedObject imports id pos) := by
  unfold importedObject
  split
  · exact .pure _
  · exact fun s hs => hs.newObject _

theorem bindImport_keepsClosed (scopes : NameMap ScopeId) (b : BindState) (spec : ImportSpec) :
    Link.KeepsClosed (bindImport scopes b spec) := by
  unfold bindImport
  split
  · exact .pure _
  · split
    · exact .bind (.report _ _) fun _ => .pure _
    · refine .bind (importedObject_keepsClosed _ _ _) fun x => ?_
      dsimp only
      split
      · exact .pure _
      · split
        · exact .pure _
        · split
          · exact .pure _
          · exact .pure _

theorem linkFile_keepsClosed (scopes : NameMap ScopeId) (p : Package) (f : File) :
    Link.KeepsClosed (linkFile scopes p f) := by
  unfold linkFile
  refine .bind (.foldlM (bindImport_keepsClosed scopes) _ _) fun b => ?_
  refine .bind (fun _ h => h) fun s => ?_
  dsimp only
  split
  · exact .bind (.report _ _) fun _ => .pure _
  · exact .pure _

theorem linkPackages_keepsClosed (groups : NameMap PackageFiles) (files : FileSet) :
    Link.KeepsClosed (linkPackages groups files) := by
  unfold linkPackages
  refine .bind (.forM (fun g => .forM (fun f => ?_) _) _) fun _ => ?_
  · exact .bind (fun _ h => h) fun s => .forM (mergeObject_keepsClosed files g.scope) _
  · refine .foldlM (fun packages g => ?_) _ _
    exact .bind (.foldlM (linkFile_keepsClosed _) _ _) fun _ => .pure _

theorem groupFiles_closed {t : SymbolTable} (h : t.Closed) (fs : List File) :
    (groupFiles fs t).2.Closed := by
  unfold groupFiles
  generalize NameMap.empty = groups
  induction fs generalizing groups t with
  | nil => exact h
  | cons f fs ih =>
    rw [List.foldl_cons]
    dsimp only
    cases groups.find? f.name.name with
    | some g => exact ih h _
    | none => exact ih (h.newScope none) _

/-- Linking keeps a table closed. -/
theorem link_closed {t : SymbolTable} (h : t.Closed) (fs : List File) (files : FileSet) :
    (link fs t files).symbols.Closed := by
  have hgroups := groupFiles_closed h fs
  unfold link
  generalize groupFiles fs t = r at hgroups
  exact linkPackages_keepsClosed r.1 files ⟨r.2, #[]⟩ hgroups

/-! ### Files that are bound -/

/-- The identifiers that linking asks about: the local names of imports, the names that wait, and both
parts of qualified names. -/
def File.asked (f : File) : List Ident :=
  f.imports.filterMap ImportSpec.alias? ++ (f.unresolved ++ f.qualified.flatMap QualifiedRef.idents)

theorem File.asked_placed (ρ : Placement) (f : File) :
    (f.placed ρ).asked = f.asked.map (Ident.placed ρ) := by
  have halias : ImportSpec.alias? ∘ ImportSpec.placed ρ =
      fun spec => spec.alias?.map (Ident.placed ρ) := by
    funext spec
    exact spec.alias?_placed ρ
  unfold asked
  rw [f.imports_placed, List.filterMap_map, halias, List.map_append, List.map_append,
    List.map_filterMap, List.map_flatMap]
  show _ ++ (f.unresolved.map _ ++ (f.qualified.map _).flatMap _) = _
  rw [List.flatMap_map]
  rfl

/-- What the identifiers of a file stand for, when its objects are in the table. -/
structure File.Bound (t : SymbolTable) (f : File) : Prop where
  /-- A declaring identifier stands for what it declares. -/
  declares : ∀ x ∈ f.declares, ∃ id, f.resolutions.get? x.1.id = some id ∧
    t.objects[id]? = some x.2
  /-- Whatever an identifier stands for is there. -/
  valid : ∀ {i : IdentId} {id : ObjectId}, f.resolutions.get? i = some id → id < t.objects.size
  unique : ∀ i ∈ f.identifiers, ∀ j ∈ f.identifiers, i.id = j.id → i = j
  /-- Linking does not ask what a declaring identifier stands for. -/
  apart : ∀ x ∈ f.declares, ∀ j ∈ f.asked, j.id ≠ x.1.id

/-- What a source declares, as it is read alone. -/
theorem Source.mem_declaresIn (s : Source) {x : Ident × Object} (h : x ∈ s.alone.file.declares) :
    ∃ k : ObjectId, (declaresIn s.events)[k]? = some x := by
  obtain ⟨⟨d, j⟩, hd, h⟩ := List.mem_flatMap.1 h
  rw [s.events_eq]
  exact List.mem_iff_getElem?.1 (mem_declaresIn_decls hd h)

/-- A source that is read alone is bound. -/
theorem Source.bound (s : Source) : s.alone.file.Bound s.alone.symbols where
  declares x hx := by
    obtain ⟨k, hk⟩ := s.mem_declaresIn hx
    refine ⟨k, s.reading.bound ?_, ?_⟩
    · rw [← map_fst_declaresIn, List.getElem?_map, hk]
      rfl
    · rw [s.reading.lists.getElem?_objects, ← List.getElem?_map, ← map_snd_declaresIn,
        List.getElem?_map, hk]
      rfl
  valid {i id} hi := by
    by_cases hdeclared : ∀ j ∈ declaredIn s.events, j.id ≠ i
    · by_cases hreferred : ∀ j ∈ referredIn s.events, j.isBlank = false → j.id ≠ i
      · rw [s.reading.free i hdeclared hreferred] at hi
        cases hi
      · push Not at hreferred
        obtain ⟨j, hj, hb, rfl⟩ := hreferred
        rw [s.reading.referred j hj hb] at hi
        exact s.reading.lists.closed.lookup? hi
    · push Not at hdeclared
      obtain ⟨j, hj, rfl⟩ := hdeclared
      obtain ⟨k, hk⟩ := List.mem_iff_getElem?.1 hj
      rw [s.reading.bound hk] at hi
      obtain rfl := Option.some.inj hi
      rw [s.reading.lists.objects_size, ← Names.Records.length_declaredIn]
      exact (List.getElem?_eq_some_iff.1 hk).1
  unique i hi j hj := s.identifiers_unique hi hj
  apart x hx j hj heq := by
    obtain ⟨k, hk⟩ := s.mem_declaresIn hx
    have hdeclared : x.1 ∈ declaredIn s.events := by
      rw [← map_fst_declaresIn]
      exact List.mem_map_of_mem (List.mem_of_getElem? hk)
    have hids := s.mentioned_nodup
    rw [List.map_append, List.map_append, List.nodup_append, List.nodup_append] at hids
    obtain ⟨-, ⟨-, -, hother⟩, haliases⟩ := hids
    rcases List.mem_append.1 hj with hj | hj
    · exact haliases j.id (List.mem_map_of_mem hj) x.1.id
        (List.mem_append_left _ (List.mem_map_of_mem hdeclared)) heq
    · refine hother x.1.id (List.mem_map_of_mem hdeclared) j.id (List.mem_map_of_mem ?_) heq.symm
      rw [← s.reading.qualified]
      refine List.mem_append.2 ((List.mem_append.1 hj).imp_left fun hj => ?_)
      rw [s.reading.unresolved] at hj
      exact (List.mem_filter.1 hj).1

namespace File.Bound

variable {t t' : SymbolTable} {f : File}

/-- A placed file is bound in a placed table. -/
theorem placed (h : f.Bound t) (ρ : Placement) : (f.placed ρ).Bound (t.placed ρ) where
  declares x hx := by
    rw [f.declares_placed] at hx
    obtain ⟨y, hy, rfl⟩ := List.mem_map.1 hx
    obtain ⟨id, hid, ho⟩ := h.declares y hy
    refine ⟨ρ.object id, ?_, ?_⟩
    · show (f.resolutions.placed ρ).get? y.1.id = _
      rw [Resolutions.get?_placed, hid]
      rfl
    · rw [SymbolTable.getElem?_objects_placed, ho]
      rfl
  valid {i id} hi := by
    have hi : (f.resolutions.placed ρ).get? i = some id := hi
    rw [Resolutions.get?_placed] at hi
    obtain ⟨o, ho, rfl⟩ := Option.map_eq_some_iff.1 hi
    show _ < (ρ.before.objects ++ t.objects.map (Object.placed ρ)).size
    rw [Array.size_append, Array.size_map]
    exact Nat.add_lt_add_left (h.valid ho) _
  unique i hi j hj heq := by
    rw [f.identifiers_placed] at hi hj
    obtain ⟨a, ha, rfl⟩ := List.mem_map.1 hi
    obtain ⟨b, hb, rfl⟩ := List.mem_map.1 hj
    rw [h.unique a ha b hb heq]
  apart x hx j hj := by
    rw [f.declares_placed] at hx
    obtain ⟨y, hy, rfl⟩ := List.mem_map.1 hx
    rw [f.asked_placed] at hj
    obtain ⟨a, ha, rfl⟩ := List.mem_map.1 hj
    exact h.apart y hy a ha

/-- A bound file stays bound when the table grows. -/
theorem within (h : f.Bound t) (hw : t.Within t') : f.Bound t' where
  declares x hx := by
    obtain ⟨id, hid, ho⟩ := h.declares x hx
    exact ⟨id, hid, hw.objects ho⟩
  valid hi := by
    have ho := hw.objects (Array.getElem?_eq_getElem (h.valid hi))
    exact (Array.getElem?_eq_some_iff.1 ho).1
  unique := h.unique
  apart := h.apart

/-- In a bound file, declarations and objects point at each other. -/
theorem pointsBack (h : f.Bound t) {i : Ident} (hi : i ∈ f.declaring) : f.PointsBack t i := by
  obtain ⟨o, ho⟩ := File.exists_declares hi
  obtain ⟨id, hid, hobject⟩ := h.declares _ ho
  obtain ⟨hname, hpos, node, hnode⟩ := File.declarer_of_declares ho
  exact ⟨id, o, node, hid, hobject, hname, hpos, hnode⟩

end File.Bound

/-! ### Linked files are bound -/

/-- Names that are settled stand for what they are settled with, or for what they stood for. -/
theorem Settled.addAll_cases (s : Settled) (ps : List Settlement) {x : IdentId}
    {o : ObjectId} (h : (s.addAll ps).resolutions.get? x = some o) :
    s.resolutions.get? x = some o ∨ ∃ p ∈ ps, p.2 = some o := by
  induction ps generalizing s with
  | nil => exact .inl h
  | cons p ps ih =>
    rcases ih (s.add p.1 p.2) h with h | ⟨q, hq, ho⟩
    · rw [s.get?_add] at h
      split at h
      · cases hp : p.2 with
        | none => rw [hp] at h; exact .inl h
        | some a => rw [hp] at h; exact .inr ⟨p, List.mem_cons_self, hp.trans h⟩
      · exact .inl h
    · exact .inr ⟨q, List.mem_cons_of_mem p hq, ho⟩

section Aliases

variable (scopes : NameMap ScopeId) (imports : NameMap ObjectId)

/-- The local name of an import stands for the object of a package, and nothing else changes. -/
theorem ImportSpec.settleAlias_cases (spec : ImportSpec) (r : Resolutions) (x : IdentId) :
    (spec.settleAlias scopes imports r).get? x = r.get? x ∨
      (∃ a, spec.alias? = some a ∧ a.id = x) ∧
        ∃ id o, imports.find? id = some o ∧
          (spec.settleAlias scopes imports r).get? x = some o := by
  unfold settleAlias
  split
  · next a o ha ho =>
    rw [Resolutions.get?_set]
    split
    · next hx =>
      obtain ⟨⟨id, scope⟩, -, hid⟩ := Option.bind_eq_some_iff.1 ho
      obtain ⟨hname, hkeep⟩ := Option.filter_eq_some_iff.1 ha
      have halias : spec.alias? = some a :=
        Option.filter_eq_some_iff.2 ⟨hname, (Bool.and_eq_true_iff.1 hkeep).1⟩
      exact .inr ⟨⟨a, halias, hx.symm⟩, id, o, hid, rfl⟩
    · exact .inl rfl
  · exact .inl rfl

/-- Once the imports of a file are bound, an identifier stands for the object of a package, or for
what it stood for before. -/
theorem File.aliased_cases (f : File) (x : IdentId) :
    (f.aliased scopes imports).get? x = f.resolutions.get? x ∨
      (∃ a ∈ f.imports.filterMap ImportSpec.alias?, a.id = x) ∧
        ∃ id o, imports.find? id = some o ∧ (f.aliased scopes imports).get? x = some o := by
  unfold aliased
  generalize f.resolutions = r
  generalize f.imports = specs
  induction specs generalizing r with
  | nil => exact .inl rfl
  | cons spec specs ih =>
    rw [List.foldl_cons]
    rcases ih (spec.settleAlias scopes imports r) with h | ⟨⟨a, ha, hx⟩, h⟩
    · rw [h]
      refine (spec.settleAlias_cases scopes imports r x).imp_right fun h => ⟨?_, h.2⟩
      obtain ⟨a, ha, hx⟩ := h.1
      exact ⟨a, List.mem_filterMap.2 ⟨spec, List.mem_cons_self, ha⟩, hx⟩
    · obtain ⟨s, hs, hsa⟩ := List.mem_filterMap.1 ha
      exact .inr ⟨⟨a, List.mem_filterMap.2 ⟨s, List.mem_cons_of_mem spec hs, hsa⟩, hx⟩, h⟩

end Aliases

/-- The answers to the names of a file are objects, when scopes and imports name objects. -/
theorem File.settlements_valid {l m : SymbolTable} (hclosed : l.Closed)
    (hlookup : ∀ i name, l.lookup? i name = m.lookup? i name) {b : Bindings} {f : File}
    (hbound : ∀ name o scope, b.find? name = some (o, scope) → o < l.objects.size) {i : ScopeId}
    {p : Settlement} (hp : p ∈ f.settlements m b i) {o : ObjectId} (ho : p.2 = some o) :
    o < l.objects.size := by
  have hfound {scope : ScopeId} {name : String} (h : m.lookup? scope name = some o) :
      o < l.objects.size := hclosed.lookup? ((hlookup scope name).trans h)
  rcases List.mem_append.1 hp with hp | hp
  · obtain ⟨j, -, rfl⟩ := List.mem_map.1 hp
    obtain ⟨scope, -, h⟩ := List.exists_of_findSome?_eq_some ho
    exact hfound h
  · obtain ⟨q, -, hp⟩ := List.mem_flatMap.1 hp
    unfold QualifiedRef.settlements at hp
    split at hp
    · rw [List.mem_singleton.1 hp] at ho
      cases ho
    · next object scope hfind =>
      rcases List.mem_cons.1 hp with rfl | hp
      · exact hbound _ _ _ (Option.some.inj ho ▸ hfind)
      · rw [List.mem_singleton.1 hp] at ho
        exact hfound ho

section Asked

variable {m : SymbolTable} {scopes : NameMap ScopeId} {imports : NameMap ObjectId} {i : ScopeId}
  {f : File}

/-- Linking answers only what it asks. -/
theorem File.mem_asked_of_settlement {b : Bindings} {p : Settlement}
    (hp : p ∈ f.settlements m b i) : p.1 ∈ f.asked :=
  List.mem_append_right _ ((f.settlements_sublist m b i).subset (List.mem_map_of_mem hp))

theorem File.mem_asked_of_unresolved {j : Ident}
    (hj : j ∈ (linkedFile m scopes imports i f).unresolved) : j ∈ f.asked :=
  mem_asked_of_settlement (mem_linkedFile_unresolved.1 hj)

/-- A linked file is asked about nothing new. -/
theorem File.asked_linked : (linkedFile m scopes imports i f).asked ⊆ f.asked := by
  intro j hj
  rcases List.mem_append.1 hj with hj | hj
  · exact List.mem_append_left _ hj
  · rcases List.mem_append.1 hj with hj | hj
    · exact mem_asked_of_unresolved hj
    · exact List.mem_append_right _ (List.mem_append_right _ hj)

/-- What linking does not ask about stands for what it stood for before. -/
theorem File.linked_get?_apart {x : IdentId} (h : ∀ j ∈ f.asked, j.id ≠ x) :
    (linkedFile m scopes imports i f).resolutions.get? x = f.resolutions.get? x := by
  have hanswers : ∀ p ∈ f.settlements m (f.bindings scopes imports) i, p.1.id ≠ x :=
    fun p hp => h p.1 (mem_asked_of_settlement hp)
  refine (Settled.addAll_get?_other _ _ hanswers).trans ?_
  rcases f.aliased_cases scopes imports x with haliased | ⟨⟨a, ha, heq⟩, -⟩
  · exact haliased
  · exact absurd heq (h a (List.mem_append_left _ ha))

end Asked

/-- A bound file stays bound when it is linked. -/
theorem File.Bound.linked {t m l : SymbolTable} {f : File} (h : f.Bound t) (hw : t.Within l)
    (hclosed : l.Closed) (hlookup : ∀ i name, l.lookup? i name = m.lookup? i name)
    {scopes : NameMap ScopeId} {imports : NameMap ObjectId} (himports : l.Imports imports)
    (i : ScopeId) : (linkedFile m scopes imports i f).Bound l := by
  have hobject {id : String} {o : ObjectId} (ho : imports.find? id = some o) :
      o < l.objects.size := by
    obtain ⟨pos, ho⟩ := himports ho
    exact (Array.getElem?_eq_some_iff.1 ho).1
  constructor
  · intro x hx
    obtain ⟨id, hid, ho⟩ := h.declares x hx
    exact ⟨id, (File.linked_get?_apart (h.apart x hx)).trans hid, hw.objects ho⟩
  · intro j o hj
    rcases Settled.addAll_cases _ _ hj with hj | ⟨p, hp, ho⟩
    · have hj : (f.aliased scopes imports).get? j = some o := hj
      rcases f.aliased_cases scopes imports j with hsame | ⟨-, id, o', ho', hget⟩
      · have ho := hw.objects (Array.getElem?_eq_getElem (h.valid (hsame ▸ hj)))
        exact (Array.getElem?_eq_some_iff.1 ho).1
      · exact hobject (Option.some.inj (hj.symm.trans hget) ▸ ho')
    · refine File.settlements_valid hclosed hlookup (fun name object scope hfind => ?_) hp ho
      obtain ⟨b, hb, heq⟩ := Option.map_eq_some_iff.1 hfind
      have hb := List.mem_reverse.1 (List.mem_of_find?_eq_some hb)
      obtain ⟨spec, -, hspec⟩ := List.mem_filterMap.1 hb
      obtain ⟨⟨id, j⟩, -, hspec⟩ := Option.bind_eq_some_iff.1 hspec
      obtain ⟨o', ho', hspec⟩ := Option.bind_eq_some_iff.1 hspec
      obtain ⟨n, -, rfl⟩ := Option.map_eq_some_iff.1 hspec
      exact hobject ((Prod.mk.inj heq).1 ▸ ho')
  · have hmem {j : Ident} (hj : j ∈ (linkedFile m scopes imports i f).identifiers) :
        j ∈ f.identifiers := by
      have hasked {p : Settlement} (hp : p ∈ f.settlements m (f.bindings scopes imports) i) :
          p.1 ∈ f.unresolved ++ f.qualified.flatMap QualifiedRef.idents :=
        (f.settlements_sublist m _ i).subset (List.mem_map_of_mem hp)
      refine List.mem_append.2 ((List.mem_append.1 hj).imp_right fun hj => ?_)
      exact (List.mem_append.1 hj).elim (fun hj => hasked (mem_linkedFile_unresolved.1 hj))
        (List.mem_append_right _)
    exact fun j hj k hk => h.unique j (hmem hj) k (hmem hk)
  · exact fun x hx j hj => h.apart x hx j (File.asked_linked hj)

/-! ### All files of a run -/

/-- Parsing many sources gives a closed table. -/
theorem Board.after_closed {b : Board} (h : b.symbols.Closed) (ss : List Source) :
    (b.after ss).symbols.Closed := by
  induction ss generalizing b with
  | nil => exact h
  | cons s ss ih =>
    cases hfit : b.fits s with
    | true =>
      rw [b.after_cons_of_fits s ss hfit]
      exact ih (s.reading.lists.closed.placed h)
    | false =>
      rw [b.after_cons_of_not_fits s ss hfit]
      exact ih h

theorem parseSources_symbols (sources : List Source) :
    (parseSources sources).symbols = (Board.empty.after sources).symbols := by
  rw [parseSources_eq]
  rfl

/-- The table of linked sources is closed. -/
theorem linkSources_closed (sources : List Source) : (linkSources sources).symbols.Closed := by
  refine link_closed ?_ _ _
  rw [parseSources_symbols]
  exact Board.after_closed .empty sources

/-- Every file that is kept of a run is bound. -/
theorem linkSources_bound (sources : List Source) {n x : String} {p : Package} {f : File}
    (hp : (linkSources sources).packages.find? n = some p) (hf : p.files.find? x = some f) :
    f.Bound (linkSources sources).symbols := by
  obtain ⟨scopes, m, hrun⟩ := linkSources_run sources
  obtain ⟨i, -, hlinks, himports⟩ := hrun.links.packages hp
  obtain ⟨f₀, hf₀, rfl⟩ := hlinks.mem_values (NameMap.mem_values.2 ⟨x, hf⟩)
  obtain ⟨s, ρ, hs, rfl⟩ := mem_parsed (mem_filesOf.1 hf₀).1
  have hparsed : (s.alone.file.placed ρ).Bound (parseSources sources).symbols := by
    rw [parseSources_symbols]
    exact (s.bound.placed ρ).within (Board.seats_after sources hs).symbols
  have hw : (parseSources sources).symbols.Within (linkSources sources).symbols :=
    hrun.links.kept.trans hrun.links.symbols.within
  refine hparsed.linked hw (linkSources_closed sources) ?_ himports i
  exact fun i name => hrun.links.symbols.lookup? i name

/-! ### Declarations and objects -/

/-- Declarations and objects of a file point at each other, what stands for an object stands for one
of the table, and no two identifiers have one number. -/
structure File.Paired (t : SymbolTable) (f : File) : Prop where
  declaring : ∀ i ∈ f.declaring, f.PointsBack t i
  resolutions : ∀ {i : IdentId} {id : ObjectId}, f.resolutions.get? i = some id →
    id < t.objects.size
  /-- Identifiers of one number are copies: they have one name and one place. -/
  identifiers : ∀ i ∈ f.identifiers, ∀ j ∈ f.identifiers, i.id = j.id → i = j

theorem File.Bound.paired {t : SymbolTable} {f : File} (h : f.Bound t) : f.Paired t :=
  ⟨fun _ hi => h.pointsBack hi, h.valid, h.unique⟩

/-- Declarations and objects point at each other, in every file that is parsed, whatever was parsed
before, and in every file that is kept of sources that are linked. -/
theorem declarations_bound :
    (∀ (files : FileSet) (symbols : SymbolTable) (s : Source), files.Admits s → symbols.Closed →
      ∃ r, parseFile files symbols s.name s.text = .ok r ∧
        r.file.Paired r.symbols ∧ r.symbols.Closed) ∧
    ∀ sources : List Source, (linkSources sources).symbols.Closed ∧
      ∀ {n x : String} {p : Package} {f : File},
        (linkSources sources).packages.find? n = some p → p.files.find? x = some f →
        f.Paired (linkSources sources).symbols := by
  refine ⟨fun files symbols s hadmits hclosed => ?_, fun sources =>
    ⟨linkSources_closed sources, fun hp hf => (linkSources_bound sources hp hf).paired⟩⟩
  obtain ⟨r, hr, hfile, hsymbols, -⟩ := hadmits.parseFile symbols
  refine ⟨r, hr, ?_, ?_⟩
  · rw [hfile, hsymbols]
    exact (s.bound.placed _).paired
  · rw [hsymbols]
    exact s.reading.lists.closed.placed hclosed

/-- A source with declarations of all sorts, blank and repeated ones too, and a parser that starts
anew. -/
theorem declarations_bound_fresh :
    let s : Source := ⟨"a.schema", "package p const ( A = 1; _ ) struct S \x7b int32 a, a \x7d " ++
      "enum E \x7b X, _ \x7d service V \x7b call(S) E \x7d"⟩
    FileSet.Admits {} s ∧ SymbolTable.Closed {} ∧
      ∃ r, parseFile {} {} s.name s.text = .ok r ∧
        r.file.declaring.map (·.name) = ["A", "_", "S", "a", "a", "E", "X", "_", "V", "call"] ∧
        r.file.Paired r.symbols ∧ r.symbols.Closed := by
  intro s
  have hadmits : FileSet.Admits {} s := ⟨by decide, by decide +kernel⟩
  have hnames : (parseFile {} {} s.name s.text).toOption.map
      (fun r => r.file.declaring.map (·.name)) =
      some ["A", "_", "S", "a", "a", "E", "X", "_", "V", "call"] := by decide +kernel
  obtain ⟨r, hr, hpaired, hclosed⟩ := declarations_bound.1 {} {} s hadmits .empty
  rw [hr] at hnames
  exact ⟨hadmits, .empty, r, hr, Option.some.inj hnames, hpaired, hclosed⟩

end Idl
