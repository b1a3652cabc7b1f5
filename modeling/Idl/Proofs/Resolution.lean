/-
Idl/Proofs/Resolution.lean

Resolution is exact.

Each name of a linked file stands for what it should stand for, and for nothing else, and exactly
those that should stand for nothing are listed, once each (`references_exact`, `qualified_exact`).
The names of a file do not get into each other's way because they are numbered apart
(`File.Known.numbered`), and no two entries of the list are the same because names that may stay
unresolved differ in spelling or place (`File.Known.spots`).
-/
import Idl.Proofs.Meaning
import Mathlib.Data.List.Count
import Mathlib.Data.List.Pairwise

namespace Idl

/-! ### Answers -/

section Answers

variable {t m : SymbolTable} {f : File} {refs : List Ident} {b : Bindings} {i : ScopeId}

theorem QualifiedRef.settlements_sublist (m : SymbolTable) (b : Bindings) (q : QualifiedRef) :
    ((q.settlements m b).map (·.1)).Sublist q.idents := by
  unfold settlements
  split
  · exact (List.nil_sublist [q.name]).cons_cons q.qualifier
  · exact .refl _

theorem File.settlements_sublist (m : SymbolTable) (b : Bindings) (i : ScopeId) (f : File) :
    ((f.settlements m b i).map (·.1)).Sublist
      (f.unresolved ++ f.qualified.flatMap QualifiedRef.idents) := by
  unfold settlements
  rw [List.map_append, List.map_map, List.map_flatMap]
  refine List.Sublist.append ?_ (flatMap_sublist _ fun q => q.settlements_sublist m b)
  exact (List.map_id f.unresolved).symm ▸ List.Sublist.refl _

/-- A reference has an answer if it waits. -/
theorem File.mem_answers_unresolved {r : Ident} (hr : r ∈ f.unresolved) :
    (r, lookupPending m i b r.name) ∈ f.settlements m b i :=
  List.mem_append_left _ (List.mem_map_of_mem (f := fun j => (j, lookupPending m i b j.name)) hr)

/-- The names that have no answer are listed. -/
theorem linkedFile_unresolved_perm (scopes : NameMap ScopeId) (imports : NameMap ObjectId)
    (f : File) : (linkedFile m scopes imports i f).unresolved.Perm
      (((f.settlements m (f.bindings scopes imports) i).filter (·.2.isNone)).map (·.1)) :=
  List.mergeSort_perm ..

theorem mem_linkedFile_unresolved {scopes : NameMap ScopeId} {imports : NameMap ObjectId}
    {j : Ident} : j ∈ (linkedFile m scopes imports i f).unresolved ↔
      (j, none) ∈ f.settlements m (f.bindings scopes imports) i := by
  rw [(linkedFile_unresolved_perm scopes imports f).mem_iff, List.mem_map]
  constructor
  · rintro ⟨⟨j', o⟩, hmem, rfl⟩
    obtain ⟨hmem, hnone⟩ := List.mem_filter.1 hmem
    exact Option.isNone_iff_eq_none.1 hnone ▸ hmem
  · exact fun hmem => ⟨(j, none), List.mem_filter.2 ⟨hmem, rfl⟩, rfl⟩

namespace File.Known

/-- Names that may stay unresolved: the references that are not blank, and both parts of qualified
names. -/
def waiting (f : File) (refs : List Ident) : List Ident :=
  refs.filter (fun i => !i.isBlank) ++ f.qualifiedNames.flatMap QualifiedRef.idents

variable (h : f.Known t refs)
include h

theorem answers_sublist (m : SymbolTable) (b : Bindings) (i : ScopeId) :
    ((f.settlements m b i).map (·.1)).Sublist (Known.waiting f refs) := by
  refine (f.settlements_sublist m b i).trans ?_
  rw [h.qualified]
  refine List.Sublist.append ?_ (.refl _)
  rw [h.unresolved]
  have hboth : refs.filter (fun i => !i.isBlank && (t.lookup? f.scope i.name).isNone) =
      (refs.filter fun i => !i.isBlank).filter fun i => (t.lookup? f.scope i.name).isNone := by
    rw [List.filter_filter]
    exact List.filter_congr fun i _ => Bool.and_comm ..
  rw [hboth]
  exact List.filter_sublist

theorem waiting_nodup : ((Known.waiting f refs).map (·.id)).Nodup := by
  refine h.numbered.sublist (List.Sublist.map _ ?_)
  exact ((List.filter_sublist.append (.refl _)).trans (List.sublist_append_right ..))

theorem answers_nodup (m : SymbolTable) (b : Bindings) (i : ScopeId) :
    ((f.settlements m b i).map (·.1.id)).Nodup := by
  have hsub := h.waiting_nodup.sublist ((h.answers_sublist m b i).map (·.id))
  rwa [List.map_map] at hsub

/-- A name has one answer. -/
theorem answer_unique {j : Ident} {o o' : Option ObjectId} (hj : (j, o) ∈ f.settlements m b i)
    (hj' : (j, o') ∈ f.settlements m b i) : o = o' :=
  (Prod.mk.inj (List.inj_on_of_nodup_map (h.answers_nodup m b i) hj hj' rfl)).2

theorem mem_answers_qualified {q : QualifiedRef} (hq : q ∈ f.qualifiedNames) {x : Settlement}
    (hx : x ∈ q.settlements m b) : x ∈ f.settlements m b i :=
  List.mem_append_right _ (List.mem_flatMap.2 ⟨q, h.qualified ▸ hq, hx⟩)

/-- A reference that does not wait has no answer. -/
theorem not_mem_answers {r : Ident} (hr : r ∈ refs) (hno : r ∉ f.unresolved)
    {x : Settlement} (hx : x ∈ f.settlements m b i) : x.1.id ≠ r.id := by
  intro heq
  have hids := h.numbered
  rw [List.map_append, List.nodup_append] at hids
  rcases List.mem_append.1 hx with hx | hx
  · obtain ⟨j, hj, rfl⟩ := List.mem_map.1 hx
    have hjr : j ∈ refs := by
      rw [h.unresolved] at hj
      exact (List.mem_filter.1 hj).1
    have hsame : j = r := List.inj_on_of_nodup_map hids.2.1 (List.mem_append_left _ hjr)
      (List.mem_append_left _ hr) heq
    exact hno (hsame ▸ hj)
  · obtain ⟨q, hq, hx⟩ := List.mem_flatMap.1 hx
    have hxq : x.1 ∈ f.qualifiedNames.flatMap QualifiedRef.idents := by
      refine List.mem_flatMap.2 ⟨q, h.qualified ▸ hq, ?_⟩
      exact (q.settlements_sublist m b).subset (List.mem_map_of_mem hx)
    have hsplit := hids.2.1
    rw [List.map_append, List.nodup_append] at hsplit
    exact hsplit.2.2 r.id (List.mem_map_of_mem hr) x.1.id (List.mem_map_of_mem hxq) heq.symm

/-- The local names of imports are no references. -/
theorem aliased_get? (scopes : NameMap ScopeId) (imports : NameMap ObjectId) {j : Ident}
    (hj : j ∈ refs ++ f.qualifiedNames.flatMap QualifiedRef.idents) :
    (f.aliased scopes imports).get? j.id = f.resolutions.get? j.id := by
  have hids := h.numbered
  rw [List.map_append, List.nodup_append] at hids
  have hother : ∀ spec ∈ f.imports, ∀ a, spec.local? = some a → j.id ≠ a.id := by
    intro spec hspec a ha heq
    have halias : spec.alias? = some a := by
      unfold ImportSpec.local? at ha
      unfold ImportSpec.alias?
      obtain ⟨hname, hkeep⟩ := Option.filter_eq_some_iff.1 ha
      exact Option.filter_eq_some_iff.2 ⟨hname, (Bool.and_eq_true_iff.1 hkeep).1⟩
    exact hids.2.2 a.id (List.mem_map_of_mem (List.mem_filterMap.2 ⟨spec, hspec, halias⟩)) j.id
      (List.mem_map_of_mem hj) heq.symm
  unfold File.aliased
  generalize f.resolutions = r
  generalize f.imports = specs at hother
  induction specs generalizing r with
  | nil => rfl
  | cons spec specs ih =>
    rw [List.foldl_cons, ih _ fun x hx => hother x (List.mem_cons_of_mem spec hx)]
    unfold ImportSpec.settleAlias
    split
    · next a o ha ho => rw [Resolutions.get?_set, if_neg (hother spec List.mem_cons_self a ha)]
    · rfl

/-- The name behind a qualifier that is not bound has no answer. -/
theorem not_mem_answers_name {q : QualifiedRef} (hq : q ∈ f.qualifiedNames)
    (hnone : b.find? q.qualifier.name = none) {x : Settlement} (hx : x ∈ f.settlements m b i) :
    x.1.id ≠ q.name.id := by
  intro heq
  have hids := h.waiting_nodup
  unfold waiting at hids
  rw [List.map_append, List.nodup_append] at hids
  obtain ⟨-, hqualified, hapart⟩ := hids
  have hname : q.name ∈ f.qualifiedNames.flatMap QualifiedRef.idents :=
    List.mem_flatMap.2 ⟨q, hq, List.mem_cons_of_mem q.qualifier List.mem_cons_self⟩
  rcases List.mem_append.1 hx with hx | hx
  · obtain ⟨j, hj, rfl⟩ := List.mem_map.1 hx
    rw [h.unresolved] at hj
    obtain ⟨hj, hkeep⟩ := List.mem_filter.1 hj
    have hwaits : j ∈ refs.filter fun i => !i.isBlank :=
      List.mem_filter.2 ⟨hj, (Bool.and_eq_true_iff.1 hkeep).1⟩
    exact hapart j.id (List.mem_map_of_mem hwaits) q.name.id (List.mem_map_of_mem hname) heq
  · obtain ⟨q', hq', hx⟩ := List.mem_flatMap.1 hx
    rw [h.qualified] at hq'
    have hmem : x.1 ∈ q'.idents :=
      (q'.settlements_sublist m b).subset (List.mem_map_of_mem hx)
    rw [List.map_flatMap, List.nodup_flatMap] at hqualified
    obtain ⟨hone, hdisjoint⟩ := hqualified
    -- the answer is one to this very name, which is answered by its qualifier alone
    have hsymm : Std.Symm (Function.onFun List.Disjoint fun q : QualifiedRef =>
        q.idents.map (·.id)) := ⟨fun _ _ h a ha hb => h hb ha⟩
    have hsame : q' = q := by
      by_contra hne
      refine hdisjoint.forall hq' hq hne (List.mem_map_of_mem hmem) (heq ▸ ?_)
      exact List.mem_map_of_mem (List.mem_cons_of_mem q.qualifier List.mem_cons_self)
    subst hsame
    unfold QualifiedRef.settlements at hx
    rw [hnone] at hx
    have hid : q'.qualifier.id = q'.name.id := by
      rw [← heq, List.mem_singleton.1 hx]
    exact (List.nodup_cons.1 (hone q' hq)).1 (List.mem_singleton.2 hid)

/-! ### Names of a linked file -/

variable (scopes : NameMap ScopeId) (imports : NameMap ObjectId)

/-- A name with an answer stands for that. -/
theorem linked_get?_answer {j : Ident} {o : Option ObjectId}
    (hj : (j, o) ∈ f.settlements m (f.bindings scopes imports) i) :
    (linkedFile m scopes imports i f).resolutions.get? j.id =
      o.or (f.resolutions.get? j.id) := by
  have hmem : j ∈ Known.waiting f refs := (h.answers_sublist _ _ _).subset (List.mem_map_of_mem hj)
  have hall : j ∈ refs ++ f.qualifiedNames.flatMap QualifiedRef.idents :=
    ((List.filter_sublist).append (.refl _)).subset hmem
  rw [← h.aliased_get? scopes imports hall]
  exact Settled.addAll_get? _ _ (h.answers_nodup _ _ _) hj

/-- A name without an answer stands for what it stood for before. -/
theorem linked_get?_other {j : Ident}
    (hj : j ∈ refs ++ f.qualifiedNames.flatMap QualifiedRef.idents)
    (hno : ∀ x ∈ f.settlements m (f.bindings scopes imports) i, x.1.id ≠ j.id) :
    (linkedFile m scopes imports i f).resolutions.get? j.id = f.resolutions.get? j.id := by
  rw [← h.aliased_get? scopes imports hj]
  exact Settled.addAll_get?_other _ _ hno

theorem linked_unresolved_subperm :
    (linkedFile m scopes imports i f).unresolved.Subperm (waiting f refs) :=
  (linkedFile_unresolved_perm scopes imports f).subperm.trans
    ((List.filter_sublist.map _).trans (h.answers_sublist _ _ _)).subperm

end File.Known

end Answers

/-! ### Counting -/

section Counting

variable {α β κ : Type} [DecidableEq β]

/-- Where only one list can have an element, it is counted there. -/
theorem count_flatMap_of_key {xs : List α} {φ : α → κ} {f : α → List β} (h : (xs.map φ).Nodup)
    {x : α} (hx : x ∈ xs) {b : β} (hkey : ∀ y ∈ xs, b ∈ f y → φ y = φ x) :
    (xs.flatMap f).count b = (f x).count b := by
  induction xs with
  | nil => cases hx
  | cons y ys ih =>
    obtain ⟨hy, hys⟩ := List.nodup_cons.1 h
    rw [List.flatMap_cons, List.count_append]
    rcases List.mem_cons.1 hx with rfl | hx
    · have hnone : b ∉ ys.flatMap f := fun hb => by
        obtain ⟨z, hz, hb⟩ := List.mem_flatMap.1 hb
        exact hy (List.mem_map.2 ⟨z, hz, hkey z (List.mem_cons_of_mem x hz) hb⟩)
      rw [List.count_eq_zero.2 hnone, Nat.add_zero]
    · have hnone : b ∉ f y := fun hb =>
        hy (hkey y List.mem_cons_self hb ▸ List.mem_map_of_mem hx)
      rw [List.count_eq_zero.2 hnone, Nat.zero_add]
      exact ih hys hx fun z hz => hkey z (List.mem_cons_of_mem y hz)

end Counting

/-- How often a name is listed among those that stand for nothing: in its file, and in the whole
run. -/
def Linked.Lists (l : Linked) (f : File) (i : Ident) (times : Nat) : Prop :=
  f.unresolved.count i = times ∧
    l.unresolved.count ⟨f.name.name, f.filename, i.name, i.pos⟩ = times

namespace Linked.Run

variable {files : FileSet} {t m : SymbolTable} {fs : List File} {scopes : NameMap ScopeId}
  {l : Linked}

/-- Every file is linked, if no two have the same name. -/
theorem linked (h : l.Run files t fs scopes m) (hdistinct : DistinctNames fs) {f : File}
    (hf : f ∈ fs) : ∃ p i, l.packages.find? f.name.name = some p ∧
      scopes.find? f.name.name = some i ∧
      p.Links m scopes f.name.name i (filesOf fs f.name.name) ∧ l.symbols.Imports p.imports ∧
      p.files.find? f.filename = some (linkedFile m scopes p.imports i f) := by
  obtain ⟨i, hi⟩ := Option.isSome_iff_exists.1 ((h.links.named f.name.name).2 ⟨f, hf, rfl⟩)
  obtain ⟨p, hp⟩ : ∃ p, l.packages.find? f.name.name = some p := by
    rw [← NameMap.mem_keys, h.links.keys, NameMap.mem_keys]
    exact ⟨i, hi⟩
  obtain ⟨j, hj, hlinks, himports⟩ := h.links.packages hp
  obtain rfl : j = i := Option.some.inj (hj.symm.trans hi)
  refine ⟨p, j, hp, hj, hlinks, himports, ?_⟩
  rw [hlinks.files, find?_filename (hdistinct.filesOf _) (mem_filesOf.2 ⟨hf, rfl⟩)]
  rfl

theorem package_names (h : l.Run files t fs scopes m) :
    l.packages.values.map (·.name) = l.packages.keys := by
  unfold NameMap.values NameMap.keys
  rw [List.map_map]
  refine List.map_congr_left fun e he => ?_
  obtain ⟨i, -, hlinks, -⟩ := h.links.packages (NameMap.find?_eq_some.2 he)
  exact hlinks.name

/-- The list of a run holds for each file what the list of the file holds. -/
theorem count_unresolved (h : l.Run files t fs scopes m) {n x : String} {p : Package} {f : File}
    (hp : l.packages.find? n = some p) (hf : p.files.find? x = some f) (name : String) (pos : Pos) :
    l.unresolved.count ⟨n, f.filename, name, pos⟩ =
      (f.unresolved.map Ident.spot).count (name, pos) := by
  obtain ⟨i, -, hlinks, -⟩ := h.links.packages hp
  have hname : p.name = n := hlinks.name
  have hpackages : (l.packages.values.map (·.name)).Nodup := h.package_names ▸ NameMap.keys_nodup _
  have hfiles : (p.files.values.map (·.filename)).Nodup := hlinks.filenames ▸ NameMap.keys_nodup _
  rw [h.links.unresolved,
    count_flatMap_of_key hpackages (NameMap.mem_values.2 ⟨n, hp⟩) fun q _ hmem => ?_]
  · unfold Package.unresolved
    rw [count_flatMap_of_key hfiles (NameMap.mem_values.2 ⟨x, hf⟩) fun g _ hmem => ?_]
    · have hspot : (f.unresolved.map fun i : Ident =>
          (⟨p.name, f.filename, i.name, i.pos⟩ : UnresolvedIdent)) =
          (f.unresolved.map Ident.spot).map fun x => ⟨n, f.filename, x.1, x.2⟩ := by
        rw [List.map_map, hname]
        rfl
      have hinjective : Function.Injective fun x : String × Pos =>
          (⟨n, f.filename, x.1, x.2⟩ : UnresolvedIdent) := fun x y hxy => by
        injection hxy with _ _ hn hpos
        exact Prod.ext hn hpos
      rw [hspot]
      exact List.count_map_of_injective _ _ hinjective (name, pos)
    · obtain ⟨j, -, heq⟩ := List.mem_map.1 hmem
      exact congrArg UnresolvedIdent.filename heq
  · obtain ⟨g, -, hmem⟩ := List.mem_flatMap.1 hmem
    obtain ⟨j, -, heq⟩ := List.mem_map.1 hmem
    exact (congrArg UnresolvedIdent.package heq).trans hname.symm

/-- A name that may wait is listed once if it has no answer, and else not at all. -/
theorem lists (h : l.Run files t fs scopes m) {f : File} {refs : List Ident} (hk : f.Known t refs)
    {p : Package} {i : ScopeId} {x : String} (hp : l.packages.find? f.name.name = some p)
    (hf : p.files.find? x = some (linkedFile m scopes p.imports i f)) {j : Ident}
    (hj : j ∈ File.Known.waiting f refs) : l.Lists (linkedFile m scopes p.imports i f) j
      (if (j, none) ∈ f.settlements m (f.bindings scopes p.imports) i then 1 else 0) := by
  obtain ⟨js, hperm, hsub⟩ := hk.linked_unresolved_subperm (i := i) scopes p.imports
  have hspots : ((linkedFile m scopes p.imports i f).unresolved.map Ident.spot).Nodup :=
    (hperm.map _).nodup_iff.1 (hk.spots.sublist (hsub.map _))
  have hnodup := List.Nodup.of_map _ hspots
  have hspot : j.spot ∈ (linkedFile m scopes p.imports i f).unresolved.map Ident.spot ↔
      j ∈ (linkedFile m scopes p.imports i f).unresolved := by
    refine ⟨fun hmem => ?_, List.mem_map_of_mem⟩
    obtain ⟨k, hkmem, heq⟩ := List.mem_map.1 hmem
    exact List.inj_on_of_nodup_map hk.spots (hsub.subset (hperm.mem_iff.2 hkmem)) hj heq ▸ hkmem
  refine ⟨?_, ?_⟩
  · rw [hnodup.count]
    simp only [mem_linkedFile_unresolved]
  · refine (h.count_unresolved hp hf j.name j.pos).trans ?_
    show (List.map Ident.spot _).count j.spot = _
    rw [hspots.count]
    simp only [hspot, mem_linkedFile_unresolved]

/-- Whatever a name that waits is found to stand for is an object. -/
theorem isSome_of_pending (h : l.Run files t fs scopes m) {f : File} {i : ScopeId}
    (hi : scopes.find? f.name.name = some i) {imports : NameMap ObjectId} {name : String}
    {o : ObjectId} (ho : lookupPending m i (f.bindings scopes imports) name = some o) :
    (l.symbols.objects[o]?).isSome = true := by
  obtain ⟨scope, hscope, hfound⟩ := List.exists_of_findSome?_eq_some ho
  rcases List.mem_cons.1 hscope with rfl | hscope
  · exact h.isSome_of_lookup hi hfound
  · obtain ⟨spec, -, hdotted⟩ := List.mem_filterMap.1 hscope
    unfold ImportSpec.dotted? ImportSpec.target? at hdotted
    split at hdotted
    · obtain ⟨x, hx, rfl⟩ := Option.map_eq_some_iff.1 hdotted
      obtain ⟨id, -, hx⟩ := Option.bind_eq_some_iff.1 hx
      obtain ⟨j, hj, rfl⟩ := Option.map_eq_some_iff.1 hx
      exact h.isSome_of_lookup hj hfound
    · cases hdotted

/-- A name that waits stands for a declaration of the package, or else of a package that is imported
by a dot. -/
theorem pending (h : l.Run files t fs scopes m) {f : File} {i : ScopeId}
    (hi : scopes.find? f.name.name = some i) (imports : NameMap ObjectId) (name : String) :
    (lookupPending m i (f.bindings scopes imports) name).bind (fun o => l.symbols.objects[o]?) =
      (declarationOf? fs f.name.name name).or (f.imports.findSome? fun spec =>
        if spec.isDotted then (spec.package? fs).bind (declarationOf? fs · name) else none) := by
  have hown := h.package_lookup hi name
  unfold lookupPending
  rw [List.findSome?_cons]
  cases hlookup : m.lookup? i name with
  | none =>
    rw [hlookup, Option.bind_none] at hown
    rw [← hown]
    exact h.dotted_lookup f.imports name
  | some o =>
    obtain ⟨x, hx⟩ := Option.isSome_iff_exists.1 (h.isSome_of_lookup hi hlookup)
    rw [hlookup, Option.bind_some, hx] at hown
    rw [← hown]
    exact hx

end Linked.Run

/-! ### Exactness -/

/-- A name stands for an object and is not listed, or it stands for nothing and is listed once. -/
def Linked.Settles (l : Linked) (f : File) (i : Ident) (o : Option Object) : Prop :=
  l.objectOf? f i = o ∧ l.Lists f i (if o.isNone then 1 else 0)

/-- A qualified name is settled: by the package that its qualifier is bound to, or else its qualifier
is listed and nothing more. -/
def Linked.SettlesQualified (l : Linked) (fs : List File) (imports : NameMap ObjectId) (f : File)
    (q : QualifiedRef) : Prop :=
  match f.imported? fs q.qualifier.name with
  | none => l.Settles f q.qualifier none ∧ l.objectOf? f q.name = none ∧ l.Lists f q.name 0
  | some id =>
    (∃ o pos, imports.find? id = some o ∧ f.resolutions.get? q.qualifier.id = some o ∧
      l.Settles f q.qualifier (some ⟨.package, id, .package id, pos, none⟩)) ∧
    l.Settles f q.name (declarationOf? fs id q.name.name)

namespace Linked.Run

variable {files : FileSet} {t m : SymbolTable} {fs : List File} {scopes : NameMap ScopeId}
  {l : Linked} {f : File} {refs : List Ident} {p : Package} {i : ScopeId} {x : String}

/-- A name with an answer is settled by it. -/
theorem settles_answer (h : l.Run files t fs scopes m) (hk : f.Known t refs)
    (hp : l.packages.find? f.name.name = some p)
    (hf : p.files.find? x = some (linkedFile m scopes p.imports i f)) {j : Ident}
    {o : Option ObjectId} (hanswer : (j, o) ∈ f.settlements m (f.bindings scopes p.imports) i)
    (hfree : f.resolutions.get? j.id = none)
    (hsome : ∀ a, o = some a → (l.symbols.objects[a]?).isSome = true) :
    l.Settles (linkedFile m scopes p.imports i f) j (o.bind fun a => l.symbols.objects[a]?) := by
  have hlists := h.lists hk hp hf ((hk.answers_sublist _ _ _).subset (List.mem_map_of_mem hanswer))
  refine ⟨?_, ?_⟩
  · unfold Linked.objectOf?
    rw [hk.linked_get?_answer scopes p.imports hanswer, hfree, Option.or_none]
  · cases o with
    | none => rwa [if_pos hanswer] at hlists
    | some a =>
      have hno : (j, none) ∉ f.settlements m (f.bindings scopes p.imports) i := fun hnone =>
        nomatch hk.answer_unique hanswer hnone
      obtain ⟨y, hy⟩ := Option.isSome_iff_exists.1 (hsome a rfl)
      rw [if_neg hno] at hlists
      rw [Option.bind_some, hy]
      exact hlists

/-- References stand for what they should stand for. -/
theorem settles_reference (h : l.Run files t fs scopes m) (hmem : f ∈ fs) (hk : f.Known t refs)
    (hp : l.packages.find? f.name.name = some p) (hi : scopes.find? f.name.name = some i)
    (hf : p.files.find? x = some (linkedFile m scopes p.imports i f)) {r : Ident}
    (hr : r ∈ f.references) (hb : r.isBlank = false) :
    l.Settles (linkedFile m scopes p.imports i f) r (f.meaning? fs r.name) := by
  have hr := (hk.mem_refs r).2 hr
  have hown := h.file_lookup hmem r.name
  have hearly := hk.referred r hr hb
  unfold File.meaning?
  cases hlookup : t.lookup? f.scope r.name with
  | none =>
    rw [hlookup] at hown hearly
    have hwaits : r ∈ f.unresolved := by
      rw [hk.unresolved]
      exact List.mem_filter.2 ⟨hr, by simp [hb, hlookup]⟩
    rw [← hown, ← h.pending hi p.imports]
    exact h.settles_answer hk hp hf (File.mem_answers_unresolved hwaits) hearly
      fun a ha => h.isSome_of_pending hi ha
  | some o =>
    rw [hlookup] at hown hearly
    have hfound : (l.symbols.objects[o]?).isSome = true := by
      rw [hk.lookup] at hlookup
      obtain ⟨e, he, rfl⟩ := Option.map_eq_some_iff.1 hlookup
      rw [h.objects (t.has_entries _ e (List.mem_of_find?_eq_some he))]
      rfl
    obtain ⟨y, hy⟩ := Option.isSome_iff_exists.1 hfound
    have hdone : r ∉ f.unresolved := by
      rw [hk.unresolved]
      intro hmem
      have hnone := (List.mem_filter.1 hmem).2
      simp [hb, hlookup] at hnone
    have hno : ∀ a ∈ f.settlements m (f.bindings scopes p.imports) i, a.1.id ≠ r.id :=
      fun a ha => hk.not_mem_answers hr hdone ha
    have hlists := h.lists hk hp hf
      (List.mem_append_left _ (List.mem_filter.2 ⟨hr, by simp [hb]⟩) : r ∈ File.Known.waiting f refs)
    rw [if_neg fun hmem => hno _ hmem rfl] at hlists
    rw [← hown, Option.bind_some, hy]
    refine ⟨?_, hlists⟩
    unfold Linked.objectOf?
    rw [hk.linked_get?_other scopes p.imports (List.mem_append_left _ hr) hno, hearly]
    exact hy

/-- Qualified names stand for what they should stand for. -/
theorem settles_qualified (h : l.Run files t fs scopes m) (hmem : f ∈ fs) (hk : f.Known t refs)
    (hp : l.packages.find? f.name.name = some p)
    (hlinks : p.Links m scopes f.name.name i (filesOf fs f.name.name))
    (himports : l.symbols.Imports p.imports)
    (hf : p.files.find? x = some (linkedFile m scopes p.imports i f)) {q : QualifiedRef}
    (hq : q ∈ f.qualifiedNames) :
    l.SettlesQualified fs p.imports (linkedFile m scopes p.imports i f) q := by
  have hbindings := h.find?_bindings hlinks (mem_filesOf.2 ⟨hmem, rfl⟩) q.qualifier.name
  have hqualifier : q.qualifier ∈ q.idents := List.mem_cons_self
  have hname : q.name ∈ q.idents := List.mem_cons_of_mem q.qualifier List.mem_cons_self
  have hwaits : q.name ∈ File.Known.waiting f refs :=
    List.mem_append_right _ (List.mem_flatMap.2 ⟨q, hq, hname⟩)
  have hall {j : Ident} (hj : j ∈ q.idents) :
      j ∈ refs ++ f.qualifiedNames.flatMap QualifiedRef.idents :=
    List.mem_append_right _ (List.mem_flatMap.2 ⟨q, hq, hj⟩)
  have hanswer {a : Settlement} (ha : a ∈ q.settlements m (f.bindings scopes p.imports)) :=
    hk.mem_answers_qualified (i := i) hq ha
  show match f.imported? fs q.qualifier.name with
    | none => _
    | some id => _
  cases himported : f.imported? fs q.qualifier.name with
  | none =>
    rw [himported, Option.bind_none] at hbindings
    have hone : (q.qualifier, none) ∈ q.settlements m (f.bindings scopes p.imports) := by
      unfold QualifiedRef.settlements
      rw [hbindings]
      exact List.mem_cons_self
    have hno : ∀ a ∈ f.settlements m (f.bindings scopes p.imports) i, a.1.id ≠ q.name.id :=
      fun a ha => hk.not_mem_answers_name hq hbindings ha
    have hlists := h.lists hk hp hf hwaits
    rw [if_neg fun hmem => hno _ hmem rfl] at hlists
    refine ⟨?_, ?_, hlists⟩
    · exact h.settles_answer hk hp hf (hanswer hone) (hk.free q hq _ hqualifier)
        fun a ha => nomatch ha
    · unfold Linked.objectOf?
      rw [hk.linked_get?_other scopes p.imports (hall hname) hno, hk.free q hq _ hname]
      rfl
  | some id =>
    obtain ⟨spec, hspec, hid⟩ := List.exists_of_findSome?_eq_some himported
    have hid : spec.package? fs = some id := by
      split at hid
      · exact hid
      · cases hid
    obtain ⟨j, hj⟩ := h.scope_of_package hid
    have ht : spec.target? scopes = some (id, j) := by
      rw [h.target?, hid, Option.bind_some, hj]
      rfl
    obtain ⟨o, ho⟩ := Option.isSome_iff_exists.1 ((hlinks.found id).2
      ⟨f, mem_filesOf.2 ⟨hmem, rfl⟩, spec, List.mem_reverse.1 hspec, j, ht⟩)
    rw [himported, Option.bind_some, ho, Option.bind_some, hj, Option.map_some] at hbindings
    obtain ⟨pos, hobject⟩ := himports ho
    have hsettlements : q.settlements m (f.bindings scopes p.imports) =
        [(q.qualifier, some o), (q.name, m.lookup? j q.name.name)] := by
      unfold QualifiedRef.settlements
      rw [hbindings]
    have hfirst := hanswer (hsettlements ▸ List.mem_cons_self)
    have hsecond := hanswer (hsettlements ▸ List.mem_cons_of_mem _ List.mem_cons_self)
    refine ⟨⟨o, pos, ho, ?_, ?_⟩, ?_⟩
    · rw [hk.linked_get?_answer scopes p.imports hfirst]
      rfl
    · have hsettles := h.settles_answer hk hp hf hfirst (hk.free q hq _ hqualifier) fun a ha => by
        rw [← Option.some.inj ha, hobject]
        rfl
      rwa [Option.bind_some, hobject] at hsettles
    · rw [← h.package_lookup hj]
      exact h.settles_answer hk hp hf hsecond (hk.free q hq _ hname)
        fun a ha => h.isSome_of_lookup hj ha

end Linked.Run

/-- Every name of every file is resolved exactly: if no two files of a package have the same name,
the references of each file that are not blank, and its qualified names, stand for what they should
stand for, and those that should stand for nothing are listed once. -/
theorem resolution_exact (sources : List Source)
    (h : DistinctNames (parseSources sources).parsed) {f : File}
    (hf : f ∈ (parseSources sources).parsed) :
    ∃ p g, (linkSources sources).packages.find? f.name.name = some p ∧
      p.files.find? f.filename = some g ∧ g.decls = f.decls ∧
      (∀ r ∈ g.references, r.isBlank = false →
        (linkSources sources).Settles g r (g.meaning? (parseSources sources).parsed r.name)) ∧
      ∀ q ∈ g.qualifiedNames,
        (linkSources sources).SettlesQualified (parseSources sources).parsed p.imports g q := by
  obtain ⟨scopes, m, hrun⟩ := linkSources_run sources
  obtain ⟨refs, hk⟩ := hrun.known f hf
  obtain ⟨p, i, hp, hi, hlinks, himports, hfile⟩ := hrun.linked h hf
  refine ⟨p, _, hp, hfile, rfl, fun r hr hb => ?_, fun q hq => ?_⟩
  · exact hrun.settles_reference hf hk hp hi hfile hr hb
  · exact hrun.settles_qualified hf hk hp hlinks himports hfile hq

/-- Two packages, one of which imports the other. -/
def shapes : List Source := [
  ⟨"a.mid", "package a\nimport \"b\"\nstruct S \x7b\n  T t\n  b.U u\n  c.V v\n\x7d\n"⟩,
  ⟨"b.mid", "package b\nstruct U \x7b\n\x7d\n"⟩]

theorem resolution_exact_shapes : DistinctNames (parseSources shapes).parsed ∧
    ∃ f ∈ (parseSources shapes).parsed, f.references.map (·.name) = ["T"] ∧
      f.qualifiedNames.map (·.qualifier.name) = ["b", "c"] ∧
      ∃ p g, (linkSources shapes).packages.find? f.name.name = some p ∧
        p.files.find? f.filename = some g ∧ g.decls = f.decls ∧
        (∀ r ∈ g.references, r.isBlank = false →
          (linkSources shapes).Settles g r (g.meaning? (parseSources shapes).parsed r.name)) ∧
        ∀ q ∈ g.qualifiedNames,
          (linkSources shapes).SettlesQualified (parseSources shapes).parsed p.imports g q := by
  have hdistinct : DistinctNames (parseSources shapes).parsed := by decide +kernel
  have hnames : (parseSources shapes).parsed.head?.map (fun f =>
      (f.references.map (·.name), f.qualifiedNames.map (·.qualifier.name))) =
      some (["T"], ["b", "c"]) := by decide +kernel
  obtain ⟨f, hhead, hnames⟩ := Option.map_eq_some_iff.1 hnames
  have hf := List.mem_of_head? hhead
  exact ⟨hdistinct, f, hf, congrArg Prod.fst hnames, congrArg Prod.snd hnames,
    resolution_exact shapes hdistinct hf⟩

end Idl
