/-
Idl/Proofs/Link/Merge.lean

Merging the scopes of files into those of their packages.

The objects of a package are entered one after the other.  The scope of the package names the first
one of each name, and every further one is an error (`mergeFiles_merged`).  Nothing else changes:
the scopes of files stay what they were, so what one package enters does not depend on another
(`mergeGroups_merged`).
-/
import Idl.Proofs.Link.Groups
import Idl.Proofs.Repeats

namespace Idl

/-! ### Steps in a row -/

section Rows

variable {α β : Type}

theorem Link.bind_eq {m : Link α} {k : α → Link β} {s s' : LinkState} {a : α} (h : m s = (a, s')) :
    (m >>= k) s = k a s' := by
  show k (m s).1 (m s).2 = _
  rw [h]

theorem Link.forM_eq (step : α → Link Unit) (xs : List α) (s : LinkState) :
    xs.forM step s = ((), xs.foldl (fun s x => (step x s).2) s) := by
  induction xs generalizing s with
  | nil => rfl
  | cons x xs ih => exact ih (step x s).2

theorem Link.foldlM_eq (step : β → α → Link β) (xs : List α) (b : β) (s : LinkState) :
    xs.foldlM step b s = xs.foldl (fun r x => step r.1 x r.2) (b, s) := by
  induction xs generalizing b s with
  | nil => rfl
  | cons x xs ih =>
    rw [List.foldlM_cons, List.foldl_cons]
    exact ih (step b x s).1 (step b x s).2

end Rows

/-! ### Entries of a scope -/

/-- An object with its number. -/
abbrev Entry := ObjectId × Object

/-- The name under which an object is entered. -/
def Entry.key (e : Entry) : Option String := some e.2.name

namespace SymbolTable

/-- Objects that are in the table under their numbers. -/
def Has (t : SymbolTable) (es : List Entry) : Prop := ∀ e ∈ es, t.objects[e.1]? = some e.2

/-- A scope for nothing but these entries, which names the first one of each name. -/
def Names (t : SymbolTable) (i : ScopeId) (es : List Entry) : Prop :=
  t.scopes[i]? =
    some { outer := none, names := ((firsts Entry.key [] es).map fun e => (e.2.name, e.1)).reverse }

/-- The objects that a scope names, with their numbers, in the order of their positions. -/
def entries (t : SymbolTable) (i : ScopeId) : List Entry :=
  (t.objectsIn i).filterMap fun id => t.objects[id]?.map (id, ·)

variable {t t' : SymbolTable} {i : ScopeId} {es : List Entry}

theorem has_entries (t : SymbolTable) (i : ScopeId) : t.Has (t.entries i) := by
  intro e he
  obtain ⟨id, -, h⟩ := List.mem_filterMap.1 he
  obtain ⟨o, ho, rfl⟩ := Option.map_eq_some_iff.1 h
  exact ho

theorem Has.posOf (h : t.Has es) {e : Entry} (he : e ∈ es) : t.posOf e.1 = e.2.pos := by
  unfold SymbolTable.posOf
  rw [h e he]
  rfl

/-- What a scope names is found in it. -/
theorem lookup?_of_names {scope : Scope} (hscope : t.scopes[i]? = some scope)
    (hnames : scope.names = (es.map fun e => (e.2.name, e.1)).reverse)
    (hunique : ∀ x ∈ es, ∀ y ∈ es, x.2.name = y.2.name → y = x) (name : String) :
    t.lookup? i name = (es.find? (·.2.name = name)).map (·.1) := by
  have hone : ∀ x ∈ (es.map fun e => (e.2.name, e.1)).reverse,
      ∀ y ∈ (es.map fun e => (e.2.name, e.1)).reverse,
      decide (x.1 = name) = true → decide (y.1 = name) = true → y = x := by
    intro x hx y hy hxn hyn
    obtain ⟨a, ha, rfl⟩ := List.mem_map.1 (List.mem_reverse.1 hx)
    obtain ⟨b, hb, rfl⟩ := List.mem_map.1 (List.mem_reverse.1 hy)
    rw [hunique a ha b hb ((of_decide_eq_true hxn).trans (of_decide_eq_true hyn).symm)]
  unfold SymbolTable.lookup?
  rw [hscope]
  show (scope.names.find? (·.1 = name)).map _ = _
  rw [hnames, find?_eq_of_perm (List.reverse_perm _) hone, List.find?_map, Option.map_map]
  rfl

theorem Names.lookup? (h : t.Names i es) (name : String) :
    t.lookup? i name = (es.find? (·.2.name = name)).map (·.1) := by
  have hkey (e : Entry) : decide (Entry.key e = some name) = decide (e.2.name = name) :=
    decide_eq_decide.2 Option.some_inj
  have hfirst := find?_firsts (φ := Entry.key) (k := name) List.not_mem_nil es
  simp only [hkey] at hfirst
  rw [lookup?_of_names h rfl (fun x hx y hy hxy => firsts_unique hx hy (congrArg some hxy)), hfirst]

/-! ### One object -/

/-- Entering an object whose name is taken changes nothing. -/
theorem Names.insert_taken (h : t.Names i es) {e : Entry} (he : t.objects[e.1]? = some e.2)
    (hseen : e.2.name ∈ es.filterMap Entry.key) :
    t.insert i e.1 = ((es.find? (·.2.name = e.2.name)).map (·.1), t) ∧ t.Names i (es ++ [e]) := by
  have hfirsts : firsts Entry.key [] (es ++ [e]) = firsts Entry.key [] es := by
    rw [firsts_append, List.nil_append, firsts_cons_seen (φ := Entry.key) (x := e) rfl hseen]
    exact List.append_nil _
  refine ⟨?_, ?_⟩
  · obtain ⟨x, hx, hxk⟩ := List.mem_filterMap.1 hseen
    have hsome : (es.find? (·.2.name = e.2.name)).isSome = true :=
      List.find?_isSome.2 ⟨x, hx, by simpa [Entry.key] using hxk⟩
    obtain ⟨y, hy⟩ := Option.isSome_iff_exists.1 hsome
    unfold SymbolTable.insert
    simp only [he, h.lookup?, hy, Option.map_some]
  · unfold Names
    rw [hfirsts]
    exact h

/-- Entering an object with a new name. -/
theorem Names.insert_new (h : t.Names i es) {e : Entry} (he : t.objects[e.1]? = some e.2)
    (hnew : e.2.name ∉ es.filterMap Entry.key) :
    ∃ t', t.insert i e.1 = (none, t') ∧ t'.Names i (es ++ [e]) ∧ t'.objects = t.objects ∧
      ∀ j, j ≠ i → t'.scopes[j]? = t.scopes[j]? := by
  have hnone : es.find? (·.2.name = e.2.name) = none := by
    refine List.find?_eq_none.2 fun x hx hname => hnew ?_
    exact List.mem_filterMap.2 ⟨x, hx, congrArg some (of_decide_eq_true hname)⟩
  refine ⟨{ t with scopes := t.scopes.modify i fun s => { s with names := (e.2.name, e.1) :: s.names } },
    ?_, ?_, rfl, fun j hj => ?_⟩
  · unfold SymbolTable.insert
    simp only [he, h.lookup?, hnone, Option.map_none]
  · show (t.scopes.modify i _)[i]? = _
    rw [Array.getElem?_modify, if_pos rfl, show t.scopes[i]? = _ from h, firsts_append,
      List.nil_append, firsts_cons_new (φ := Entry.key) (x := e) rfl hnew, List.map_append,
      List.reverse_append]
    rfl
  · show (t.scopes.modify i _)[j]? = _
    rw [Array.getElem?_modify, if_neg (Ne.symm hj)]

end SymbolTable

/-! ### One package -/

/-- The error about an entry of whose name `first` is the first one. -/
def mergeError (files : FileSet) (first : Option Entry) (e : Entry) : Diagnostic :=
  .error (redeclaredMessage e.2.name (some (files.position ((first.map (·.2.pos)).getD 0))))
    (.ofWidth e.2.pos e.2.name.utf8ByteSize)

/-- The errors about the entries of one package. -/
def mergeErrors (files : FileSet) (es : List Entry) : List Diagnostic :=
  complaints Entry.key (mergeError files) es

/-- After entries are merged into a scope: what the scope names, what is reported, and that all the
rest is as before. -/
structure LinkState.Merged (files : FileSet) (s : LinkState) (i : ScopeId) (es : List Entry)
    (s' : LinkState) : Prop where
  names : s'.symbols.Names i es
  diagnostics : s'.diagnostics.toList = s.diagnostics.toList ++ mergeErrors files es
  objects : s'.symbols.objects = s.symbols.objects
  scopes : ∀ j, j ≠ i → s'.symbols.scopes[j]? = s.symbols.scopes[j]?

theorem LinkState.Merged.object {files : FileSet} {s s' : LinkState} {i : ScopeId} {es : List Entry}
    (h : s.Merged files i es s') (hes : s.symbols.Has es) {e : Entry}
    (he : s.symbols.objects[e.1]? = some e.2) :
    s.Merged files i (es ++ [e]) (mergeObject files i e.1 s').2 := by
  have he' : s'.symbols.objects[e.1]? = some e.2 := h.objects ▸ he
  have hkey (x : Entry) : decide (x.2.name = e.2.name) = decide (Entry.key x = Entry.key e) :=
    decide_eq_decide.2 Option.some_inj.symm
  by_cases hseen : e.2.name ∈ es.filterMap Entry.key
  · obtain ⟨hinsert, hnames⟩ := h.names.insert_taken he' hseen
    obtain ⟨x, hx, hxk⟩ := List.mem_filterMap.1 hseen
    obtain ⟨y, hy⟩ : ∃ y, es.find? (·.2.name = e.2.name) = some y :=
      Option.isSome_iff_exists.1 (List.find?_isSome.2 ⟨x, hx, by simpa [Entry.key] using hxk⟩)
    have hpos : s'.symbols.posOf y.1 = y.2.pos := by
      unfold SymbolTable.posOf
      rw [h.objects, hes y (List.mem_of_find?_eq_some hy)]
      rfl
    have hstep : (mergeObject files i e.1 s').2 =
        { s' with diagnostics := s'.diagnostics.push (mergeError files (some y) e) } := by
      unfold mergeObject mergeError
      simp only [bind, StateT.bind, get, getThe, MonadStateOf.get, StateT.get, pure, hinsert, hy,
        Option.map_some, he', hpos, Option.getD_some]
      rfl
    rw [hstep]
    refine ⟨hnames, ?_, h.objects, h.scopes⟩
    simp only [hkey] at hy
    have hpush : mergeErrors files (es ++ [e]) =
        mergeErrors files es ++ [mergeError files (es.find? (Entry.key · = e.key)) e] :=
      complaints_push_seen _ (rfl : e.key = some e.2.name) hseen
    show (s'.diagnostics.push _).toList = _
    rw [Array.toList_push, h.diagnostics, hpush, hy, List.append_assoc]
  · obtain ⟨t', hinsert, hnames, hobjects, hscopes⟩ := h.names.insert_new he' hseen
    have hstep : (mergeObject files i e.1 s').2 = { s' with symbols := t' } := by
      unfold mergeObject
      simp only [bind, StateT.bind, get, getThe, MonadStateOf.get, StateT.get, pure, hinsert]
      rfl
    rw [hstep]
    refine ⟨hnames, ?_, hobjects.trans h.objects, fun j hj => (hscopes j hj).trans (h.scopes j hj)⟩
    have hnew (k : String) (hk : Entry.key e = some k) : k ∉ es.filterMap Entry.key :=
      Option.some.inj hk ▸ hseen
    unfold mergeErrors
    rw [complaints_push_new _ hnew]
    exact h.diagnostics

/-! ### One file, one package, all packages -/

namespace LinkState

variable {files : FileSet} {s s' : LinkState} {i : ScopeId} {es : List Entry}

theorem mergeFile_eq (files : FileSet) (i : ScopeId) (f : File) (s : LinkState) :
    mergeFile files i f s = ((), (s.symbols.objectsIn f.scope).foldl
      (fun s id => (mergeObject files i id s).2) s) :=
  Link.forM_eq ..

/-- What a scope names depends on that scope and on the objects only. -/
theorem objectsIn_congr {t t' : SymbolTable} (hobjects : t'.objects = t.objects) {j : ScopeId}
    (hscope : t'.scopes[j]? = t.scopes[j]?) : t'.objectsIn j = t.objectsIn j := by
  have hpos : t'.posOf = t.posOf := by
    funext o
    unfold SymbolTable.posOf
    rw [hobjects]
  unfold SymbolTable.objectsIn
  rw [hscope, hpos]

/-- All that a scope names is there. -/
def Valid (t : SymbolTable) (j : ScopeId) : Prop :=
  (t.entries j).map (·.1) = t.objectsIn j

theorem Merged.entered (h : s.Merged files i es s') (hes : s.symbols.Has es) {xs : List Entry}
    (hxs : s.symbols.Has xs) : s.Merged files i (es ++ xs)
      ((xs.map (·.1)).foldl (fun s id => (mergeObject files i id s).2) s') := by
  induction xs generalizing es s' with
  | nil => rwa [List.append_nil]
  | cons x xs ih =>
    have hx : s.symbols.objects[x.1]? = some x.2 := hxs x List.mem_cons_self
    have hpush : s.symbols.Has (es ++ [x]) := fun e he => (List.mem_append.1 he).elim (hes e)
      fun he => List.mem_singleton.1 he ▸ hx
    have h' := ih (h.object hes hx) hpush fun e he => hxs e (List.mem_cons_of_mem x he)
    rwa [List.append_assoc] at h'

/-- A file is merged. -/
theorem Merged.file (h : s.Merged files i es s') (hes : s.symbols.Has es) {f : File}
    (hf : f.scope ≠ i) (hvalid : Valid s.symbols f.scope) :
    s.Merged files i (es ++ s.symbols.entries f.scope) (mergeFile files i f s').2 := by
  rw [mergeFile_eq, objectsIn_congr h.objects (h.scopes f.scope hf), ← hvalid]
  exact h.entered hes (s.symbols.has_entries f.scope)

theorem Merged.all (h : s.Merged files i es s') (hes : s.symbols.Has es) {fs : List File}
    (hfs : ∀ f ∈ fs, f.scope ≠ i ∧ Valid s.symbols f.scope) :
    s.Merged files i (es ++ fs.flatMap fun f => s.symbols.entries f.scope)
      (fs.foldl (fun s f => (mergeFile files i f s).2) s') := by
  induction fs generalizing es s' with
  | nil => simpa using h
  | cons f fs ih =>
    obtain ⟨hne, hvalid⟩ := hfs f List.mem_cons_self
    have hmore : s.symbols.Has (es ++ s.symbols.entries f.scope) := fun e he =>
      (List.mem_append.1 he).elim (hes e) (s.symbols.has_entries f.scope e)
    have h' := ih (h.file hes hne hvalid) hmore fun x hx => hfs x (List.mem_cons_of_mem f hx)
    rw [List.append_assoc] at h'
    rwa [List.flatMap_cons]

end LinkState

/-- The entries of the files of a package, in the order in which they are merged. -/
def PackageFiles.entries (t : SymbolTable) (g : PackageFiles) : List Entry :=
  g.files.flatMap fun f => t.entries f.scope

/-- After the packages `gs` are merged, when `t` is the table before. -/
structure LinkState.MergedInto (files : FileSet) (t : SymbolTable) (gs : List PackageFiles)
    (s : LinkState) : Prop where
  names : ∀ g ∈ gs, s.symbols.Names g.scope (g.entries t)
  diagnostics : s.diagnostics.toList = gs.flatMap fun g => mergeErrors files (g.entries t)
  objects : s.symbols.objects = t.objects
  scopes : ∀ j, (∀ g ∈ gs, g.scope ≠ j) → s.symbols.scopes[j]? = t.scopes[j]?

/-- Packages that can be merged: their scopes are new, all different, and no scopes of files. -/
structure Mergeable (t : SymbolTable) (gs : List PackageFiles) : Prop where
  fresh : ∀ g ∈ gs, t.scopes[g.scope]? = some { outer := none }
  distinct : gs.Pairwise fun g h => g.scope ≠ h.scope
  apart : ∀ g ∈ gs, ∀ f ∈ g.files, ∀ h ∈ gs, f.scope ≠ h.scope
  valid : ∀ g ∈ gs, ∀ f ∈ g.files, LinkState.Valid t f.scope

/-- All packages are merged, and none of them changes what another one enters. -/
theorem mergeGroups_merged (files : FileSet) {t : SymbolTable} {gs : List PackageFiles}
    (h : Mergeable t gs) : LinkState.MergedInto files t gs
      (gs.forM (fun g => g.files.forM (mergeFile files g.scope)) { symbols := t }).2 := by
  rw [Link.forM_eq]
  induction gs using List.reverseRecOn with
  | nil => exact ⟨fun g hg => absurd hg List.not_mem_nil, rfl, rfl, fun _ _ => rfl⟩
  | append_singleton gs g ih =>
    have hleft {x : PackageFiles} (hx : x ∈ gs) : x ∈ gs ++ [g] := List.mem_append_left _ hx
    have hlast : g ∈ gs ++ [g] := List.mem_append_right _ List.mem_cons_self
    have hother : ∀ x ∈ gs, x.scope ≠ g.scope := fun x hx =>
      (List.pairwise_append.1 h.distinct).2.2 x hx g List.mem_cons_self
    have ih := ih ⟨fun x hx => h.fresh x (hleft hx), (List.pairwise_append.1 h.distinct).1,
      fun x hx f hf y hy => h.apart x (hleft hx) f hf y (hleft hy), fun x hx => h.valid x (hleft hx)⟩
    rw [List.foldl_append, List.foldl_cons, List.foldl_nil, Link.forM_eq]
    generalize gs.foldl _ _ = s at ih
    have hscope {f : File} (hf : f ∈ g.files) : s.symbols.scopes[f.scope]? = t.scopes[f.scope]? :=
      ih.scopes f.scope fun x hx => Ne.symm (h.apart g hlast f hf x (hleft hx))
    have hentries {f : File} (hf : f ∈ g.files) :
        s.symbols.entries f.scope = t.entries f.scope := by
      unfold SymbolTable.entries
      rw [LinkState.objectsIn_congr ih.objects (hscope hf), ih.objects]
    have hempty : s.symbols.Names g.scope [] :=
      (ih.scopes g.scope fun x hx => hother x hx).trans (h.fresh g hlast)
    have hbegin : s.Merged files g.scope [] s := ⟨hempty, by simp [mergeErrors, complaints, repeats],
      rfl, fun _ _ => rfl⟩
    have hfiles : ∀ f ∈ g.files, f.scope ≠ g.scope ∧ LinkState.Valid s.symbols f.scope := fun f hf => by
      refine ⟨h.apart g hlast f hf g hlast, ?_⟩
      unfold LinkState.Valid
      rw [hentries hf, LinkState.objectsIn_congr ih.objects (hscope hf)]
      exact h.valid g hlast f hf
    have hmerged := hbegin.all (fun e he => absurd he List.not_mem_nil) hfiles
    have hall : ([] ++ g.files.flatMap fun f => s.symbols.entries f.scope) = g.entries t := by
      rw [List.nil_append]
      exact List.flatMap_congr fun f hf => hentries hf
    rw [hall] at hmerged
    refine ⟨fun x hx => ?_, ?_, hmerged.objects.trans ih.objects, fun j hj => ?_⟩
    · rcases List.mem_append.1 hx with hx | hx
      · exact (hmerged.scopes x.scope (hother x hx)).trans (ih.names x hx)
      · exact List.mem_singleton.1 hx ▸ hmerged.names
    · rw [hmerged.diagnostics, ih.diagnostics, List.flatMap_append]
      simp
    · rw [hmerged.scopes j (Ne.symm (hj g hlast)), ih.scopes j fun x hx => hj x (hleft hx)]

end Idl
