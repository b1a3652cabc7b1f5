/-
Idl/Proofs/Trace/Names.lean

What comes of the names of a file.

The events of a run decide alone what is known of names in the end (`Run.knows`).  Objects are the
declarations in the order in which they happen, and a scope names the first ones of each name
(`Lists`).  A name that is used stands for what the scope of the file names in the end, no matter
whether it is used before or behind its declaration (`Settles`), and those that the file does not
declare are left over.
-/
import Idl.Proofs.Repeats
import Idl.Proofs.Trace.Tree
import Mathlib.Data.List.Find

namespace Idl

/-! ### The part of a state that names change -/

/-- What is known of names while a file is parsed. -/
structure Names where
  symbols : SymbolTable
  resolutions : Resolutions := {}
  pending : List Ident := []
  qualified : List QualifiedRef := []
  /-- The errors about names that were declared twice. -/
  repeated : List Diagnostic := []

namespace Names

/-- What is known after a declaration. -/
def declare (file : SourceFile) (n : Names) (scope : ScopeId) (o : Object) (i : Ident) : Names :=
  let new := n.symbols.newObject o
  let entered := if i.isBlank then (none, new.2) else new.2.insert scope new.1
  { n with
    symbols := entered.2
    resolutions := n.resolutions.set i.id new.1
    repeated := n.repeated ++
      (entered.1.map fun p => Parse.redeclaredAt file i (entered.2.posOf p)).toList }

/-- What is known after the use of a name. -/
def refer (fileScope : ScopeId) (n : Names) (i : Ident) : Names :=
  if i.isBlank then n
  else match n.symbols.resolve? fileScope i.name with
    | some o => { n with resolutions := n.resolutions.set i.id o }
    | none => { n with pending := n.pending ++ [i] }

/-- What is known after a name event in the given file. -/
def after (file : SourceFile) (fileScope : ScopeId) (n : Names) : NameEvent → Names
  | .enter => { n with symbols := (n.symbols.newScope (some fileScope)).2 }
  | .declare scope kind origin data i => n.declare file scope ⟨kind, i.name, origin, i.pos, data⟩ i
  | .refer i => n.refer fileScope i
  | .qualify q => { n with qualified := n.qualified ++ [q] }

end Names

/-- A state knows of names what `n` says, and besides `reports` nothing else is reported. -/
structure ParseState.Knows (s : ParseState) (n : Names) (reports : List Diagnostic) : Prop where
  symbols : s.symbols = n.symbols
  resolutions : s.resolutions = n.resolutions
  pending : s.pending.toList = n.pending
  qualified : s.qualified.toList = n.qualified
  diagnostics : s.diagnostics.toList.Perm (reports ++ n.repeated)

section Knows

variable {s s' : ParseState} {n : Names} {reports : List Diagnostic} {a : Act} {tr : Trace}

theorem NameEvent.knows (e : NameEvent) (h : s.Knows n reports) :
    (e.run s).2.Knows (n.after s.file s.fileScope e) reports := by
  obtain ⟨hsymbols, hresolutions, hpending, hqualified, hdiagnostics⟩ := h
  cases e with
  | enter =>
    rw [run, Parse.modify_apply]
    exact ⟨by rw [hsymbols]; rfl, hresolutions, hpending, hqualified, hdiagnostics⟩
  | declare scope kind origin data i =>
    rw [run, Parse.declare_snd]
    refine ⟨?_, ?_, hpending, hqualified, ?_⟩
    · rw [hsymbols]; rfl
    · rw [hsymbols, hresolutions]; rfl
    · rw [hsymbols]
      dsimp only [Names.after, Names.declare]
      rw [Array.toList_append, ← List.append_assoc]
      refine hdiagnostics.append (.of_eq ?_)
      generalize Option.map _ _ = r
      cases r <;> rfl
  | refer i =>
    rw [run, Parse.resolveIdent_snd]
    show ParseState.Knows _ (n.refer s.fileScope i) reports
    unfold Names.refer
    split
    · exact ⟨hsymbols, hresolutions, hpending, hqualified, hdiagnostics⟩
    · rw [hsymbols]
      cases n.symbols.resolve? s.fileScope i.name with
      | some o =>
        exact ⟨rfl, congrArg (Resolutions.set · i.id o) hresolutions, hpending, hqualified,
          hdiagnostics⟩
      | none =>
        refine ⟨rfl, hresolutions, ?_, hqualified, hdiagnostics⟩
        rw [Array.toList_push, hpending]
  | qualify q =>
    rw [run, Parse.modify_apply]
    refine ⟨hsymbols, hresolutions, hpending, ?_, hdiagnostics⟩
    rw [Array.toList_push, hqualified]
    rfl

theorem Step.knows (st : Step s a s') (h : s.Knows n reports) :
    s'.Knows ((a.event?.toList).foldl (Names.after s.file s.fileScope) n)
      (reports ++ a.report?.toList) := by
  cases st with
  | handle e =>
    rw [show (Act.handle e).report?.toList = [] from rfl, List.append_nil]
    exact e.knows h
  | @report d =>
    refine ⟨h.symbols, h.resolutions, h.pending, h.qualified, ?_⟩
    rw [Array.toList_push, List.append_assoc]
    exact (h.diagnostics.append_right [d]).trans
      (by rw [List.append_assoc]; exact (List.perm_append_comm).append_left reports)
  | _ =>
    refine ⟨h.symbols, h.resolutions, h.pending, h.qualified, ?_⟩
    show s.diagnostics.toList.Perm (reports ++ [] ++ n.repeated)
    rw [List.append_nil]
    exact h.diagnostics

/-- Only what happens to names decides what is known of them. -/
theorem Run.knows (r : Run s tr s') (h : s.Knows n reports) :
    s'.Knows ((Trace.events tr).foldl (Names.after s.file s.fileScope) n)
      (reports ++ Trace.reports tr) := by
  induction r generalizing n reports with
  | nil => simpa [Trace.events, Trace.reports] using h
  | @cons s s' s'' a tr st r ih =>
    have hevents : Trace.events (a :: tr) = a.event?.toList ++ Trace.events tr := by
      unfold Trace.events
      cases ha : a.event? <;> simp [ha]
    have hreports : Trace.reports (a :: tr) = a.report?.toList ++ Trace.reports tr := by
      unfold Trace.reports
      cases ha : a.report? <;> simp [ha]
    obtain ⟨hfile, -, hscope, -⟩ := st.frame
    have h' := ih (st.knows h)
    rw [hfile, hscope] at h'
    rw [hevents, hreports, List.foldl_append, ← List.append_assoc]
    exact h'

end Knows

/-! ### Declarations -/

/-- An object that is declared, and the scope for which it is. -/
abbrev Declaration := ScopeId × Object

/-- What counts as the same name: the name in its scope.  The blank name is none. -/
def Declaration.key (d : Declaration) : Option (ScopeId × String) :=
  if d.2.name = "_" then none else some (d.1, d.2.name)

/-- What a name event declares. -/
def NameEvent.declaration? : NameEvent → Option Declaration
  | .declare scope kind origin data i => some (scope, ⟨kind, i.name, origin, i.pos, data⟩)
  | _ => none

/-- The declarations that enter their scopes, with their numbers. -/
def entered (ds : List Declaration) : List (Declaration × ObjectId) :=
  firsts (fun e => Declaration.key e.1) [] ds.zipIdx

theorem Declaration.key_eq_some {d : Declaration} {scope : ScopeId} {name : String} :
    d.key = some (scope, name) ↔ d.1 = scope ∧ d.2.name = name ∧ name ≠ "_" := by
  unfold key
  split
  · next h => simp [h]; exact fun _ h' => h'.symm
  · next h =>
    rw [Option.some.injEq, Prod.mk.injEq]
    exact ⟨fun h' => ⟨h'.1, h'.2, h'.2 ▸ h⟩, fun h' => ⟨h'.1, h'.2.1⟩⟩

theorem entered_push (ds : List Declaration) (d : Declaration) :
    entered (ds ++ [d]) = entered ds ++
      firsts (fun e => Declaration.key e.1) (ds.filterMap Declaration.key) [(d, ds.length)] := by
  unfold entered
  rw [List.zipIdx_append, firsts_append, List.nil_append]
  congr 2
  · conv_rhs => rw [← List.zipIdx_map_fst 0 ds, List.filterMap_map]
    rfl
  · rw [Nat.zero_add]; rfl

/-- A declaration with no name, or with one that is there, enters no scope. -/
theorem entered_push_seen {ds : List Declaration} {d : Declaration}
    (h : ∀ k, d.key = some k → k ∈ ds.filterMap Declaration.key) :
    entered (ds ++ [d]) = entered ds := by
  rw [entered_push]
  cases hk : d.key with
  | none =>
    rw [firsts_cons_none (φ := fun e => Declaration.key e.1) (x := (d, ds.length)) hk]
    exact List.append_nil _
  | some k =>
    rw [firsts_cons_seen (φ := fun e => Declaration.key e.1) (x := (d, ds.length)) hk (h k hk)]
    exact List.append_nil _

theorem entered_push_new {ds : List Declaration} {d : Declaration} {k : ScopeId × String}
    (hk : d.key = some k) (h : k ∉ ds.filterMap Declaration.key) :
    entered (ds ++ [d]) = entered ds ++ [(d, ds.length)] := by
  rw [entered_push,
    firsts_cons_new (φ := fun e => Declaration.key e.1) (x := (d, ds.length)) hk h]
  rfl

/-- The table holds the declarations in order, and its scopes name the first one of each name. -/
structure SymbolTable.Lists (t : SymbolTable) (ds : List Declaration) : Prop where
  objects : t.objects.toList = ds.map (·.2)
  names : ∀ {i : ScopeId} {s : Scope}, t.scopes[i]? = some s → s.names =
    (((entered ds).filter fun e => e.1.1 = i).map fun e => (e.1.2.name, e.2)).reverse
  bounded : ∀ d ∈ ds, d.1 < t.scopes.size

namespace SymbolTable.Lists

variable {t : SymbolTable} {ds : List Declaration} {i : ScopeId}

theorem objects_size (h : t.Lists ds) : t.objects.size = ds.length := by
  rw [← Array.length_toList, h.objects, List.length_map]

/-- A scope has the first declaration of each name. -/
theorem lookup? (h : t.Lists ds) (i : ScopeId) (name : String) :
    t.lookup? i name = ds.findIdx? fun d => d.key = some (i, name) := by
  unfold SymbolTable.lookup?
  cases hs : t.scopes[i]? with
  | none =>
    refine (List.findIdx?_eq_none_iff.2 fun d hd => decide_eq_false fun hkey => ?_).symm
    obtain ⟨rfl, -⟩ := Declaration.key_eq_some.1 hkey
    have hlt := h.bounded d hd
    rw [Array.getElem?_eq_getElem hlt] at hs
    cases hs
  | some s =>
    have hkeyed {e : Declaration × ObjectId} (he : e ∈ entered ds) :
        (decide (e.1.1 = i) && decide (e.1.2.name = name)) = decide (e.1.key = some (i, name)) := by
      obtain ⟨k, hk, -⟩ := (firsts_keys [] ds.zipIdx).2 e he
      obtain ⟨-, hname, hblank⟩ := Declaration.key_eq_some.1 hk
      rw [Bool.eq_iff_iff, Bool.and_eq_true, decide_eq_true_iff, decide_eq_true_iff,
        decide_eq_true_iff, Declaration.key_eq_some]
      exact ⟨fun h => ⟨h.1, h.2, h.2 ▸ hname ▸ hblank⟩, fun h => ⟨h.1, h.2.1⟩⟩
    have hunique : ∀ x ∈ s.names, ∀ y ∈ s.names, decide (x.1 = name) = true →
        decide (y.1 = name) = true → y = x := by
      rw [h.names hs]
      intro x hx y hy hxn hyn
      obtain ⟨a, ha, rfl⟩ := List.mem_map.1 (List.mem_reverse.1 hx)
      obtain ⟨b, hb, rfl⟩ := List.mem_map.1 (List.mem_reverse.1 hy)
      obtain ⟨ha, hai⟩ := List.mem_filter.1 ha
      obtain ⟨hb, hbi⟩ := List.mem_filter.1 hb
      have haKey := hkeyed ha
      have hbKey := hkeyed hb
      rw [hai, hxn] at haKey
      rw [hbi, hyn] at hbKey
      have hab : b = a := firsts_unique ha hb
        ((of_decide_eq_true haKey.symm).trans (of_decide_eq_true hbKey.symm).symm)
      rw [hab]
    have hperm := List.reverse_perm (((entered ds).filter fun e => e.1.1 = i).map
      fun e => (e.1.2.name, e.2))
    rw [← h.names hs] at hperm
    show (s.names.find? (·.1 = name)).map (·.2) = _
    rw [find?_eq_of_perm hperm hunique, List.find?_map, List.find?_filter, Option.map_map,
      List.findIdx?_eq_fst_find?_zipIdx]
    rw [List.find?_congr fun e he => (by simpa using hkeyed he)]
    have hfirst : (entered ds).find? (fun e => decide (e.1.key = some (i, name))) =
        ds.zipIdx.find? fun e => decide (e.1.key = some (i, name)) :=
      find?_firsts List.not_mem_nil _
    rw [hfirst]
    rfl

/-- The object of a name is that of the first declaration. -/
theorem getElem?_objects (h : t.Lists ds) (k : ObjectId) :
    t.objects[k]? = ds[k]?.map (·.2) := by
  rw [← Array.getElem?_toList, h.objects, List.getElem?_map]

/-- A new scope names nothing. -/
theorem newScope (h : t.Lists ds) (outer : Option ScopeId) : (t.newScope outer).2.Lists ds where
  objects := h.objects
  names {i s} hs := by
    have hs : (t.scopes.push { outer := outer })[i]? = some s := hs
    rw [Array.getElem?_push] at hs
    split at hs
    · next hi =>
      have hnone : ((entered ds).filter fun e => decide (e.1.1 = i)) = [] := by
        refine List.filter_eq_nil_iff.2 fun e he => ?_
        have hmem : e.1 ∈ ds := by
          have := List.mem_map_of_mem (f := Prod.fst) ((firsts_sublist [] ds.zipIdx).subset he)
          rwa [List.zipIdx_map_fst] at this
        have hlt := h.bounded _ hmem
        simp only [decide_eq_true_eq]
        exact fun heq => Nat.ne_of_lt hlt (heq.trans hi)
      rw [← Option.some.inj hs, hnone]
      rfl
    · exact h.names hs
  bounded d hd := by
    show d.1 < (t.scopes.push _).size
    rw [Array.size_push]
    exact Nat.lt_succ_of_lt (h.bounded d hd)

/-- An object that no scope names. -/
theorem newObject (h : t.Lists ds) {d : Declaration} (hd : d.1 < t.scopes.size)
    (hseen : ∀ k, d.key = some k → k ∈ ds.filterMap Declaration.key) :
    (t.newObject d.2).2.Lists (ds ++ [d]) where
  objects := by
    show (t.objects.push d.2).toList = _
    rw [Array.toList_push, h.objects, List.map_append]
    rfl
  names {i s} hs := by
    rw [entered_push_seen hseen]
    exact h.names hs
  bounded e he := by
    rcases List.mem_append.1 he with he | he
    · exact h.bounded e he
    · exact List.mem_singleton.1 he ▸ hd

/-- Naming an object that is declared last. -/
theorem insert (h : t.Lists ds) {d : Declaration} (hd : d.1 < t.scopes.size)
    (hname : d.2.name ≠ "_") :
    let r := (t.newObject d.2).2.insert d.1 t.objects.size
    r.1 = ds.findIdx? (fun e => e.key = d.key) ∧ r.2.Lists (ds ++ [d]) := by
  have hkey : d.key = some (d.1, d.2.name) := Declaration.key_eq_some.2 ⟨rfl, rfl, hname⟩
  have hnew : (t.newObject d.2).2.objects[t.objects.size]? = some d.2 := Array.getElem?_push_size
  have hlookup : (t.newObject d.2).2.lookup? d.1 d.2.name = ds.findIdx? fun e => e.key = d.key := by
    rw [hkey]
    exact h.lookup? d.1 d.2.name
  unfold SymbolTable.insert
  simp only [hnew, hlookup]
  cases hfound : ds.findIdx? fun e => decide (e.key = d.key) with
  | some k =>
    refine ⟨rfl, h.newObject hd fun k' hk' => ?_⟩
    obtain ⟨hlt, hk, -⟩ := List.findIdx?_eq_some_iff_getElem.1 hfound
    exact List.mem_filterMap.2 ⟨ds[k], List.getElem_mem hlt, (of_decide_eq_true hk).trans hk'⟩
  | none =>
    have hfresh : (d.1, d.2.name) ∉ ds.filterMap Declaration.key := fun hmem => by
      obtain ⟨e, he, hek⟩ := List.mem_filterMap.1 hmem
      exact of_decide_eq_false (List.findIdx?_eq_none_iff.1 hfound e he) (hek.trans hkey.symm)
    have hentered := entered_push_new hkey hfresh
    refine ⟨rfl, ?_, fun {i s} hs => ?_, fun e he => ?_⟩
    · show (t.objects.push d.2).toList = _
      rw [Array.toList_push, h.objects, List.map_append]
      rfl
    · have hs : (t.scopes.modify d.1 fun s =>
          { s with names := (d.2.name, t.objects.size) :: s.names })[i]? = some s := hs
      rw [Array.getElem?_modify] at hs
      rw [hentered, List.filter_append]
      split at hs
      · next hi =>
        obtain ⟨s', hs', rfl⟩ := Option.map_eq_some_iff.1 hs
        have hlast : [(d, ds.length)].filter (fun e => decide (e.1.1 = i)) = [(d, ds.length)] := by
          simp [hi]
        rw [hlast, List.map_append, List.reverse_append, ← h.names hs', ← h.objects_size]
        rfl
      · next hi =>
        have hlast : [(d, ds.length)].filter (fun e => decide (e.1.1 = i)) = [] := by simp [hi]
        rw [hlast, List.append_nil]
        exact h.names hs
    · show e.1 < (t.scopes.modify _ _).size
      rw [Array.size_modify]
      rcases List.mem_append.1 he with he | he
      · exact h.bounded e he
      · exact List.mem_singleton.1 he ▸ hd

end SymbolTable.Lists

theorem SymbolTable.scopes_size_insert (t : SymbolTable) (i : ScopeId) (o : ObjectId) :
    (t.insert i o).2.scopes.size = t.scopes.size := by
  unfold insert
  split
  · rfl
  · split
    · rfl
    · exact Array.size_modify

/-! ### Names that are declared twice -/

/-- The error about an object whose name one at `previous` has. -/
def Object.redeclaredAt (file : SourceFile) (o : Object) (previous : Pos) : Diagnostic :=
  .error (redeclaredMessage o.name
    (if previous.isValid then some (file.position previous) else none))
    (.ofWidth o.pos o.name.utf8ByteSize)

/-- The position of the first declaration of the same name. -/
def Declaration.firstPos (ds : List Declaration) (d : Declaration) : Pos :=
  ((ds.find? fun e => e.key = d.key).map (·.2.pos)).getD 0

/-- The error about a declaration of whose name `first` is the first one. -/
def redeclaration (file : SourceFile) (first : Option Declaration) (d : Declaration) : Diagnostic :=
  d.2.redeclaredAt file ((first.map (·.2.pos)).getD 0)

/-- The errors about the declarations of a file. -/
def redeclarations (file : SourceFile) (ds : List Declaration) : List Diagnostic :=
  complaints Declaration.key (redeclaration file) ds

theorem redeclarations_push_new (file : SourceFile) {ds : List Declaration} {d : Declaration}
    (h : ∀ k, d.key = some k → k ∉ ds.filterMap Declaration.key) :
    redeclarations file (ds ++ [d]) = redeclarations file ds :=
  complaints_push_new _ h

theorem redeclarations_push_seen (file : SourceFile) {ds : List Declaration} {d : Declaration}
    {k : ScopeId × String} (hk : d.key = some k) (h : k ∈ ds.filterMap Declaration.key) :
    redeclarations file (ds ++ [d]) =
      redeclarations file ds ++ [d.2.redeclaredAt file (d.firstPos ds)] :=
  complaints_push_seen _ hk h

/-- What is known of declared names comes from the declarations `ds`. -/
structure Names.Declares (file : SourceFile) (n : Names) (ds : List Declaration) : Prop where
  lists : n.symbols.Lists ds
  repeated : n.repeated = redeclarations file ds

/-- A declaration is added to those before it. -/
theorem Names.Declares.declare {file : SourceFile} {n : Names} {ds : List Declaration}
    (h : n.Declares file ds) {d : Declaration} {i : Ident} (hd : d.1 < n.symbols.scopes.size)
    (hname : d.2.name = i.name) (hpos : d.2.pos = i.pos) :
    (n.declare file d.1 d.2 i).Declares file (ds ++ [d]) ∧
      (n.declare file d.1 d.2 i).symbols.scopes.size = n.symbols.scopes.size := by
  obtain ⟨scope, o⟩ := d
  unfold Names.declare
  cases hb : i.isBlank with
  | true =>
    have hnone : Declaration.key (scope, o) = none := if_pos (hname.trans (of_decide_eq_true hb))
    have hkey (k : ScopeId × String) : ¬ Declaration.key (scope, o) = some k := by simp [hnone]
    refine ⟨⟨h.lists.newObject hd fun k hk => absurd hk (hkey k), ?_⟩, rfl⟩
    rw [redeclarations_push_new file fun k hk => absurd hk (hkey k), ← h.repeated]
    exact List.append_nil _
  | false =>
    have hne : o.name ≠ "_" := fun h' => of_decide_eq_false hb (hname.symm.trans h')
    have hkey : Declaration.key (scope, o) = some (scope, o.name) :=
      Declaration.key_eq_some.2 ⟨rfl, rfl, hne⟩
    obtain ⟨hexisting, hlists⟩ := h.lists.insert (d := (scope, o)) hd hne
    refine ⟨⟨hlists, ?_⟩, ?_⟩
    · show n.repeated ++ (Option.map _ ((n.symbols.newObject o).2.insert scope
        n.symbols.objects.size).1).toList = _
      rw [hexisting]
      cases hfound : ds.findIdx? fun e => decide (e.key = Declaration.key (scope, o)) with
      | none =>
        have hnew (k : ScopeId × String) (hk : Declaration.key (scope, o) = some k) :
            k ∉ ds.filterMap Declaration.key := fun hmem => by
          obtain ⟨e, he, hek⟩ := List.mem_filterMap.1 hmem
          exact of_decide_eq_false (List.findIdx?_eq_none_iff.1 hfound e he) (hek.trans hk.symm)
        rw [redeclarations_push_new file hnew, ← h.repeated]
        exact List.append_nil _
      | some k =>
        obtain ⟨hlt, hk, -⟩ := List.findIdx?_eq_some_iff_getElem.1 hfound
        have hseen : (scope, o.name) ∈ ds.filterMap Declaration.key :=
          List.mem_filterMap.2 ⟨ds[k], List.getElem_mem hlt, (of_decide_eq_true hk).trans hkey⟩
        have hfirst : ds.find? (fun e => decide (e.key = Declaration.key (scope, o))) =
            some ds[k] := by
          rw [List.find?_eq_bind_findIdx?_getElem?, hfound]
          exact List.getElem?_eq_getElem hlt
        have hprevious : ((n.symbols.newObject o).2.insert scope
            (n.symbols.newObject o).1).2.posOf k = Declaration.firstPos ds (scope, o) := by
          show ((n.symbols.newObject o).2.insert scope n.symbols.objects.size).2.posOf k = _
          unfold SymbolTable.posOf Declaration.firstPos
          rw [hlists.getElem?_objects, List.getElem?_append_left hlt, hfirst,
            List.getElem?_eq_getElem hlt]
          rfl
        rw [redeclarations_push_seen file hkey hseen, ← h.repeated]
        simp only [Option.map_some, Option.toList_some]
        congr 2
        unfold Parse.redeclaredAt Object.redeclaredAt Ident.span
        rw [if_neg Bool.false_ne_true, hprevious, ← hname, ← hpos]
    · exact SymbolTable.scopes_size_insert ..

end Idl
