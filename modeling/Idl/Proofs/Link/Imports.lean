/-
Idl/Proofs/Link/Imports.lean

What the imports of a file bind.

An import finds a package if its path names one of the packages that are linked
(`ImportSpec.target?`).  What it binds then is said without any state: a local name
(`ImportSpec.binding?`), a scope in which pending names are looked up (`ImportSpec.dotted?`), and the
object of its alias (`ImportSpec.settleAlias`).  `bindImports_bound` is that for all imports of a
file, one after the other.
-/
import Idl.Proofs.Link.Merge

namespace Idl

/-! ### Imports as they are written -/

namespace ImportSpec

/-- The identifier that an import gives its package as a local name. -/
def local? (spec : ImportSpec) : Option Ident :=
  spec.localName.filter fun i => i.name ≠ "." && !i.isBlank

/-- The name that stands for the package in the file. -/
def binds? (spec : ImportSpec) : Option String :=
  match spec.localName with
  | none => spec.id?
  | some _ => spec.local?.map (·.name)

/-- Whether the names of the package are imported. -/
def isDotted (spec : ImportSpec) : Bool := spec.localName.any (·.name = ".")

section Found

variable (scopes : NameMap ScopeId) (imports : NameMap ObjectId) (spec : ImportSpec)

/-- The id and the scope of the package that is found. -/
def target? : Option (String × ScopeId) :=
  spec.id?.bind fun id => (scopes.find? id).map (id, ·)

/-- The local name that is bound, with the object and the scope of its package. -/
def binding? : Option (String × ObjectId × ScopeId) :=
  (spec.target? scopes).bind fun (id, scope) =>
    (imports.find? id).bind fun object => spec.binds?.map (·, object, scope)

/-- The scope of the package whose names are imported. -/
def dotted? : Option ScopeId := if spec.isDotted then (spec.target? scopes).map (·.2) else none

/-- Records what the local name of the package stands for. -/
def settleAlias (r : Resolutions) : Resolutions :=
  match spec.local?, (spec.target? scopes).bind fun (id, _) => imports.find? id with
  | some i, some object => r.set i.id object
  | _, _ => r

/-- The error about a package that is not there. -/
def notFound (id : String) : Diagnostic :=
  .error ("package \x60" ++ id ++ "\x60 not found") spec.path.span

/-- What is reported about an import. -/
def errors : List Diagnostic :=
  match spec.id? with
  | some id => if (scopes.find? id).isSome then [] else [spec.notFound id]
  | none => []

end Found

end ImportSpec

/-! ### Imports that find a package -/

section Target

variable {scopes : NameMap ScopeId} {imports : NameMap ObjectId} (spec : ImportSpec) {id : String}
  {scope : ScopeId} (ht : spec.target? scopes = some (id, scope))
include ht

theorem ImportSpec.binding?_found {object : ObjectId} (hobject : imports.find? id = some object) :
    spec.binding? scopes imports = spec.binds?.map (·, object, scope) := by
  unfold binding?
  rw [ht]
  show (imports.find? id).bind _ = _
  rw [hobject]
  rfl

theorem ImportSpec.dotted?_found :
    spec.dotted? scopes = if spec.isDotted then some scope else none := by
  unfold dotted?
  rw [ht]
  rfl

theorem ImportSpec.errors_found : spec.errors scopes = [] := by
  obtain ⟨k, hk, hscope⟩ := Option.bind_eq_some_iff.1 ht
  obtain ⟨i, hi, -⟩ := Option.map_eq_some_iff.1 hscope
  unfold errors
  simp only [hk, hi, Option.isSome_some, if_true]

end Target

/-! ### Objects of packages -/

/-- Whatever the first map has, the second one has too. -/
def NameMap.Within {α : Type} (m m' : NameMap α) : Prop :=
  ∀ {k : String} {v : α}, m.find? k = some v → m'.find? k = some v

/-- Ids of packages stand for objects of these packages. -/
def SymbolTable.Imports (t : SymbolTable) (imports : NameMap ObjectId) : Prop :=
  ∀ {id : String} {o : ObjectId}, imports.find? id = some o →
    ∃ pos, t.objects[o]? = some ⟨.package, id, .package id, pos, none⟩

theorem SymbolTable.Within.imports {t t' : SymbolTable} (h : t.Within t') {imports : NameMap ObjectId}
    (hi : t.Imports imports) : t'.Imports imports := fun hid => by
  obtain ⟨pos, ho⟩ := hi hid
  exact ⟨pos, h.objects ho⟩

/-- A new object changes nothing that is there. -/
theorem SymbolTable.within_newObject (t : SymbolTable) (o : Object) : t.Within (t.newObject o).2 where
  scopes := id
  objects h := by
    show (t.objects.push o)[_]? = _
    rw [Array.getElem?_push, if_neg (Nat.ne_of_lt (Array.getElem?_eq_some_iff.1 h).1)]
    exact h

/-- The table grows by objects only. -/
structure SymbolTable.Extends (t t' : SymbolTable) : Prop where
  within : t.Within t'
  scopes : t'.scopes = t.scopes

theorem SymbolTable.Extends.refl (t : SymbolTable) : t.Extends t := ⟨.refl t, rfl⟩

theorem SymbolTable.Extends.trans {t t' t'' : SymbolTable} (h : t.Extends t') (h' : t'.Extends t'') :
    t.Extends t'' :=
  ⟨h.within.trans h'.within, h'.scopes.trans h.scopes⟩

theorem SymbolTable.Extends.lookup? {t t' : SymbolTable} (h : t.Extends t') (i : ScopeId)
    (name : String) : t'.lookup? i name = t.lookup? i name := by
  unfold SymbolTable.lookup?
  rw [h.scopes]

/-- The object of a package is found, or else created. -/
theorem importedObject_spec (imports : NameMap ObjectId) (id : String) (pos : Pos) (s : LinkState) :
    ∃ object imports' t, importedObject imports id pos s =
        ((object, imports'), { s with symbols := t }) ∧
      s.symbols.Extends t ∧ imports.Within imports' ∧
      (∀ k, imports'.find? k = if k = id then some object else imports.find? k) ∧
      (s.symbols.Imports imports → t.Imports imports') := by
  cases h : imports.find? id with
  | some object =>
    refine ⟨object, imports, s.symbols, ?_, .refl _, fun hk => hk, fun k => ?_, fun hi => hi⟩
    · unfold importedObject
      rw [h]
      rfl
    · split
      · next hk => rw [hk, h]
      · rfl
  | none =>
    refine ⟨s.symbols.objects.size, imports.insert id s.symbols.objects.size,
      (s.symbols.newObject ⟨.package, id, .package id, pos, none⟩).2, ?_,
      ⟨s.symbols.within_newObject _, rfl⟩, fun {k v} hk => ?_, fun k => ?_, fun hi k o hk => ?_⟩
    · unfold importedObject
      rw [h]
      rfl
    · rw [NameMap.find?_insert]
      split
      · next hkid => rw [hkid, h] at hk; cases hk
      · exact hk
    · exact NameMap.find?_insert ..
    · rw [NameMap.find?_insert] at hk
      split at hk
      · next hkid =>
        rw [← Option.some.inj hk, hkid]
        exact ⟨pos, Array.getElem?_push_size⟩
      · exact (s.symbols.within_newObject _).imports hi hk

/-- What is bound after one more import, which has found a package with the given object. -/
def BindState.found (b : BindState) (spec : ImportSpec) (object : ObjectId) (scope : ScopeId)
    (imports : NameMap ObjectId) : BindState where
  imports := imports
  bindings :=
    { named := (spec.binds?.map (·, object, scope)).toList ++ b.bindings.named
      dotted := b.bindings.dotted ++ if spec.isDotted then [scope] else [] }
  resolutions := match spec.local? with
    | some i => b.resolutions.set i.id object
    | none => b.resolutions

/-- An import that finds a package binds what its local name says. -/
theorem bindImport_found {scopes : NameMap ScopeId} {b : BindState} {spec : ImportSpec}
    {s : LinkState} {id : String} {scope : ScopeId} (hid : spec.id? = some id)
    (hscope : scopes.find? id = some scope) {object : ObjectId} {imports : NameMap ObjectId}
    {t : SymbolTable} (himported : importedObject b.imports id spec.begin s =
      ((object, imports), { s with symbols := t })) :
    bindImport scopes b spec s = (b.found spec object scope imports, { s with symbols := t }) := by
  unfold bindImport
  simp only [hid, hscope]
  rw [Link.bind_eq himported]
  unfold BindState.found ImportSpec.binds? ImportSpec.isDotted ImportSpec.local?
  cases hlocal : spec.localName with
  | none => simp [hid]; rfl
  | some i =>
    by_cases hdot : i.name = "."
    · simp [hdot, Option.filter]; rfl
    by_cases hblank : i.isBlank = true
    · simp [hdot, hblank, Option.filter]; rfl
    · simp [hdot, hblank, Option.filter]; rfl

/-! ### One import after the other -/

/-- What is bound after the imports `specs`, when `s` and `start` were there before. -/
structure Bound (scopes : NameMap ScopeId) (start : BindState) (s : LinkState)
    (specs : List ImportSpec) (b : BindState) (s' : LinkState) : Prop where
  imports : start.imports.Within b.imports
  /-- The packages that are found have objects. -/
  found : ∀ id, (b.imports.find? id).isSome = true ↔ (start.imports.find? id).isSome = true ∨
    ∃ spec ∈ specs, ∃ scope, spec.target? scopes = some (id, scope)
  named : b.bindings.named =
    (specs.filterMap (ImportSpec.binding? scopes b.imports)).reverse ++ start.bindings.named
  dotted : b.bindings.dotted = start.bindings.dotted ++ specs.filterMap (ImportSpec.dotted? scopes)
  resolutions : b.resolutions =
    specs.foldl (fun r spec => spec.settleAlias scopes b.imports r) start.resolutions
  symbols : s.symbols.Extends s'.symbols
  objects : s.symbols.Imports start.imports → s'.symbols.Imports b.imports
  diagnostics : s'.diagnostics.toList =
    s.diagnostics.toList ++ specs.flatMap (ImportSpec.errors scopes)

section Stable

variable {scopes : NameMap ScopeId} {imports imports' : NameMap ObjectId} {spec : ImportSpec}

/-- Once a package has an object, more objects change nothing. -/
theorem ImportSpec.object_within (h : imports.Within imports')
    (hfound : ∀ id scope, spec.target? scopes = some (id, scope) → (imports.find? id).isSome = true)
    {id : String} {scope : ScopeId} (ht : spec.target? scopes = some (id, scope)) :
    imports'.find? id = imports.find? id := by
  obtain ⟨o, ho⟩ := Option.isSome_iff_exists.1 (hfound id scope ht)
  rw [ho, h ho]

theorem ImportSpec.binding?_within (h : imports.Within imports')
    (hfound : ∀ id scope, spec.target? scopes = some (id, scope) → (imports.find? id).isSome = true) :
    spec.binding? scopes imports' = spec.binding? scopes imports := by
  unfold binding?
  cases ht : spec.target? scopes with
  | none => rfl
  | some x =>
    show (imports'.find? x.1).bind _ = (imports.find? x.1).bind _
    rw [object_within h hfound ht]

theorem ImportSpec.settleAlias_within (h : imports.Within imports')
    (hfound : ∀ id scope, spec.target? scopes = some (id, scope) → (imports.find? id).isSome = true)
    (r : Resolutions) : spec.settleAlias scopes imports' r = spec.settleAlias scopes imports r := by
  unfold settleAlias
  cases ht : spec.target? scopes with
  | none => rfl
  | some x =>
    have hsame := object_within h hfound ht
    simp only [Option.bind_some, hsame]

end Stable

namespace Bound

variable {scopes : NameMap ScopeId} {start : BindState} {s s' : LinkState} {specs : List ImportSpec}
  {b : BindState}

theorem nothing (scopes : NameMap ScopeId) (start : BindState) (s : LinkState) :
    Bound scopes start s [] start s where
  imports := fun hk => hk
  found id := by simp
  named := rfl
  dotted := (List.append_nil _).symm
  resolutions := rfl
  symbols := .refl _
  objects := fun hi => hi
  diagnostics := (List.append_nil _).symm

/-- What is known after one more import, which has found no package. -/
theorem lost (h : Bound scopes start s specs b s') {spec : ImportSpec}
    (hlost : spec.target? scopes = none) {s'' : LinkState} (hsymbols : s''.symbols = s'.symbols)
    (hd : s''.diagnostics.toList = s'.diagnostics.toList ++ spec.errors scopes) :
    Bound scopes start s (specs ++ [spec]) b s'' where
  imports := h.imports
  found id := by
    rw [h.found id]
    refine or_congr_right ⟨fun ⟨x, hx, hid⟩ => ⟨x, List.mem_append_left _ hx, hid⟩, ?_⟩
    rintro ⟨x, hx, scope, hid⟩
    rcases List.mem_append.1 hx with hx | hx
    · exact ⟨x, hx, scope, hid⟩
    · rw [List.mem_singleton.1 hx, hlost] at hid
      cases hid
  named := by
    have hnone : spec.binding? scopes b.imports = none := by
      unfold ImportSpec.binding?
      rw [hlost]
      rfl
    rw [h.named, List.filterMap_append, List.filterMap_cons_none hnone]
    simp
  dotted := by
    have hnone : spec.dotted? scopes = none := by
      unfold ImportSpec.dotted?
      rw [hlost]
      exact ite_self _
    rw [h.dotted, List.filterMap_append, List.filterMap_cons_none hnone]
    simp
  resolutions := by
    have hsame (r : Resolutions) : spec.settleAlias scopes b.imports r = r := by
      unfold ImportSpec.settleAlias
      rw [hlost]
      cases spec.local? <;> rfl
    rw [h.resolutions, List.foldl_append, List.foldl_cons, List.foldl_nil, hsame]
  symbols := hsymbols ▸ h.symbols
  objects hi := hsymbols ▸ h.objects hi
  diagnostics := by
    rw [hd, h.diagnostics, List.flatMap_append, List.append_assoc]
    simp

/-- What is known after one more import, which has found a package with the given object. -/
theorem bind (h : Bound scopes start s specs b s') {spec : ImportSpec} {id : String}
    {scope : ScopeId} (ht : spec.target? scopes = some (id, scope)) {object : ObjectId}
    {imports : NameMap ObjectId} {t : SymbolTable} (ht' : s'.symbols.Extends t)
    (hwithin : b.imports.Within imports)
    (hfind : ∀ k, imports.find? k = if k = id then some object else b.imports.find? k)
    (hobjects : s'.symbols.Imports b.imports → t.Imports imports) :
    Bound scopes start s (specs ++ [spec]) (b.found spec object scope imports)
      { s' with symbols := t } := by
  have hobject : imports.find? id = some object := (hfind id).trans (if_pos rfl)
  -- packages that were found before have objects already, which stay
  have hstable {x : ImportSpec} (hx : x ∈ specs) (k : String) (i : ScopeId)
      (hk : x.target? scopes = some (k, i)) : (b.imports.find? k).isSome = true :=
    (h.found k).2 (.inr ⟨x, hx, i, hk⟩)
  have hfound (k : String) : (imports.find? k).isSome = true ↔
      (start.imports.find? k).isSome = true ∨
        ∃ x ∈ specs ++ [spec], ∃ i, x.target? scopes = some (k, i) := by
    rw [hfind]
    split
    · next hk =>
      refine ⟨fun _ => .inr ⟨spec, List.mem_append_right _ List.mem_cons_self, scope, hk ▸ ht⟩,
        fun _ => rfl⟩
    · next hk =>
      rw [h.found k]
      refine or_congr_right ⟨fun ⟨x, hx, hid⟩ => ⟨x, List.mem_append_left _ hx, hid⟩, ?_⟩
      rintro ⟨x, hx, i, hid⟩
      rcases List.mem_append.1 hx with hx | hx
      · exact ⟨x, hx, i, hid⟩
      · rw [List.mem_singleton.1 hx, ht] at hid
        exact absurd (Prod.mk.inj (Option.some.inj hid)).1.symm hk
  have hnamed : (spec.binds?.map (·, object, scope)).toList ++ b.bindings.named =
      ((specs ++ [spec]).filterMap (ImportSpec.binding? scopes imports)).reverse ++
        start.bindings.named := by
    have hold : specs.filterMap (ImportSpec.binding? scopes imports) =
        specs.filterMap (ImportSpec.binding? scopes b.imports) :=
      List.filterMap_congr fun x hx => ImportSpec.binding?_within hwithin (hstable hx)
    rw [h.named, List.filterMap_append, List.reverse_append, hold, List.append_assoc]
    congr 1
    rw [← spec.binding?_found ht hobject]
    cases hb : spec.binding? scopes imports <;> simp [hb]
  have hdotted : b.bindings.dotted ++ (if spec.isDotted then [scope] else []) =
      start.bindings.dotted ++ (specs ++ [spec]).filterMap (ImportSpec.dotted? scopes) := by
    rw [h.dotted, List.filterMap_append, List.append_assoc]
    congr 2
    have hone := spec.dotted?_found ht
    cases hd : spec.isDotted <;> simp [hone, hd]
  have hresolutions : (b.found spec object scope imports).resolutions =
      (specs ++ [spec]).foldl (fun r x => x.settleAlias scopes imports r) start.resolutions := by
    have hold (xs : List ImportSpec) (hxs : xs ⊆ specs) (r : Resolutions) :
        xs.foldl (fun r x => x.settleAlias scopes imports r) r =
          xs.foldl (fun r x => x.settleAlias scopes b.imports r) r := by
      induction xs generalizing r with
      | nil => rfl
      | cons x xs ih =>
        rw [List.foldl_cons, List.foldl_cons,
          ImportSpec.settleAlias_within hwithin (hstable (hxs List.mem_cons_self))]
        exact ih (fun y hy => hxs (List.mem_cons_of_mem x hy)) _
    rw [List.foldl_append, hold specs (fun _ hx => hx), ← h.resolutions]
    show _ = spec.settleAlias scopes imports b.resolutions
    unfold ImportSpec.settleAlias BindState.found
    rw [ht]
    simp only [Option.bind_some, hobject]
    cases spec.local? <;> rfl
  refine ⟨fun hk => hwithin (h.imports hk), hfound, hnamed, hdotted, hresolutions,
    h.symbols.trans ht', fun hi => hobjects (h.objects hi), ?_⟩
  show s'.diagnostics.toList = _
  rw [h.diagnostics, List.flatMap_append, List.flatMap_singleton, spec.errors_found ht,
    List.append_nil]

/-- One more import. -/
theorem step (h : Bound scopes start s specs b s') (spec : ImportSpec) :
    Bound scopes start s (specs ++ [spec]) (bindImport scopes b spec s').1
      (bindImport scopes b spec s').2 := by
  cases hid : spec.id? with
  | none =>
    have hstep : bindImport scopes b spec s' = (b, s') := by
      unfold bindImport
      rw [hid]
      rfl
    rw [hstep]
    refine h.lost ?_ rfl ?_
    · unfold ImportSpec.target?
      rw [hid]
      rfl
    · unfold ImportSpec.errors
      rw [hid]
      exact (List.append_nil _).symm
  | some id =>
    cases hscope : scopes.find? id with
    | none =>
      have hstep : bindImport scopes b spec s' =
          (b, { s' with diagnostics := s'.diagnostics.push (spec.notFound id) }) := by
        unfold bindImport
        simp only [hid, hscope]
        rfl
      rw [hstep]
      refine h.lost ?_ rfl ?_
      · unfold ImportSpec.target?
        rw [hid, Option.bind_some, hscope]
        rfl
      · unfold ImportSpec.errors
        simp only [hid, hscope, Array.toList_push, Option.isSome_none, Bool.false_eq_true, if_false]
    | some scope =>
      have ht : spec.target? scopes = some (id, scope) := by
        unfold ImportSpec.target?
        rw [hid, Option.bind_some, hscope]
        rfl
      obtain ⟨object, imports, t, himported, hextends, hwithin, hfind, hobjects⟩ :=
        importedObject_spec b.imports id spec.begin s'
      rw [bindImport_found hid hscope himported]
      exact h.bind ht hextends hwithin hfind hobjects

end Bound

/-- The imports of a file, one after the other. -/
theorem bindImports_bound (scopes : NameMap ScopeId) (start : BindState) (specs : List ImportSpec)
    (s : LinkState) : Bound scopes start s specs (specs.foldlM (bindImport scopes) start s).1
      (specs.foldlM (bindImport scopes) start s).2 := by
  rw [Link.foldlM_eq]
  induction specs using List.reverseRecOn with
  | nil => exact .nothing scopes start s
  | append_singleton specs spec ih =>
    rw [List.foldl_append]
    exact ih.step spec

end Idl
