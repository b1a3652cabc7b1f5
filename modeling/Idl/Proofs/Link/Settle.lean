/-
Idl/Proofs/Link/Settle.lean

What the names of a linked file stand for.

Once the imports are bound, every name that waits has an answer of its own, which depends on no
other name (`File.settlements`): what it stands for, or that it stands for nothing.  A linked file
(`linkedFile`) has recorded the answers, and keeps the names that have none.
-/
import Idl.Proofs.Link.Imports
import Idl.Proofs.Trace.Resolve

namespace Idl

/-- A name with what it turns out to stand for. -/
abbrev Settlement := Ident × Option ObjectId

/-! ### Many answers -/

namespace Settled

/-- Takes note of answers, one after the other. -/
def addAll (s : Settled) (ps : List Settlement) : Settled := ps.foldl (fun s p => s.add p.1 p.2) s

variable (s : Settled) (ps : List Settlement)

theorem addAll_unresolved : (s.addAll ps).unresolved =
    s.unresolved ++ (ps.filter fun p => p.2.isNone).map (·.1) := by
  induction ps generalizing s with
  | nil => exact (List.append_nil _).symm
  | cons p ps ih =>
    obtain ⟨i, o⟩ := p
    show (addAll (s.add i o) ps).unresolved = _
    rw [ih]
    cases o with
    | none => simp [add]
    | some o => rfl

theorem get?_add (i : Ident) (o : Option ObjectId) (x : IdentId) : (s.add i o).resolutions.get? x =
    if x = i.id then o.or (s.resolutions.get? x) else s.resolutions.get? x := by
  cases o with
  | none => exact (ite_self _).symm
  | some o => exact Resolutions.get?_set ..

/-- An identifier without an answer stands for what it stood for before. -/
theorem addAll_get?_other {x : IdentId} (h : ∀ p ∈ ps, p.1.id ≠ x) :
    (s.addAll ps).resolutions.get? x = s.resolutions.get? x := by
  induction ps generalizing s with
  | nil => rfl
  | cons p ps ih =>
    have hne : x ≠ p.1.id := Ne.symm (h p List.mem_cons_self)
    exact (ih (s.add p.1 p.2) fun q hq => h q (List.mem_cons_of_mem p hq)).trans
      ((s.get?_add ..).trans (if_neg hne))

/-- An identifier with an answer stands for that. -/
theorem addAll_get? (hnodup : (ps.map (·.1.id)).Nodup) {p : Settlement} (hp : p ∈ ps) :
    (s.addAll ps).resolutions.get? p.1.id = p.2.or (s.resolutions.get? p.1.id) := by
  induction ps generalizing s with
  | nil => cases hp
  | cons q ps ih =>
    obtain ⟨hq, hnodup⟩ := List.nodup_cons.1 hnodup
    have hother {r : Settlement} (hr : r ∈ ps) : r.1.id ≠ q.1.id := fun heq =>
      hq (List.mem_map.2 ⟨r, hr, heq⟩)
    show (addAll (s.add q.1 q.2) ps).resolutions.get? p.1.id = _
    rcases List.mem_cons.1 hp with rfl | hp
    · rw [addAll_get?_other _ _ fun r hr => hother hr, get?_add, if_pos rfl]
    · rw [ih (s.add q.1 q.2) hnodup hp, get?_add, if_neg (hother hp)]

end Settled

/-! ### The answers of a file -/

section Answers

variable (t : SymbolTable) (b : Bindings)

/-- The answers to a qualified name. -/
def QualifiedRef.settlements (q : QualifiedRef) : List Settlement :=
  match b.find? q.qualifier.name with
  | none => [(q.qualifier, none)]
  | some (object, scope) => [(q.qualifier, some object), (q.name, t.lookup? scope q.name.name)]

/-- The answers to the names of a file that wait. -/
def File.settlements (packageScope : ScopeId) (f : File) : List Settlement :=
  f.unresolved.map (fun i => (i, lookupPending t packageScope b i.name)) ++
    f.qualified.flatMap (QualifiedRef.settlements t b)

theorem settle_unresolved (packageScope : ScopeId) (is : List Ident) (s : Settled) :
    is.foldl (fun s i => s.add i (lookupPending t packageScope b i.name)) s =
      s.addAll (is.map fun i => (i, lookupPending t packageScope b i.name)) := by
  rw [Settled.addAll, List.foldl_map]

theorem settle_qualified (qs : List QualifiedRef) (s : Settled) :
    qs.foldl (Settled.addQualified t b) s =
      s.addAll (qs.flatMap (QualifiedRef.settlements t b)) := by
  induction qs generalizing s with
  | nil => rfl
  | cons q qs ih =>
    have hone : Settled.addQualified t b s q = s.addAll (q.settlements t b) := by
      unfold Settled.addQualified QualifiedRef.settlements
      cases b.find? q.qualifier.name <;> rfl
    rw [List.foldl_cons, ih, hone, List.flatMap_cons]
    unfold Settled.addAll
    rw [List.foldl_append]

/-- Resolving the names of a file records their answers. -/
theorem resolveNames_eq (packageScope : ScopeId) (state : BindState) (f : File) :
    resolveNames t packageScope state f =
      let answers := f.settlements t state.bindings packageScope
      { f with
        resolutions := (Settled.addAll ⟨state.resolutions, []⟩ answers).resolutions
        unresolved := sortIdents ((answers.filter fun p => p.2.isNone).map (·.1)) } := by
  unfold resolveNames
  simp only [settle_unresolved, settle_qualified]
  have hall : (Settled.addAll ⟨state.resolutions, []⟩ (f.unresolved.map fun i =>
      (i, lookupPending t packageScope state.bindings i.name))).addAll
        (f.qualified.flatMap (QualifiedRef.settlements t state.bindings)) =
      Settled.addAll ⟨state.resolutions, []⟩ (f.settlements t state.bindings packageScope) := by
    unfold Settled.addAll File.settlements
    rw [List.foldl_append]
  rw [hall, Settled.addAll_unresolved]
  rfl

/-- Only what scopes name matters. -/
theorem resolveNames_congr {t' : SymbolTable} (h : ∀ i name, t'.lookup? i name = t.lookup? i name)
    (packageScope : ScopeId) (state : BindState) (f : File) :
    resolveNames t' packageScope state f = resolveNames t packageScope state f := by
  have hlookup : t'.lookup? = t.lookup? := by
    funext i name
    exact h i name
  have hpending : lookupPending t' = lookupPending t := by
    unfold lookupPending
    rw [hlookup]
  have hqualified : Settled.addQualified t' = Settled.addQualified t := by
    unfold Settled.addQualified
    rw [hlookup]
  unfold resolveNames
  rw [hpending, hqualified]

end Answers

/-! ### Linked files -/

section Linked

variable (t : SymbolTable) (scopes : NameMap ScopeId) (imports : NameMap ObjectId)

/-- What the imports of a file bind. -/
def File.bindings (f : File) : Bindings where
  named := (f.imports.filterMap (ImportSpec.binding? scopes imports)).reverse
  dotted := f.imports.filterMap (ImportSpec.dotted? scopes)

/-- The resolutions of a file once its imports are bound. -/
def File.aliased (f : File) : Resolutions :=
  f.imports.foldl (fun r spec => spec.settleAlias scopes imports r) f.resolutions

/-- A file of the package with the given scope and imports, linked. -/
def linkedFile (packageScope : ScopeId) (f : File) : File :=
  let answers := f.settlements t (f.bindings scopes imports) packageScope
  { f with
    resolutions := (Settled.addAll ⟨f.aliased scopes imports, []⟩ answers).resolutions
    unresolved := sortIdents ((answers.filter fun p => p.2.isNone).map (·.1)) }

variable {scopes imports}

/-- Only what scopes name matters. -/
theorem linkedFile_congr {t' : SymbolTable} (h : ∀ i name, t'.lookup? i name = t.lookup? i name) :
    linkedFile t' scopes imports = linkedFile t scopes imports := by
  have hlookup : t'.lookup? = t.lookup? := by
    funext i name
    exact h i name
  funext packageScope f
  unfold linkedFile File.settlements QualifiedRef.settlements lookupPending
  rw [hlookup]

/-- Once all packages that a file imports have objects, more objects change nothing. -/
theorem linkedFile_within {imports' : NameMap ObjectId} (h : imports.Within imports') {f : File}
    (hfound : ∀ spec ∈ f.imports, ∀ id scope, spec.target? scopes = some (id, scope) →
      (imports.find? id).isSome = true) (packageScope : ScopeId) :
    linkedFile t scopes imports' packageScope f = linkedFile t scopes imports packageScope f := by
  have hbindings : f.bindings scopes imports' = f.bindings scopes imports := by
    unfold File.bindings
    rw [List.filterMap_congr fun x hx => ImportSpec.binding?_within h (hfound x hx)]
  have haliased : f.aliased scopes imports' = f.aliased scopes imports := by
    unfold File.aliased
    generalize f.resolutions = r
    generalize f.imports = specs at hfound
    induction specs generalizing r with
    | nil => rfl
    | cons x xs ih =>
      rw [List.foldl_cons, List.foldl_cons,
        ImportSpec.settleAlias_within h (hfound x List.mem_cons_self)]
      exact ih _ fun y hy => hfound y (List.mem_cons_of_mem x hy)
  unfold linkedFile
  rw [hbindings, haliased]

end Linked

end Idl
