/-
Idl/Proofs/EnumValues.lean

Every name that a file refers to is taken care of, but the values of enumerations are not.

After linking, each name that a constant or a type refers to stands for an object or is listed as
unresolved, which a strict compilation reports (`Compilation.Handles`).  A member of an enumeration
may have a name for its value, too.  Such a name is read like that of a constant, and then nothing is
done with it: it stands for nothing, and it is never asked what it stands for (`File.Ignores`).  Each
stage keeps that as it is: the file may be placed among others (`File.Ignores.placed`) and linked
(`File.Ignores.linked`).

Main result: references are taken care of, the values of enumerations are not (`enum_values_ignored`).
-/
import Idl.Proofs.Ir.Clean
import Idl.Proofs.Objects

namespace Idl

/-! ### Names for values -/

/-- The names that the members of an enumeration have for values. -/
def Decl.enumValues : Decl → List Ident
  | .bean b => if b.kind = .enum then b.body.members.filterMap Member.valueIdent? else []
  | _ => []

/-- The names that the members of the enumerations of a file have for values. -/
def File.enumValues (f : File) : List Ident := f.decls.flatMap Decl.enumValues

theorem Decl.enumValues_subset (d : Decl) : d.enumValues ⊆ d.valueIdents := by
  intro i hi
  cases d with
  | bean b =>
    change i ∈ if b.kind = .enum then b.body.members.filterMap Member.valueIdent? else [] at hi
    split at hi
    · exact hi
    · cases hi
  | _ => cases hi

section Placed

variable (ρ : Placement)

theorem Member.valueIdent?_placed (m : Member) :
    (m.placed ρ).valueIdent? = m.valueIdent?.map (Ident.placed ρ) := by
  have hvalue : (m.placed ρ).value = m.value.map (Value.placed ρ) := rfl
  unfold valueIdent?
  rw [hvalue]
  rcases m.value with - | v
  · rfl
  · cases v <;> rfl

theorem Decl.enumValues_placed (d : Decl) :
    (d.placed ρ).enumValues = d.enumValues.map (Ident.placed ρ) := by
  cases d with
  | bean b =>
    show (if b.kind = .enum then (b.body.members.map (Member.placed ρ)).filterMap Member.valueIdent?
      else []) = (if b.kind = .enum then b.body.members.filterMap Member.valueIdent?
      else []).map (Ident.placed ρ)
    split
    · rw [List.filterMap_map, List.map_filterMap]
      exact List.filterMap_congr fun m _ => m.valueIdent?_placed ρ
    · rfl
  | _ => rfl

theorem File.enumValues_placed (f : File) :
    (f.placed ρ).enumValues = f.enumValues.map (Ident.placed ρ) := by
  unfold enumValues
  show (f.decls.map (Decl.placed ρ)).flatMap Decl.enumValues = _
  rw [List.flatMap_map, List.map_flatMap]
  exact List.flatMap_congr fun d _ => d.enumValues_placed ρ

end Placed

/-! ### Names that are ignored -/

/-- An identifier that stands for nothing, and about which linking does not ask. -/
structure File.Ignores (f : File) (i : Ident) : Prop where
  nothing : f.resolutions.get? i.id = none
  apart : ∀ j ∈ f.asked, j.id ≠ i.id

/-- The values of enumerations, the local names of imports, and all names to which something happens
while a source is read are different identifiers. -/
theorem Source.values_apart (s : Source) {i : Ident} (hi : i ∈ s.alone.file.enumValues) :
    (∀ j ∈ s.alone.file.imports.filterMap ImportSpec.alias?, j.id ≠ i.id) ∧
      ∀ j ∈ mentioned s.events, j.id ≠ i.id := by
  have hvalue : i ∈ s.alone.file.decls.flatMap Decl.valueIdents := by
    obtain ⟨d, hd, hi⟩ := List.mem_flatMap.1 hi
    exact List.mem_flatMap.2 ⟨d, hd, d.enumValues_subset hi⟩
  have haliases : s.alone.file.decls.flatMap Decl.aliases =
      s.alone.file.imports.filterMap ImportSpec.alias? := (List.filterMap_flatMap ..).symm
  -- the three lists are parts of the identifiers of the source, which are numbered apart
  have hids : ((s.alone.file.imports.filterMap ImportSpec.alias? ++
      s.alone.file.decls.flatMap Decl.valueIdents ++ mentioned s.events).map (·.id)).Nodup := by
    have hsplit := (List.flatMap_append_perm s.alone.file.decls Decl.aliases
      Decl.valueIdents).append_right (mentioned s.events)
    rw [haliases] at hsplit
    obtain ⟨is, his, hsub⟩ := hsplit.subperm.trans s.unmentioned_subperm
    exact ((his.map (·.id)).nodup_iff).1 (s.reading.numbered.sublist (hsub.map _))
  rw [List.map_append, List.map_append, List.nodup_append, List.nodup_append] at hids
  obtain ⟨⟨-, -, hvalues⟩, -, hmentioned⟩ := hids
  have hid : i.id ∈ (s.alone.file.decls.flatMap Decl.valueIdents).map (·.id) :=
    List.mem_map_of_mem hvalue
  constructor
  · intro j hj
    exact hvalues j.id (List.mem_map_of_mem hj) i.id hid
  · intro j hj heq
    exact hmentioned i.id (List.mem_append_right _ hid) j.id (List.mem_map_of_mem hj) heq.symm

/-- A source ignores the values of its enumerations. -/
theorem Source.ignores_values (s : Source) {i : Ident} (hi : i ∈ s.alone.file.enumValues) :
    s.alone.file.Ignores i := by
  obtain ⟨haliases, hmentioned⟩ := s.values_apart hi
  have hperm := mentioned_perm s.events
  have hqualified : qualifiedIn s.events = s.alone.file.qualified := by
    rw [s.reading.qualified, s.events_eq]
    exact qualifiedIn_decls ..
  rw [hqualified] at hperm
  have hdeclared : ∀ j ∈ declaredIn s.events, j.id ≠ i.id := by
    intro j hj
    exact hmentioned j (hperm.mem_iff.2 (List.mem_append_left _ hj))
  have hreferred : ∀ j ∈ referredIn s.events, j.id ≠ i.id := by
    intro j hj
    exact hmentioned j (hperm.mem_iff.2 (List.mem_append_right _ (List.mem_append_left _ hj)))
  refine ⟨s.reading.free i.id hdeclared fun j hj _ => hreferred j hj, fun j hj => ?_⟩
  -- linking asks about aliases, about names that are unresolved and about qualified ones
  rcases List.mem_append.1 hj with hj | hj
  · exact haliases j hj
  · rcases List.mem_append.1 hj with hj | hj
    · rw [s.reading.unresolved] at hj
      exact hreferred j (List.mem_filter.1 hj).1
    · exact hmentioned j (hperm.mem_iff.2 (List.mem_append_right _ (List.mem_append_right _ hj)))

namespace File.Ignores

variable {f : File} {i : Ident} (h : f.Ignores i)
include h

/-- What a file ignores, it ignores where it is placed. -/
theorem placed (ρ : Placement) : (f.placed ρ).Ignores (i.placed ρ) where
  nothing := by
    show (f.resolutions.placed ρ).get? i.id = none
    rw [Resolutions.get?_placed, h.nothing]
    rfl
  apart := by
    rw [f.asked_placed]
    intro j hj
    obtain ⟨k, hk, rfl⟩ := List.mem_map.1 hj
    exact h.apart k hk

/-- What a file ignores, it ignores after linking. -/
theorem linked (m : SymbolTable) (scopes : NameMap ScopeId) (imports : NameMap ObjectId)
    (k : ScopeId) : (linkedFile m scopes imports k f).Ignores i where
  nothing := (linked_get?_apart h.apart).trans h.nothing
  apart j hj := h.apart j (asked_linked hj)

end File.Ignores

/-! ### Names that are taken care of -/

/-- A name of a file is taken care of in a compilation: it stands for an object, or it is among the
unresolved names of the file and an error if the compilation is strict. -/
def Compilation.Handles (c : Compilation) (p : Package) (f : File) (i : Ident) : Prop :=
  (∃ o, f.resolutions.get? i.id = some o ∧ (c.symbols.objects[o]?).isSome = true) ∨
    (i ∈ f.unresolved ∧
      (⟨p.name, f.filename, i.name, i.pos⟩ : UnresolvedIdent).error ∈ c.allDiagnostics true)

/-- Linking finds what a name refers to, or lists the name. -/
theorem File.Known.linked_or_listed {t : SymbolTable} {f : File} {refs : List Ident}
    (h : f.Known t refs) {r : Ident} (hr : r ∈ refs) (hb : r.isBlank = false) (m : SymbolTable)
    (scopes : NameMap ScopeId) (imports : NameMap ObjectId) (k : ScopeId) :
    (∃ o, (linkedFile m scopes imports k f).resolutions.get? r.id = some o) ∨
      r ∈ (linkedFile m scopes imports k f).unresolved := by
  by_cases hwaits : r ∈ f.unresolved
  · have hanswer : (r, lookupPending m k (f.bindings scopes imports) r.name) ∈
        f.settlements m (f.bindings scopes imports) k := File.mem_answers_unresolved hwaits
    cases ho : lookupPending m k (f.bindings scopes imports) r.name with
    | none => exact .inr (mem_linkedFile_unresolved.2 (ho ▸ hanswer))
    | some o =>
      refine .inl ⟨o, ?_⟩
      rw [h.linked_get?_answer scopes imports hanswer, ho]
      rfl
  · -- the name was found in its own file, and linking leaves it alone
    have hno : ∀ x ∈ f.settlements m (f.bindings scopes imports) k, x.1.id ≠ r.id := by
      intro x hx
      exact h.not_mem_answers hr hwaits hx
    left
    rw [h.linked_get?_other scopes imports (List.mem_append_left _ hr) hno, h.referred r hr hb]
    apply Option.ne_none_iff_exists'.1
    intro hnone
    apply hwaits
    rw [h.unresolved]
    exact List.mem_filter.2 ⟨hr, by simp [hb, hnone]⟩

/-- An unresolved name of a file is an error of the strict compilation. -/
theorem mem_allDiagnostics_of_unresolved {sources : List Source} {p : Package}
    (hp : p ∈ (compile sources).packages.values) {f : File} (hf : f ∈ p.files.values) {i : Ident}
    (hi : i ∈ f.unresolved) : (⟨p.name, f.filename, i.name, i.pos⟩ : UnresolvedIdent).error ∈
      (compile sources).allDiagnostics true := by
  have hlisted : (⟨p.name, f.filename, i.name, i.pos⟩ : UnresolvedIdent) ∈
      (compile sources).unresolved := by
    obtain ⟨scopes, m, hrun⟩ := linkSources_run sources
    show _ ∈ (linkSources sources).unresolved
    rw [hrun.links.unresolved]
    exact List.mem_flatMap.2 ⟨p, hp, List.mem_flatMap.2 ⟨f, hf, List.mem_map.2 ⟨i, hi, rfl⟩⟩⟩
  exact mem_sortDiagnostics.2 (List.mem_append_right _ (List.mem_map_of_mem hlisted))

/-! ### Enumerations of a compilation -/

/-- The names that constants and types refer to are taken care of, blank ones aside.  The names that
members of enumerations have for values never are: they stand for nothing and are not listed. -/
theorem enum_values_ignored (sources : List Source) {p : Package}
    (hp : p ∈ (compile sources).packages.values) {f : File} (hf : f ∈ p.files.values) :
    (∀ r ∈ f.references, r.isBlank = false → (compile sources).Handles p f r) ∧
      ∀ i ∈ f.enumValues, f.resolutions.get? i.id = none ∧ ∀ j ∈ f.unresolved, j.id ≠ i.id := by
  obtain ⟨scopes, m, hrun⟩ := linkSources_run sources
  obtain ⟨n, hn⟩ := NameMap.mem_values.1 hp
  obtain ⟨x, hx⟩ := NameMap.mem_values.1 hf
  have hbound := linkSources_bound sources hn hx
  obtain ⟨k, -, hlinks, -⟩ := hrun.links.packages hn
  obtain ⟨f₀, hf₀, rfl⟩ := hlinks.mem_values hf
  have hparsed := (mem_filesOf.1 hf₀).1
  constructor
  · intro r hr hb
    obtain ⟨refs, hknown⟩ := hrun.known f₀ hparsed
    have hr : r ∈ refs := (hknown.mem_refs r).2 hr
    rcases hknown.linked_or_listed hr hb m scopes p.imports k with ⟨o, ho⟩ | hlisted
    · have hthere := Array.getElem?_eq_getElem (hbound.valid ho)
      exact .inl ⟨o, ho, Option.isSome_iff_exists.2 ⟨_, hthere⟩⟩
    · exact .inr ⟨hlisted, mem_allDiagnostics_of_unresolved hp hf hlisted⟩
  · intro i hi
    -- the source ignores its values when it is read alone, then where it is placed, then linked
    obtain ⟨s, ρ, hs, rfl⟩ := mem_parsed hparsed
    have hi : i ∈ (s.alone.file.placed ρ).enumValues := hi
    rw [File.enumValues_placed] at hi
    obtain ⟨written, hwritten, rfl⟩ := List.mem_map.1 hi
    have hignores := ((s.ignores_values hwritten).placed ρ).linked m scopes p.imports k
    exact ⟨hignores.nothing, fun j hj => hignores.apart j
      (List.mem_append_right _ (List.mem_append_left _ hj))⟩

/-- A constant and a member of an enumeration, both with a name for their value that nothing has. -/
def misspelled : List Source := [
  ⟨"a.mid", "package p\nconst C = Missing\nenum E \x7b A = Missing, \x7d\n"⟩]

theorem enum_values_ignored_misspelled :
    ∃ p ∈ (compile misspelled).packages.values, ∃ f ∈ p.files.values,
      f.references.map (·.name) = ["Missing"] ∧ f.enumValues.map (·.name) = ["Missing"] ∧
      (∀ r ∈ f.references, r.isBlank = false → (compile misspelled).Handles p f r) ∧
      ∀ i ∈ f.enumValues, f.resolutions.get? i.id = none ∧ ∀ j ∈ f.unresolved, j.id ≠ i.id := by
  have hfile : ∃ p ∈ (compile misspelled).packages.values, ∃ f ∈ p.files.values,
      f.references.map (·.name) = ["Missing"] ∧ f.enumValues.map (·.name) = ["Missing"] := by
    decide +kernel
  obtain ⟨p, hp, f, hf, hreferences, hvalues⟩ := hfile
  exact ⟨p, hp, f, hf, hreferences, hvalues, enum_values_ignored misspelled hp hf⟩

/-- An enumeration with a name for a value that nothing has. -/
def undeclared : List Source := [⟨"a.mid", "package p\nenum E \x7b A = Missing, \x7d\n"⟩]

/-- The value is not taken care of, and not even a strict compilation reports anything. -/
theorem undeclared_unhandled :
    (∃ p ∈ (compile undeclared).packages.values, ∃ f ∈ p.files.values, ∃ i ∈ f.enumValues,
      i.name = "Missing" ∧ i.isBlank = false ∧ ¬ (compile undeclared).Handles p f i) ∧
      (compile undeclared).allDiagnostics true = [] := by
  have hvalue : ∃ p ∈ (compile undeclared).packages.values, ∃ f ∈ p.files.values,
      ∃ i ∈ f.enumValues, i.name = "Missing" ∧ i.isBlank = false ∧
        f.resolutions.get? i.id = none ∧ i ∉ f.unresolved := by decide +kernel
  obtain ⟨p, hp, f, hf, i, hi, hname, hb, hnothing, hlisted⟩ := hvalue
  refine ⟨⟨p, hp, f, hf, i, hi, hname, hb, ?_⟩, List.isEmpty_iff.1 (by decide +kernel)⟩
  rintro (⟨o, ho, -⟩ | ⟨hmem, -⟩)
  · rw [hnothing] at ho
    cases ho
  · exact hlisted hmem

end Idl
