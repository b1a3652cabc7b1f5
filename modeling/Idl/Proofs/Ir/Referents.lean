/-
Idl/Proofs/Ir/Referents.lean

What the types of a representation refer to.

A type refers to a bean by a name and, if the name was written with a qualifier, by the id of a package
(`Ir.Ty.referents`).  What a lowered file refers to are the names that the types of its beans name
(`File.mem_referents_lower`), and what a file declares and imports is still there once it is lowered
(`File.declares_lower`, `File.mem_imports_lower`).
-/
import Idl.Proofs.Ir.Placed

namespace Idl

/-! ### Referents of a representation -/

namespace Ir

/-- A bean as a type refers to it: by the id of a package, empty if the name has no qualifier, and by
a name. -/
abbrev Referent := String × String

mutual

/-- What a type refers to, at any depth. -/
def Ty.referents : Ty → List Referent
  | .basic _ => []
  | .array elem _ => elem.referents
  | .vector elem => elem.referents
  | .map key value => key.referents ++ value.referents
  | .struct package name => [(package, name)]
  | .func params result => paramReferents params ++ typeReferents result
  | .invalid => []

/-- What a value refers to, at any depth. -/
def Expr.referents : Expr → List Referent
  | .type t => t.referents
  | _ => []

/-- What parameters refer to. -/
def paramReferents : List Field → List Referent
  | [] => []
  | ⟨_, _, type, _, default, _, _⟩ :: ps =>
    typeReferents type ++ valueReferents default ++ paramReferents ps

/-- What a type refers to, if there is one. -/
def typeReferents : Option Ty → List Referent
  | some t => t.referents
  | none => []

/-- What a value refers to, if there is one. -/
def valueReferents : Option Expr → List Referent
  | some e => e.referents
  | none => []

end

/-- What a field refers to. -/
def Field.referents (f : Field) : List Referent := typeReferents f.type ++ valueReferents f.default

/-- What a bean refers to. -/
def Bean.referents (b : Bean) : List Referent :=
  b.extended.flatMap Ty.referents ++ b.fields.flatMap Field.referents

namespace File

/-- The imports of a file. -/
def imports (f : File) : List ImportSpec := f.decls.flatMap (·.imports)

/-- The constants of a file. -/
def consts (f : File) : List ConstSpec := f.decls.flatMap (·.consts)

/-- What a file refers to. -/
def referents (f : File) : List Referent :=
  f.beans.flatMap Bean.referents ++ f.consts.flatMap (·.value.referents)

end File

/-- The id of the package that is imported. -/
def ImportSpec.id (s : ImportSpec) : String := String.ofList (lastSegment s.package.toList)

/-- Whether a package declares a bean or a constant of a name. -/
def Package.Declares (p : Package) (name : String) : Prop :=
  (∃ b ∈ p.beans, b.name = name) ∨ ∃ c ∈ p.consts, c.name = name

instance (p : Package) (name : String) : Decidable (p.Declares name) :=
  inferInstanceAs (Decidable (_ ∨ _))

theorem mem_paramReferents {ps : List Field} {x : Referent} :
    x ∈ paramReferents ps ↔ ∃ p ∈ ps, x ∈ p.referents := by
  induction ps with
  | nil => simp [paramReferents]
  | cons p ps ih =>
    obtain ⟨_, _, type, _, default, _, _⟩ := p
    rw [List.exists_mem_cons_iff, ← ih]
    show x ∈ (typeReferents type ++ valueReferents default) ++ paramReferents ps ↔ _
    exact List.mem_append

end Ir

/-! ### Referents of a lowered file -/

section Lower

variable {env : LowerEnv} {f : File} {x : Ir.Referent}

/-- What a lowered type refers to is what the type names. -/
theorem TypeExpr.referents_lower {t : TypeExpr} (h : x ∈ (t.lower env f).referents) :
    (∃ r ∈ t.references, x = ("", r.name)) ∨
      ∃ q ∈ t.qualifiedNames, x = (lowerQualifier env f q.qualifier, q.name.name) := by
  induction t with
  | bad p => cases h
  | basic name b => cases h
  | array p elem size closing ih =>
    -- a name in the size is used, too, but it is lowered to a value
    have hsub : elem.references ⊆ (array p elem size closing).references := by
      cases size with
      | ident i => exact List.subset_append_left elem.references [i]
      | _ => exact List.Subset.refl _
    exact (ih h).imp (fun ⟨r, hr, hx⟩ => ⟨r, hsub hr, hx⟩) id
  | vector p elem closing ih => exact ih h
  | map p key value closing ihk ihv =>
    rcases List.mem_append.1 h with h | h
    · refine (ihk h).imp ?_ ?_
      · exact fun ⟨r, hr, hx⟩ => ⟨r, List.mem_append_left _ hr, hx⟩
      · exact fun ⟨q, hq, hx⟩ => ⟨q, List.mem_append_left _ hq, hx⟩
    · refine (ihv h).imp ?_ ?_
      · exact fun ⟨r, hr, hx⟩ => ⟨r, List.mem_append_right _ hr, hx⟩
      · exact fun ⟨q, hq, hx⟩ => ⟨q, List.mem_append_right _ hq, hx⟩
  | named qualifier name =>
    cases qualifier with
    | none => exact .inl ⟨name, List.mem_cons_self, List.mem_singleton.1 h⟩
    | some q => exact .inr ⟨⟨q, name⟩, List.mem_cons_self, List.mem_singleton.1 h⟩

/-- A qualified name is lowered with its qualifier. -/
theorem TypeExpr.lower_qualified (t : TypeExpr) {q : QualifiedRef} (hq : q ∈ t.qualifiedNames) :
    (lowerQualifier env f q.qualifier, q.name.name) ∈ (t.lower env f).referents := by
  induction t with
  | array p elem size closing ih => exact ih hq
  | vector p elem closing ih => exact ih hq
  | map p key value closing ihk ihv =>
    rcases List.mem_append.1 hq with hq | hq
    · exact List.mem_append_left _ (ihk hq)
    · exact List.mem_append_right _ (ihv hq)
  | named qualifier name =>
    cases qualifier with
    | none => cases hq
    | some i =>
      rw [List.mem_singleton.1 hq]
      exact List.mem_cons_self
  | _ => cases hq

theorem MemberType.mem_referents_lower {t : MemberType} :
    x ∈ (t.lower env f).referents ↔ ∃ u ∈ t.types, x ∈ (u.lower env f).referents := by
  cases t with
  | plain t => simp [types, lower]
  | func sig =>
    have hparams : x ∈ Ir.paramReferents (sig.params.map (Param.lower env f)) ↔
        ∃ p ∈ sig.params, x ∈ (p.type.lower env f).referents := by
      rw [Ir.mem_paramReferents]
      simp only [List.mem_map, exists_exists_and_eq_and]
      refine exists_congr fun p => and_congr_right fun _ => ?_
      show x ∈ (p.type.lower env f).referents ++ [] ↔ _
      rw [List.append_nil]
    have hresult : x ∈ Ir.typeReferents (sig.result.map (TypeExpr.lower env f)) ↔
        ∃ u ∈ sig.result, x ∈ (u.lower env f).referents := by
      cases sig.result with
      | none => simp [Ir.typeReferents]
      | some t => simp [Ir.typeReferents]
    show x ∈ _ ++ _ ↔ _
    rw [List.mem_append, hparams, hresult]
    simp [types, or_and_right, exists_or]

theorem Member.mem_referents_lower {m : Member} :
    x ∈ Ir.typeReferents (m.type.map (MemberType.lower env f)) ↔
      ∃ t ∈ m.types, x ∈ (t.lower env f).referents := by
  unfold types
  cases m.type with
  | none => simp [Ir.typeReferents]
  | some t =>
    rw [Option.toList_some, List.flatMap_singleton]
    exact MemberType.mem_referents_lower

/-- Values refer to no beans. -/
theorem Value.referents_lower (v : Value) : v.lower.referents = [] := by
  cases v with
  | _ => rfl

theorem Member.referents_lower (m : Member) : (m.lower env f).referents =
    Ir.typeReferents (m.type.map (MemberType.lower env f)) := by
  have hvalue : Ir.valueReferents (m.value.map Value.lower) = [] := by
    cases m.value with
    | none => rfl
    | some v => exact v.referents_lower
  show Ir.typeReferents _ ++ Ir.valueReferents (m.value.map Value.lower) = _
  rw [hvalue]
  exact List.append_nil _

/-- Every type of a bean is lowered, whether it is one that the bean extends or one of a field. -/
theorem Bean.mem_referents_lower {b : Bean} :
    x ∈ (b.lower env f).referents ↔ ∃ t ∈ b.types, x ∈ (t.lower env f).referents := by
  have hextended : x ∈ (b.lower env f).extended.flatMap Ir.Ty.referents ↔
      ∃ m ∈ b.body.members, b.isExtension m = true ∧
        x ∈ Ir.typeReferents (m.type.map (MemberType.lower env f)) := by
    show x ∈ List.flatMap _ ((b.body.members.filter b.isExtension).filterMap _) ↔ _
    rw [List.mem_flatMap]
    constructor
    · rintro ⟨t, ht, hx⟩
      obtain ⟨m, hm, ht⟩ := List.mem_filterMap.1 ht
      obtain ⟨hm, hext⟩ := List.mem_filter.1 hm
      exact ⟨m, hm, hext, ht ▸ hx⟩
    · rintro ⟨m, hm, hext, hx⟩
      cases ht : m.type.map (MemberType.lower env f) with
      | none =>
        rw [ht] at hx
        cases hx
      | some t =>
        rw [ht] at hx
        exact ⟨t, List.mem_filterMap.2 ⟨m, List.mem_filter.2 ⟨hm, hext⟩, ht⟩, hx⟩
  have hfields : x ∈ (b.lower env f).fields.flatMap Ir.Field.referents ↔
      ∃ m ∈ b.body.members, b.isExtension m = false ∧
        x ∈ Ir.typeReferents (m.type.map (MemberType.lower env f)) := by
    show x ∈ List.flatMap _ ((b.body.members.filter fun m => !b.isExtension m).map _) ↔ _
    rw [List.flatMap_map, List.mem_flatMap]
    simp only [List.mem_filter, Bool.not_eq_true', Member.referents_lower, and_assoc]
  -- a member is extended or a field, and either way its type is lowered
  show x ∈ _ ++ _ ↔ _
  rw [List.mem_append, hextended, hfields]
  unfold types
  simp only [Member.mem_referents_lower, List.mem_flatMap]
  constructor
  · rintro (⟨m, hm, -, t, ht, hx⟩ | ⟨m, hm, -, t, ht, hx⟩)
    · exact ⟨t, ⟨m, hm, ht⟩, hx⟩
    · exact ⟨t, ⟨m, hm, ht⟩, hx⟩
  · rintro ⟨t, ⟨m, hm, ht⟩, hx⟩
    cases hext : b.isExtension m with
    | true => exact .inl ⟨m, hm, hext, t, ht, hx⟩
    | false => exact .inr ⟨m, hm, hext, t, ht, hx⟩

/-- What a lowered file refers to is what the types of its beans refer to. -/
theorem File.mem_referents_lower : x ∈ (f.lower env).referents ↔
    ∃ b, Decl.bean b ∈ f.decls ∧ ∃ t ∈ b.types, x ∈ (t.lower env f).referents := by
  -- constants have values and no types, so only beans are left
  have hconsts : (f.lower env).consts.flatMap (·.value.referents) = [] := by
    refine List.flatMap_eq_nil_iff.2 fun c hc => ?_
    obtain ⟨g, hg, hc⟩ := List.mem_flatMap.1 hc
    obtain ⟨d, -, hg⟩ := List.mem_filterMap.1 hg
    cases d with
    | consts g' =>
      rw [← Option.some.inj hg] at hc
      obtain ⟨s, -, rfl⟩ := List.mem_map.1 hc
      show ((s.value.map Value.lower).getD .invalid).referents = []
      cases s.value with
      | none => rfl
      | some v => exact v.referents_lower
    | imports g' =>
      rw [← Option.some.inj hg] at hc
      cases hc
    | _ => cases hg
  show x ∈ _ ++ (f.lower env).consts.flatMap (·.value.referents) ↔ _
  rw [hconsts, List.append_nil]
  show x ∈ List.flatMap _ ((f.decls.filterMap Decl.bean?).map _) ↔ _
  simp only [List.mem_flatMap, List.mem_map, exists_exists_and_eq_and, Decl.mem_filterMap_bean?,
    Bean.mem_referents_lower]

/-- A lowered file refers to nothing but what the file names. -/
theorem File.referents_lower (h : x ∈ (f.lower env).referents) :
    (∃ r ∈ f.references, x = ("", r.name)) ∨
      ∃ q ∈ f.qualifiedNames, x = (lowerQualifier env f q.qualifier, q.name.name) := by
  obtain ⟨b, hb, t, ht, hx⟩ := File.mem_referents_lower.1 h
  refine (TypeExpr.referents_lower hx).imp ?_ ?_
  · rintro ⟨r, hr, rfl⟩
    exact ⟨r, List.mem_flatMap.2 ⟨_, hb, List.mem_flatMap.2 ⟨t, ht, hr⟩⟩, rfl⟩
  · rintro ⟨q, hq, rfl⟩
    exact ⟨q, List.mem_flatMap.2 ⟨_, hb, List.mem_flatMap.2 ⟨t, ht, hq⟩⟩, rfl⟩

/-- Each qualified name of a file is referred to by the lowered file. -/
theorem File.lower_qualified {q : QualifiedRef} (hq : q ∈ f.qualifiedNames) :
    (lowerQualifier env f q.qualifier, q.name.name) ∈ (f.lower env).referents := by
  obtain ⟨d, hd, hq⟩ := List.mem_flatMap.1 hq
  cases d with
  | bean b =>
    obtain ⟨t, ht, hq⟩ := List.mem_flatMap.1 hq
    exact File.mem_referents_lower.2 ⟨b, hd, t, ht, t.lower_qualified hq⟩
  | _ => cases hq

/-! ### Imports and declarations of a lowered file -/

/-- Each import of a file is an import of the lowered file. -/
theorem File.mem_imports_lower {spec : ImportSpec} (h : spec ∈ f.imports) :
    spec.lower ∈ (f.lower env).imports := by
  obtain ⟨d, hd, hspec⟩ := List.mem_flatMap.1 h
  cases d with
  | imports g =>
    exact List.mem_flatMap.2
      ⟨_, List.mem_filterMap.2 ⟨_, hd, rfl⟩, List.mem_map_of_mem (f := ImportSpec.lower) hspec⟩
  | _ => cases hspec

theorem ImportSpec.lower_name {spec : ImportSpec} (h : spec.isDotted = true) :
    spec.lower.name = "." := by
  unfold isDotted at h
  show (spec.localName.map (·.name)).getD "" = "."
  cases hname : spec.localName with
  | none =>
    rw [hname] at h
    cases h
  | some i =>
    rw [hname] at h
    exact of_decide_eq_true h

/-- A lowered import names the package that the import does. -/
theorem ImportSpec.lower_id {spec : ImportSpec} {id : String} (h : spec.id? = some id) :
    spec.lower.id = id := by
  obtain ⟨path, hpath, hid⟩ := Option.bind_eq_some_iff.1 h
  show String.ofList (lastSegment ((unquote? spec.path.text).getD spec.path.text).toList) = id
  rw [hpath, Option.getD_some]
  dsimp only at hid
  split at hid
  · cases hid
  · exact Option.some.inj hid

/-- The id of a package is not empty. -/
theorem ImportSpec.id_ne_empty {spec : ImportSpec} {id : String} (h : spec.id? = some id) :
    id ≠ "" := by
  obtain ⟨path, -, hid⟩ := Option.bind_eq_some_iff.1 h
  dsimp only at hid
  split at hid
  · cases hid
  · next hsegment =>
    intro hempty
    rw [← Option.some.inj hid] at hempty
    apply hsegment
    rw [List.isEmpty_iff]
    exact String.ofList_injective (hempty.trans rfl)

/-- What a file declares is declared by a package that holds the lowered file. -/
theorem File.declares_lower {p : Ir.Package} (hf : f.lower env ∈ p.files) {o : Object}
    (ho : o ∈ f.declarations) : p.Declares o.name := by
  obtain ⟨⟨d, index⟩, hd, ho⟩ := List.mem_flatMap.1 ho
  have hd : d ∈ f.decls := List.fst_mem_of_mem_zipIdx hd
  cases d with
  | consts g =>
    obtain ⟨⟨s, k⟩, hs, rfl⟩ := List.mem_map.1 ho
    have hs : s ∈ g.specs := List.fst_mem_of_mem_zipIdx hs
    refine .inr ⟨s.lower, List.mem_flatMap.2 ⟨_, hf, ?_⟩, rfl⟩
    exact List.mem_flatMap.2
      ⟨_, List.mem_filterMap.2 ⟨_, hd, rfl⟩, List.mem_map_of_mem (f := ConstSpec.lower) hs⟩
  | bean b =>
    rw [List.mem_singleton.1 ho]
    refine .inl ⟨b.lower env f, List.mem_flatMap.2 ⟨_, hf, ?_⟩, rfl⟩
    exact List.mem_map_of_mem (Decl.mem_filterMap_bean?.2 hd)
  | _ => cases ho

end Lower

end Idl
