/-
Idl/Proofs/Occurrences.lean

The names that a syntax tree declares and uses.

What a file declares and which names it uses can be read off its tree alone.  The functions of
this module do that: `File.declarations` are the constants and beans, `Bean.memberObjects` the
members of a bean, `File.references` the names without a qualifier that stand for something, and
`File.qualifiedNames` those with one.  None of them looks at scopes or resolutions, so they say
what resolving names has to achieve.
-/
import Idl.Proofs.Placement

namespace Idl

/-! ### Names that are used -/

namespace TypeExpr

/-- The names of the own package in a type: types that are not builtin, and sizes of arrays. -/
def references : TypeExpr → List Ident
  | .array _ elem (.ident i) _ => elem.references ++ [i]
  | .array _ elem _ _ => elem.references
  | .vector _ elem _ => elem.references
  | .map _ key value _ => key.references ++ value.references
  | .named none name => [name]
  | _ => []

/-- The names of other packages in a type. -/
def qualifiedNames : TypeExpr → List QualifiedRef
  | .array _ elem _ _ => elem.qualifiedNames
  | .vector _ elem _ => elem.qualifiedNames
  | .map _ key value _ => key.qualifiedNames ++ value.qualifiedNames
  | .named (some qualifier) name => [⟨qualifier, name⟩]
  | _ => []

end TypeExpr

/-- The types in the type of a member: the type of a field, or those of parameters and result. -/
def MemberType.types : MemberType → List TypeExpr
  | .plain t => [t]
  | .func sig => sig.params.map (·.type) ++ sig.result.toList

/-- The types in a member. -/
def Member.types (m : Member) : List TypeExpr := m.type.toList.flatMap MemberType.types

/-- The types in a bean. -/
def Bean.types (b : Bean) : List TypeExpr := b.body.members.flatMap Member.types

/-- The name that a constant has as its value. -/
def ConstSpec.reference? (s : ConstSpec) : Option Ident :=
  match s.value with
  | some (.ident i) => some i
  | _ => none

namespace Decl

/-- The names of the own package in a declaration. -/
def references : Decl → List Ident
  | .consts g => g.specs.filterMap ConstSpec.reference?
  | .bean b => b.types.flatMap TypeExpr.references
  | _ => []

/-- The names of other packages in a declaration. -/
def qualifiedNames : Decl → List QualifiedRef
  | .bean b => b.types.flatMap TypeExpr.qualifiedNames
  | _ => []

end Decl

namespace File

/-- The names of the own package in a file. -/
def references (f : File) : List Ident := f.decls.flatMap Decl.references

/-- The names of other packages in a file. -/
def qualifiedNames (f : File) : List QualifiedRef := f.decls.flatMap Decl.qualifiedNames

end File

/-! ### Names that are declared -/

/-- What a constant at an index of the group at `decl` is. -/
def ConstSpec.object (file : FileId) (decl : Nat) (s : ConstSpec) (index : Nat) : Object :=
  ⟨.const, s.name.name, .spec file decl index, s.name.pos, some index⟩

/-- The sort of thing that the members of a bean are. -/
def BeanKind.memberKind : BeanKind → ObjectKind
  | .struct | .protocol => .var
  | .service => .func
  | .enum => .const

/-- What a name of the member at an index of the bean at `decl` is. -/
def BeanKind.memberObject (kind : BeanKind) (file : FileId) (decl index : Nat) (i : Ident) :
    Object :=
  ⟨kind.memberKind, i.name, .field file decl index, i.pos,
    if kind = .enum then some index else none⟩

namespace Bean

/-- What a bean at `decl` is. -/
def object (file : FileId) (decl : Nat) (b : Bean) : Object :=
  ⟨.bean, b.name.name, .decl file decl, b.name.pos, none⟩

/-- The names of the members of a bean. -/
def declared (b : Bean) : List Ident := b.body.members.flatMap (·.names)

/-- The members of a bean at `decl`, one for each name. -/
def memberObjects (file : FileId) (decl : Nat) (b : Bean) : List Object :=
  b.body.members.zipIdx.flatMap fun m => m.1.names.map (b.kind.memberObject file decl m.2)

end Bean

namespace Decl

/-- The constants and beans of a declaration. -/
def declared : Decl → List Ident
  | .consts g => g.specs.map (·.name)
  | .bean b => [b.name]
  | _ => []

/-- What the declaration at an index declares. -/
def objects (file : FileId) (d : Decl) (index : Nat) : List Object :=
  match d with
  | .consts g => g.specs.zipIdx.map fun s => s.1.object file index s.2
  | .bean b => [b.object file index]
  | _ => []

end Decl

namespace File

/-- The names of the constants and beans of a file. -/
def declared (f : File) : List Ident := f.decls.flatMap Decl.declared

/-- The constants and beans of a file, in order. -/
def declarations (f : File) : List Object := f.decls.zipIdx.flatMap fun d => d.1.objects f.id d.2

/-- The beans of a file. -/
def beans (f : File) : List Bean := f.decls.filterMap fun
  | .bean b => some b
  | _ => none

end File

/-! ### Names and places -/

/-- The name of an object and its place. -/
def Object.spot (o : Object) : String × Pos := (o.name, o.pos)

/-- The name of an identifier and its place. -/
def Ident.spot (i : Ident) : String × Pos := (i.name, i.pos)

theorem Bean.spot_memberObjects (file : FileId) (decl : Nat) (b : Bean) :
    (b.memberObjects file decl).map Object.spot = b.declared.map Ident.spot := by
  have h (ms : List Member) (k : Nat) :
      ((ms.zipIdx k).flatMap fun m => m.1.names.map (b.kind.memberObject file decl m.2)).map
        Object.spot = (ms.flatMap (·.names)).map Ident.spot := by
    induction ms generalizing k with
    | nil => rfl
    | cons m ms ih =>
      rw [List.zipIdx_cons, List.flatMap_cons, List.flatMap_cons, List.map_append, List.map_append,
        ih, List.map_map]
      rfl
  exact h b.body.members 0

theorem Decl.spot_objects (file : FileId) (d : Decl) (index : Nat) :
    (d.objects file index).map Object.spot = d.declared.map Ident.spot := by
  cases d with
  | consts g =>
    have h (ss : List ConstSpec) (k : Nat) :
        ((ss.zipIdx k).map fun s => s.1.object file index s.2).map Object.spot =
          (ss.map (·.name)).map Ident.spot := by
      induction ss generalizing k with
      | nil => rfl
      | cons s ss ih => exact congrArg (s.name.spot :: ·) (ih (k + 1))
    exact h g.specs 0
  | _ => rfl

theorem File.spot_declarations (f : File) :
    f.declarations.map Object.spot = f.declared.map Ident.spot := by
  have h (ds : List Decl) (k : Nat) :
      ((ds.zipIdx k).flatMap fun d => d.1.objects f.id d.2).map Object.spot =
        (ds.flatMap Decl.declared).map Ident.spot := by
    induction ds generalizing k with
    | nil => rfl
    | cons d ds ih =>
      rw [List.zipIdx_cons, List.flatMap_cons, List.flatMap_cons, List.map_append, List.map_append,
        ih, Decl.spot_objects]
  exact h f.decls 0

/-! ### Occurrences in a placed file -/

section Placed

variable (ρ : Placement)

theorem TypeExpr.references_placed (t : TypeExpr) :
    (t.placed ρ).references = t.references.map (Ident.placed ρ) := by
  induction t with
  | array p elem size closing ih =>
    cases size with
    | ident i => simp [placed, Value.placed, references, ih]
    | bad q => exact ih
    | lit l => exact ih
  | vector p elem closing ih => exact ih
  | map p key value closing ihk ihv => simp [placed, references, ihk, ihv]
  | named qualifier name => cases qualifier <;> rfl
  | _ => rfl

theorem TypeExpr.qualifiedNames_placed (t : TypeExpr) :
    (t.placed ρ).qualifiedNames = t.qualifiedNames.map (QualifiedRef.placed ρ) := by
  induction t with
  | array p elem size closing ih => exact ih
  | vector p elem closing ih => exact ih
  | map p key value closing ihk ihv => simp [placed, qualifiedNames, ihk, ihv]
  | named qualifier name => cases qualifier <;> rfl
  | _ => rfl

theorem MemberType.types_placed (t : MemberType) :
    (t.placed ρ).types = t.types.map (TypeExpr.placed ρ) := by
  cases t with
  | plain t => rfl
  | func sig =>
    simp only [placed, Signature.placed, types, List.map_append, List.map_map]
    congr 1
    cases sig.result <;> rfl

theorem Member.types_placed (m : Member) :
    (m.placed ρ).types = m.types.map (TypeExpr.placed ρ) := by
  simp only [types, placed]
  cases m.type with
  | none => rfl
  | some t => simp [MemberType.types_placed]

theorem Bean.types_placed (b : Bean) : (b.placed ρ).types = b.types.map (TypeExpr.placed ρ) := by
  simp only [types, placed, MemberList.placed, List.flatMap_map, List.map_flatMap,
    Member.types_placed]

theorem ConstSpec.reference?_placed (s : ConstSpec) :
    (s.placed ρ).reference? = s.reference?.map (Ident.placed ρ) := by
  simp only [reference?, placed]
  rcases s.value with - | v
  · rfl
  · cases v <;> rfl

theorem Decl.references_placed (d : Decl) :
    (d.placed ρ).references = d.references.map (Ident.placed ρ) := by
  cases d with
  | consts g =>
    simp only [placed, SpecGroup.placed, references, List.filterMap_map, List.map_filterMap]
    congr 1
    funext s
    exact s.reference?_placed ρ
  | bean b =>
    simp only [placed, references, Bean.types_placed, List.flatMap_map, List.map_flatMap,
      TypeExpr.references_placed]
  | _ => rfl

theorem Decl.qualifiedNames_placed (d : Decl) :
    (d.placed ρ).qualifiedNames = d.qualifiedNames.map (QualifiedRef.placed ρ) := by
  cases d with
  | bean b =>
    simp only [placed, qualifiedNames, Bean.types_placed, List.flatMap_map, List.map_flatMap,
      TypeExpr.qualifiedNames_placed]
  | _ => rfl

theorem File.references_placed (f : File) :
    (f.placed ρ).references = f.references.map (Ident.placed ρ) := by
  simp only [references, placed, List.flatMap_map, List.map_flatMap, Decl.references_placed]

theorem File.qualifiedNames_placed (f : File) :
    (f.placed ρ).qualifiedNames = f.qualifiedNames.map (QualifiedRef.placed ρ) := by
  simp only [qualifiedNames, placed, List.flatMap_map, List.map_flatMap,
    Decl.qualifiedNames_placed]

theorem Decl.declared_placed (d : Decl) :
    (d.placed ρ).declared = d.declared.map (Ident.placed ρ) := by
  cases d with
  | consts g => simp [placed, SpecGroup.placed, declared, ConstSpec.placed, Function.comp_def]
  | _ => rfl

theorem File.declared_placed (f : File) :
    (f.placed ρ).declared = f.declared.map (Ident.placed ρ) := by
  simp only [declared, placed, List.flatMap_map, List.map_flatMap, Decl.declared_placed]

theorem Bean.declared_placed (b : Bean) :
    (b.placed ρ).declared = b.declared.map (Ident.placed ρ) := by
  simp only [declared, placed, MemberList.placed, Member.placed, List.flatMap_map,
    List.map_flatMap]

theorem File.beans_placed (f : File) : (f.placed ρ).beans = f.beans.map (Bean.placed ρ) := by
  simp only [beans, placed, List.filterMap_map, List.map_filterMap]
  congr 1
  funext d
  cases d <;> rfl

theorem Decl.objects_placed (file : FileId) (d : Decl) (index : Nat) :
    (d.placed ρ).objects ρ.fileId index = (d.objects file index).map (Object.placed ρ) := by
  cases d with
  | consts g =>
    simp only [placed, SpecGroup.placed, objects, List.zipIdx_map, List.map_map]
    rfl
  | _ => rfl

theorem File.declarations_placed (f : File) :
    (f.placed ρ).declarations = f.declarations.map (Object.placed ρ) := by
  simp only [declarations, placed, List.zipIdx_map, List.flatMap_map, List.map_flatMap]
  congr 1
  funext d
  exact Decl.objects_placed ρ f.id d.1 d.2

end Placed

end Idl
