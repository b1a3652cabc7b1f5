/-
Idl/Proofs/Respelling/Lower.lean

Lowering respelled files.

Of what is respelled, the intermediate representation shows the texts of comments and the spellings of
string literals, and nothing else: tags and import paths are lowered to what they stand for, and
positions are left out.  So two representations agree once their texts and spellings are made to agree,
which `Respelling.Reconciles` says of two changes of texts, one for either side
(`Ir.ofPackages_respelled`).
-/
import Idl.Ir.Lower
import Idl.Proofs.Respelling.Link

namespace Idl

/-! ### Other texts in a representation -/

/-- A change of the texts of comments and of the spellings of string literals. -/
structure Retexting where
  /-- What becomes of the text of doc comments and of trailing comments. -/
  comment : String → String
  /-- What becomes of the spelling of a string literal. -/
  literal : String → String

/-- The change that changes nothing. -/
def Retexting.none : Retexting := ⟨id, id⟩

namespace Ir

variable (σ : Retexting)

/-- A value, its spelling changed. -/
def Expr.retext : Expr → Expr
  | .lit .string text => .lit .string (σ.literal text)
  | e => e

/-- A field, its texts changed. -/
def Field.retext (f : Field) : Field :=
  { f with
    doc := σ.comment f.doc
    default := f.default.map (Expr.retext σ)
    comment := σ.comment f.comment }

/-- A bean, its texts changed. -/
def Bean.retext (b : Bean) : Bean :=
  { b with doc := σ.comment b.doc, fields := b.fields.map (Field.retext σ) }

/-- An import, its texts changed. -/
def ImportSpec.retext (s : ImportSpec) : ImportSpec :=
  { s with doc := σ.comment s.doc, comment := σ.comment s.comment }

/-- A constant, its texts changed. -/
def ConstSpec.retext (s : ConstSpec) : ConstSpec :=
  { s with
    doc := σ.comment s.doc
    value := s.value.retext σ
    comment := σ.comment s.comment }

/-- Imports or constants, their texts changed. -/
def GenDecl.retext (d : GenDecl) : GenDecl where
  doc := σ.comment d.doc
  imports := d.imports.map (ImportSpec.retext σ)
  consts := d.consts.map (ConstSpec.retext σ)

/-- A file, its texts changed. -/
def File.retext (f : File) : File :=
  { f with
    doc := σ.comment f.doc
    beans := f.beans.map (Bean.retext σ)
    decls := f.decls.map (GenDecl.retext σ) }

/-- A package, its texts changed. -/
def Package.retext (p : Package) : Package := { p with files := p.files.map (File.retext σ) }

/-- A representation, its texts changed. -/
def retext (ir : Ir) : Ir := ⟨ir.packages.map (Package.retext σ)⟩

/-! ### No change -/

theorem Expr.retext_none : Expr.retext .none = fun e => e := by
  funext e
  cases e with
  | lit kind text => cases kind <;> rfl
  | _ => rfl

theorem Field.retext_none : Field.retext .none = fun f => f := by
  funext f
  cases f
  unfold retext
  rw [Expr.retext_none, Option.map_id']
  rfl

theorem Bean.retext_none : Bean.retext .none = fun b => b := by
  funext b
  unfold retext
  rw [Field.retext_none, List.map_id']
  rfl

theorem GenDecl.retext_none : GenDecl.retext .none = fun d => d := by
  have himport : ImportSpec.retext .none = fun s => s := rfl
  have hconst : ConstSpec.retext .none = fun s => s := by
    funext s
    unfold ConstSpec.retext
    rw [Expr.retext_none]
    rfl
  funext d
  unfold retext
  rw [himport, hconst, List.map_id', List.map_id']
  rfl

theorem Package.retext_none : Package.retext .none = fun p => p := by
  have hfile : File.retext .none = fun f => f := by
    funext f
    unfold File.retext
    rw [Bean.retext_none, GenDecl.retext_none, List.map_id', List.map_id']
    rfl
  funext p
  unfold retext
  rw [hfile, List.map_id']

/-- The change that changes nothing leaves a representation as it is. -/
theorem retext_none (ir : Ir) : ir.retext .none = ir := by
  unfold retext
  rw [Package.retext_none, List.map_id']

end Ir

/-- What `σ` makes of respelled texts is what `τ` makes of the texts themselves. -/
structure Respelling.Reconciles (ρ : Respelling) (σ τ : Retexting) : Prop where
  doc (g : Option CommentGroup) :
    σ.comment (lowerDoc (g.map (CommentGroup.respelled ρ))) = τ.comment (lowerDoc g)
  comment (g : Option CommentGroup) :
    σ.comment (lowerComment (g.map (CommentGroup.respelled ρ))) = τ.comment (lowerComment g)
  literal (t : String) : σ.literal (ρ.literal t) = τ.literal t

/-! ### What stays -/

variable (ρ : Respelling)

@[simp] theorem lowerTag_respelled (l : Option Lit) :
    lowerTag (l.map (Lit.respelled ρ)) = lowerTag l := by
  cases l with
  | none => rfl
  | some l =>
    unfold lowerTag
    simp only [Option.map_some, Option.bind_some, Lit.unquote?_respelled]

theorem map_name_respelled (is : List Ident) :
    (is.map (Ident.respelled ρ)).map (·.name) = is.map (·.name) := by
  rw [List.map_map]
  rfl

/-- The path of an import that stands for nothing is left alone. -/
theorem ImportSpec.package_respelled (s : ImportSpec) :
    (unquote? (s.respelled ρ).path.text).getD (s.respelled ρ).path.text =
      (unquote? s.path.text).getD s.path.text := by
  rw [show (s.respelled ρ).path = s.path.respelled ρ from rfl, Lit.unquote?_respelled]
  cases h : unquote? s.path.text with
  | some path => rfl
  | none =>
    rcases hl : s.path with ⟨pos, kind, text⟩
    rw [hl] at h
    cases kind with
    | string => exact ρ.literal_malformed h
    | _ => rfl

/-! ### Looking things up -/

/-- What lowering looks things up in, respelled. -/
def LowerEnv.respelled (env : LowerEnv) : LowerEnv where
  symbols := env.symbols.respelled ρ
  files := env.files.map (File.respelled ρ)

namespace LowerEnv

variable (env : LowerEnv)

theorem file?_respelled (id : FileId) :
    (env.respelled ρ).file? id = (env.file? id).map (File.respelled ρ) := by
  show (env.files.map (File.respelled ρ)).find? _ = _
  rw [List.find?_map]
  rfl

theorem objectOf?_respelled (f : File) (i : Ident) :
    (env.respelled ρ).objectOf? (f.respelled ρ) (i.respelled ρ) =
      (env.objectOf? f i).map (Object.respelled ρ) := by
  unfold objectOf?
  rw [show (f.respelled ρ).resolutions = f.resolutions from rfl, Ident.respelled_id]
  cases f.resolutions.get? i.id with
  | none => rfl
  | some object => exact Array.getElem?_map

theorem constSpec?_respelled (o : Origin) : (env.respelled ρ).constSpec? o =
    (env.constSpec? o).map (Prod.map (File.respelled ρ) (ConstSpec.respelled ρ)) := by
  cases o with
  | spec file decl spec =>
    unfold constSpec?
    dsimp only
    rw [file?_respelled]
    cases env.file? file with
    | none => rfl
    | some f =>
      have hdecl : (f.respelled ρ).decls[decl]? = f.decls[decl]?.map (Decl.respelled ρ) :=
        List.getElem?_map ..
      simp only [Option.map_some, Option.bind_some, hdecl]
      rcases f.decls[decl]? with - | d
      · rfl
      cases d with
      | consts g =>
        have hspec : (g.respelled ρ (ConstSpec.respelled ρ)).specs[spec]? =
            g.specs[spec]?.map (ConstSpec.respelled ρ) := List.getElem?_map ..
        simp only [Option.map_some, Decl.respelled, hspec, Option.map_map]
        rfl
      | _ => rfl
  | _ => rfl

/-- Chains of constants end in the same numbers. -/
theorem constValue?_respelled (length : Nat) (f : File) (i : Ident) :
    (env.respelled ρ).constValue? length (f.respelled ρ) (i.respelled ρ) =
      env.constValue? length f i := by
  induction length generalizing f i with
  | zero => rfl
  | succ length ih =>
    unfold constValue?
    rw [objectOf?_respelled]
    cases env.objectOf? f i with
    | none => rfl
    | some o =>
      have hkind : (o.respelled ρ).kind = o.kind := rfl
      have horigin : (o.respelled ρ).origin = o.origin := rfl
      simp only [Option.map_some, Option.bind_some, hkind, horigin, constSpec?_respelled]
      split
      · rcases env.constSpec? o.origin with - | ⟨g, ⟨doc, name, value, comment⟩⟩
        · rfl
        rcases value with - | (pos | next | ⟨pos, kind, text⟩)
        · rfl
        · rfl
        · exact ih g next
        · cases kind <;> rfl
      · rfl

end LowerEnv

/-! ### Types -/

variable (env : LowerEnv) (f : File)

theorem lowerSize_respelled (v : Value) :
    lowerSize (env.respelled ρ) (f.respelled ρ) (v.respelled ρ) = lowerSize env f v := by
  rcases v with pos | i | ⟨pos, kind, text⟩
  · rfl
  · exact congrArg (Ir.ArraySize.const i.name) (env.constValue?_respelled ρ _ f i)
  · cases kind <;> rfl

theorem lowerQualifier_respelled (i : Ident) :
    lowerQualifier (env.respelled ρ) (f.respelled ρ) (i.respelled ρ) = lowerQualifier env f i := by
  unfold lowerQualifier
  rw [LowerEnv.objectOf?_respelled, Option.map_map]
  rfl

theorem TypeExpr.lower_respelled (t : TypeExpr) :
    (t.respelled ρ).lower (env.respelled ρ) (f.respelled ρ) = t.lower env f := by
  induction t with
  | bad p => rfl
  | basic name b => rfl
  | array p elem size closing ih => simp only [respelled, lower, ih, lowerSize_respelled]
  | vector p elem closing ih => simp only [respelled, lower, ih]
  | map p key value closing ihk ihv => simp only [respelled, lower, ihk, ihv]
  | named qualifier name =>
    cases qualifier with
    | none => rfl
    | some q =>
      exact congrArg (Ir.Ty.struct · name.name) (lowerQualifier_respelled ρ env f q)

theorem Param.lower_respelled (p : Param) :
    (p.respelled ρ).lower (env.respelled ρ) (f.respelled ρ) = p.lower env f := by
  obtain ⟨type, name⟩ := p
  cases name <;> simp [respelled, lower, type.lower_respelled ρ env f]

theorem MemberType.lower_respelled (t : MemberType) :
    (t.respelled ρ).lower (env.respelled ρ) (f.respelled ρ) = t.lower env f := by
  cases t with
  | plain t => exact t.lower_respelled ρ env f
  | func sig =>
    cases h : sig.result <;>
      simp [respelled, Signature.respelled, lower, h, Param.lower_respelled,
        TypeExpr.lower_respelled, Function.comp_def]

/-! ### Texts -/

variable {ρ} {σ τ : Retexting} (h : ρ.Reconciles σ τ)
include h

theorem Value.lower_respelled (v : Value) :
    (v.respelled ρ).lower.retext σ = v.lower.retext τ := by
  rcases v with pos | i | ⟨pos, kind, text⟩
  · rfl
  · rfl
  · cases kind with
    | string => exact congrArg (Ir.Expr.lit .string) (h.literal text)
    | _ => rfl

theorem Member.lower_respelled (m : Member) :
    ((m.respelled ρ).lower (env.respelled ρ) (f.respelled ρ)).retext σ =
      (m.lower env f).retext τ := by
  have htype : (m.type.map (MemberType.respelled ρ)).map
      (MemberType.lower (env.respelled ρ) (f.respelled ρ)) = m.type.map (MemberType.lower env f) := by
    rw [Option.map_map]
    exact congrArg (Option.map · m.type) (funext fun t => t.lower_respelled ρ env f)
  have hvalue : ((m.value.map (Value.respelled ρ)).map Value.lower).map (Ir.Expr.retext σ) =
      (m.value.map Value.lower).map (Ir.Expr.retext τ) := by
    rw [Option.map_map, Option.map_map, Option.map_map]
    exact congrArg (Option.map · m.value) (funext fun v => v.lower_respelled h)
  unfold Member.lower Member.respelled Ir.Field.retext
  simp only [h.doc, h.comment, map_name_respelled, htype, hvalue, lowerTag_respelled]

omit h in
theorem Bean.isExtension_respelled (b : Bean) (m : Member) :
    (b.respelled ρ).isExtension (m.respelled ρ) = b.isExtension m := by
  unfold isExtension respelled Member.respelled
  rw [List.isEmpty_map]

theorem Bean.lower_respelled (b : Bean) :
    ((b.respelled ρ).lower (env.respelled ρ) (f.respelled ρ)).retext σ =
      (b.lower env f).retext τ := by
  have hmembers (p : Bool → Bool) : (b.respelled ρ).body.members.filter
      (fun m => p ((b.respelled ρ).isExtension m)) =
        (b.body.members.filter fun m => p (b.isExtension m)).map (Member.respelled ρ) := by
    show (b.body.members.map (Member.respelled ρ)).filter _ = _
    rw [List.filter_map]
    simp only [Function.comp_def, isExtension_respelled]
  have hextended := hmembers id
  have hfields := hmembers not
  simp only [id] at hextended
  have htype (m : Member) : (m.respelled ρ).type.map
      (MemberType.lower (env.respelled ρ) (f.respelled ρ)) =
        m.type.map (MemberType.lower env f) := by
    show (m.type.map (MemberType.respelled ρ)).map _ = _
    rw [Option.map_map]
    exact congrArg (Option.map · m.type) (funext fun t => t.lower_respelled ρ env f)
  unfold Bean.lower Ir.Bean.retext
  simp only [hextended, hfields, List.filterMap_map, List.map_map, Function.comp_def, htype,
    Member.lower_respelled env f h]
  simp only [respelled, h.doc, lowerTag_respelled, Ident.respelled_name]

theorem ImportSpec.lower_respelled (s : ImportSpec) :
    (s.respelled ρ).lower.retext σ = s.lower.retext τ := by
  have hname : ((s.localName.map (Ident.respelled ρ)).map (·.name)).getD "" =
      (s.localName.map (·.name)).getD "" := by
    rw [Option.map_map]
    rfl
  unfold lower Ir.ImportSpec.retext
  simp only [package_respelled]
  simp only [respelled, h.doc, h.comment, hname]

theorem ConstSpec.lower_respelled (s : ConstSpec) :
    (s.respelled ρ).lower.retext σ = s.lower.retext τ := by
  have hvalue : (((s.value.map (Value.respelled ρ)).map Value.lower).getD .invalid).retext σ =
      ((s.value.map Value.lower).getD .invalid).retext τ := by
    cases s.value with
    | none => rfl
    | some v => exact v.lower_respelled h
  unfold lower respelled Ir.ConstSpec.retext
  simp only [h.doc, h.comment, hvalue, Ident.respelled_name]

theorem Decl.lowerGroup?_respelled (d : Decl) :
    (d.respelled ρ).lowerGroup?.map (Ir.GenDecl.retext σ) =
      d.lowerGroup?.map (Ir.GenDecl.retext τ) := by
  cases d with
  | imports g =>
    simp [respelled, lowerGroup?, SpecGroup.respelled, Ir.GenDecl.retext, h.doc,
      ImportSpec.lower_respelled h]
  | consts g =>
    simp [respelled, lowerGroup?, SpecGroup.respelled, Ir.GenDecl.retext, h.doc,
      ConstSpec.lower_respelled h]
  | _ => rfl

theorem File.lower_respelled :
    ((f.respelled ρ).lower (env.respelled ρ)).retext σ = (f.lower env).retext τ := by
  have hbean (d : Decl) : (d.respelled ρ).bean? = d.bean?.map (Bean.respelled ρ) := by
    cases d <;> rfl
  have hbeans : (f.respelled ρ).decls.filterMap Decl.bean? =
      (f.decls.filterMap Decl.bean?).map (Bean.respelled ρ) := by
    show (f.decls.map (Decl.respelled ρ)).filterMap Decl.bean? = _
    rw [List.filterMap_map, List.map_filterMap]
    exact congrArg (List.filterMap · f.decls) (funext hbean)
  have hgroups : ((f.respelled ρ).decls.filterMap Decl.lowerGroup?).map (Ir.GenDecl.retext σ) =
      (f.decls.filterMap Decl.lowerGroup?).map (Ir.GenDecl.retext τ) := by
    show ((f.decls.map (Decl.respelled ρ)).filterMap Decl.lowerGroup?).map _ = _
    rw [List.filterMap_map, List.map_filterMap, List.map_filterMap]
    exact congrArg (List.filterMap · f.decls) (funext (Decl.lowerGroup?_respelled h))
  unfold File.lower Ir.File.retext
  simp only [hbeans, hgroups, List.map_map, Function.comp_def, Bean.lower_respelled env f h]
  simp only [respelled, h.doc, map_name_respelled, Ident.respelled_name]

/-! ### Packages -/

omit h in
theorem Package.lowerImports_respelled (p : Package) :
    (p.respelled ρ).lowerImports = p.lowerImports := by
  have himports : (p.respelled ρ).files.values.flatMap File.imports =
      (p.files.values.flatMap File.imports).map (ImportSpec.respelled ρ) := by
    show (p.files.map (File.respelled ρ)).values.flatMap File.imports = _
    rw [NameMap.values_map, List.flatMap_map, List.map_flatMap]
    exact congrArg (List.flatMap · p.files.values) (funext (File.imports_respelled ρ))
  have hpath (s : ImportSpec) : unquote? (s.respelled ρ).path.text = unquote? s.path.text :=
    Lit.unquote?_respelled ρ s.path
  unfold lowerImports
  rw [himports, List.foldl_map]
  simp only [ImportSpec.id?_respelled, hpath]
  rfl

theorem Package.lower_respelled (p : Package) :
    ((p.respelled ρ).lower (env.respelled ρ)).retext σ = (p.lower env).retext τ := by
  unfold Package.lower Ir.Package.retext
  simp only [lowerImports_respelled]
  simp only [respelled, NameMap.values_map, List.map_map, Function.comp_def,
    File.lower_respelled env _ h]

omit h in
theorem LowerEnv.ofPackages_respelled (packages : NameMap Package) (t : SymbolTable) :
    LowerEnv.ofPackages (packages.map (Package.respelled ρ)) (t.respelled ρ) =
      (LowerEnv.ofPackages packages t).respelled ρ := by
  unfold ofPackages LowerEnv.respelled
  congr 1
  rw [NameMap.values_map, List.flatMap_map, List.map_flatMap]
  exact congrArg (List.flatMap · packages.values) (funext fun p => NameMap.values_map _ p.files)

/-- Respelled packages are lowered as the packages themselves are, once the texts agree. -/
theorem Ir.ofPackages_respelled (packages : NameMap Idl.Package) (t : SymbolTable) :
    (Ir.ofPackages (packages.map (Idl.Package.respelled ρ)) (t.respelled ρ)).retext σ =
      (Ir.ofPackages packages t).retext τ := by
  unfold Ir.ofPackages Ir.retext
  rw [LowerEnv.ofPackages_respelled, NameMap.values_map]
  simp only [List.map_map, Function.comp_def, Idl.Package.lower_respelled _ h]

end Idl
