/-
Idl/Proofs/Ir/Gaps.lean

One warning for each gap in the representation.

What could not be parsed is found twice: a walk over the tree of a file reports it, and the lowering puts
something invalid in its place.  Besides, the lowering reports sizes of arrays on its way.  Both visit
the same types and values, so there are as many warnings as gaps: part by part (`Balanced`), from the
size of an array up to the declarations of a file.  Only the value of a bean to extend would be walked
over and not lowered, and no such value is parsed (`Bean.valuesInEnums`).

Main result: `warnings_match_gaps`, for every file of a compilation.
-/
import Idl.Proofs.Ir.SizeWarnings
import Idl.Proofs.Syntax.Members

namespace Idl

/-! ### Gaps in a representation -/

namespace Ir

mutual

/-- The types in a type, with the type itself. -/
def Ty.parts : Ty → List Ty
  | .basic name => [.basic name]
  | .array elem size => .array elem size :: elem.parts
  | .vector elem => .vector elem :: elem.parts
  | .map key value => .map key value :: (key.parts ++ value.parts)
  | .struct package name => [.struct package name]
  | .func params result => .func params result :: (paramParts params ++ typeParts result)
  | .invalid => [.invalid]

/-- The types in a value. -/
def Expr.parts : Expr → List Ty
  | .type t => t.parts
  | _ => []

/-- The types in parameters. -/
def paramParts : List Field → List Ty
  | [] => []
  | ⟨_, _, type, _, default, _, _⟩ :: ps => typeParts type ++ valueParts default ++ paramParts ps

/-- The types in a type, if there is one. -/
def typeParts : Option Ty → List Ty
  | some t => t.parts
  | none => []

/-- The types in a value, if there is one. -/
def valueParts : Option Expr → List Ty
  | some e => e.parts
  | none => []

end

/-- The types in a field. -/
def Field.parts (f : Field) : List Ty := typeParts f.type ++ valueParts f.default

/-- The types in a bean. -/
def Bean.parts (b : Bean) : List Ty := b.extended.flatMap Ty.parts ++ b.fields.flatMap Field.parts

/-- The types in a file. -/
def File.parts (f : File) : List Ty :=
  f.beans.flatMap Bean.parts ++ f.consts.flatMap fun c => c.value.parts

/-- Whether a type is an array whose size has no known length. -/
def Ty.isUnsized : Ty → Bool
  | .array _ size => size.length?.isNone
  | _ => false

/-- Whether a value is invalid. -/
def Expr.isInvalid : Expr → Bool
  | .invalid => true
  | _ => false

/-- The values of the members of a bean, if it is an enumeration. -/
def Bean.enumValues (b : Bean) : List Expr :=
  if b.kind = .enum then b.fields.filterMap (·.default) else []

/-- The values of the members of enumerations. -/
def File.enumValues (f : File) : List Expr := f.beans.flatMap Bean.enumValues

/-- How many of some types are gaps: invalid, or arrays without a known length. -/
def gaps (ts : List Ty) : Nat := ts.countP Ty.isInvalid + ts.countP Ty.isUnsized

@[simp] theorem gaps_nil : gaps [] = 0 := rfl

@[simp] theorem gaps_append (ts us : List Ty) : gaps (ts ++ us) = gaps ts + gaps us := by
  unfold gaps
  rw [List.countP_append, List.countP_append]
  omega

theorem gaps_perm {ts us : List Ty} (h : ts.Perm us) : gaps ts = gaps us := by
  unfold gaps
  rw [h.countP_eq, h.countP_eq]

end Ir

/-! ### Flaws of a tree -/

/-- How many bad types and values a tree has. -/
def Tree.flaws (t : Tree) : Nat := t.bads.countP (·.1 ≠ .decl)

namespace Tree

@[simp] theorem flaws_inner (k : NodeKind) (p : Pos) (children : List Tree) :
    (node (.inner k p) children).flaws = (children.map flaws).sum := by
  unfold flaws
  rw [bads_inner, List.countP_flatMap]
  rfl

@[simp] theorem flaws_bad (what : BadNode) (span : Span) :
    (node (.bad what span) []).flaws = if what = .decl then 0 else 1 := by
  unfold flaws
  rw [bads_bad]
  cases what <;> rfl

@[simp] theorem flaws_comments (g : Option CommentGroup) :
    ((commentTrees g).map flaws).sum = 0 := by
  unfold flaws
  rw [← Function.comp_def, ← List.countP_flatMap, bads_comments]
  rfl

end Tree

@[simp] theorem Ident.flaws_tree (i : Ident) : i.tree.flaws = 0 := by
  unfold Tree.flaws
  rw [bads_tree]
  rfl

@[simp] theorem Lit.flaws_tree (l : Lit) : l.tree.flaws = 0 := by
  unfold Tree.flaws
  rw [bads_tree]
  rfl

@[simp] theorem Ident.flaws_trees (is : List Ident) :
    (is.map (Tree.flaws ∘ Ident.tree)).sum = 0 := by
  induction is with
  | nil => rfl
  | cons i is ih =>
    rw [List.map_cons, List.sum_cons, ih]
    exact i.flaws_tree

/-! ### As many warnings as gaps -/

section Lowering

variable (env : LowerEnv) (f : File)

/-- A part with `n` flaws and the sizes `vs` is lowered to the types `ts` and the values `es`, and there
are as many warnings as gaps. -/
def Balanced (n : Nat) (vs : List Value) (ts : List Ir.Ty) (es : List Ir.Expr) : Prop :=
  n + (vs.flatMap (sizeWarnings env f)).length = Ir.gaps ts + es.countP Ir.Expr.isInvalid

variable {env f}

namespace Balanced

variable {n n' : Nat} {vs vs' : List Value} {ts ts' : List Ir.Ty} {es es' : List Ir.Expr}

theorem nil : Balanced env f 0 [] [] [] := rfl

theorem append (h : Balanced env f n vs ts es) (h' : Balanced env f n' vs' ts' es') :
    Balanced env f (n + n') (vs ++ vs') (ts ++ ts') (es ++ es') := by
  unfold Balanced at *
  rw [List.flatMap_append, List.length_append, Ir.gaps_append, List.countP_append]
  omega

theorem flatMap {α : Type} {xs : List α} {n : α → Nat} {vs : α → List Value} {ts : α → List Ir.Ty}
    {es : α → List Ir.Expr} (h : ∀ x ∈ xs, Balanced env f (n x) (vs x) (ts x) (es x)) :
    Balanced env f (xs.map n).sum (xs.flatMap vs) (xs.flatMap ts) (xs.flatMap es) := by
  induction xs with
  | nil => exact nil
  | cons x xs ih =>
    obtain ⟨hx, hxs⟩ := List.forall_mem_cons.1 h
    exact hx.append (ih hxs)

/-- Parts without values of their own. -/
theorem flatMap_types {α : Type} {xs : List α} {n : α → Nat} {vs : α → List Value}
    {ts : α → List Ir.Ty} (h : ∀ x ∈ xs, Balanced env f (n x) (vs x) (ts x) []) :
    Balanced env f (xs.map n).sum (xs.flatMap vs) (xs.flatMap ts) [] := by
  have hall := flatMap h
  rwa [flatMap_nothing] at hall

/-- A type around others that is neither invalid nor an array is no gap. -/
theorem around (h : Balanced env f n vs ts es) {t : Ir.Ty} (ht : Ir.gaps [t] = 0) :
    Balanced env f n vs (t :: ts) es := by
  have hgaps : Ir.gaps (t :: ts) = Ir.gaps ts := by
    rw [← List.singleton_append, Ir.gaps_append, ht, Nat.zero_add]
  unfold Balanced
  rw [hgaps]
  exact h

/-- The order of the gaps does not matter. -/
theorem perm (h : Balanced env f n vs ts es) (hts : ts.Perm ts') (hes : es.Perm es') :
    Balanced env f n vs ts' es' := by
  unfold Balanced
  rw [← Ir.gaps_perm hts, ← hes.countP_eq]
  exact h

end Balanced

/-- A value that is not the size of an array has no types. -/
theorem Value.parts_lower (v : Value) : v.lower.parts = [] := by
  cases v <;> rfl

/-- A bad value is lowered as invalid. -/
theorem Value.balanced (v : Value) : Balanced env f v.tree.flaws [] [] [v.lower] := by
  cases v <;> simp [Balanced, tree, lower, Ir.Expr.isInvalid]

/-- A size is bad or warned about, or it is known. -/
theorem Value.size_balanced (v : Value) (elem : Ir.Ty) :
    Balanced env f v.tree.flaws [v] [.array elem (lowerSize env f v)] [] := by
  have hgaps : Ir.gaps [.array elem (lowerSize env f v)] =
      if (lowerSize env f v).length?.isNone then 1 else 0 := by
    unfold Ir.gaps
    rw [List.countP_singleton, List.countP_singleton]
    exact Nat.zero_add _
  unfold Balanced
  rw [hgaps, List.flatMap_singleton]
  cases v with
  | bad p => rfl
  | _ =>
    unfold sizeWarnings
    cases (lowerSize env f _).length? <;> simp [tree]

/-- The gaps in a type are its flaws and the sizes that are warned about. -/
theorem TypeExpr.balanced (t : TypeExpr) :
    Balanced env f t.tree.flaws t.sizes (t.lower env f).parts [] := by
  induction t with
  | bad p => rfl
  | basic name b =>
    have hnone : (basic name b).tree.flaws = 0 := by simp [tree]
    rw [hnone]
    exact Balanced.nil.around rfl
  | named qualifier name =>
    have hnone : (named qualifier name).tree.flaws = 0 := by cases qualifier <;> simp [tree]
    rw [hnone]
    exact Balanced.nil.around rfl
  | array p elem size closing ih =>
    have hsum : (array p elem size closing).tree.flaws = elem.tree.flaws + size.tree.flaws := by
      simp [tree]
    rw [hsum]
    -- the size is reported behind the element, and the array is listed in front of it
    exact (ih.append (size.size_balanced (elem.lower env f))).perm (List.perm_append_singleton ..)
      (.refl [])
  | vector p elem closing ih =>
    have hsame : (vector p elem closing).tree.flaws = elem.tree.flaws := by simp [tree]
    rw [hsame]
    exact ih.around rfl
  | map p key value closing ihk ihv =>
    have hsum : (map p key value closing).tree.flaws = key.tree.flaws + value.tree.flaws := by
      simp [tree]
    rw [hsum]
    exact (ihk.append ihv).around rfl

theorem paramParts_map (ps : List Param) :
    Ir.paramParts (ps.map (Param.lower env f)) = ps.flatMap fun p => (p.type.lower env f).parts := by
  induction ps with
  | nil => rfl
  | cons p ps ih =>
    rw [List.map_cons, List.flatMap_cons, ← ih]
    show (p.type.lower env f).parts ++ [] ++ _ = _
    rw [List.append_nil]

theorem typeParts_map {α : Type} (g : α → Ir.Ty) (t : Option α) :
    Ir.typeParts (t.map g) = t.toList.flatMap fun t => (g t).parts := by
  cases t with
  | none => rfl
  | some t => exact (List.flatMap_singleton ..).symm

@[simp] theorem Param.flaws_tree (p : Param) : p.tree.flaws = p.type.tree.flaws := by
  cases h : p.name <;> simp [tree, h]

/-- The type of a method is no gap itself. -/
theorem MemberType.balanced (t : MemberType) : Balanced env f t.tree.flaws
    (t.types.flatMap TypeExpr.sizes) (t.lower env f).parts [] := by
  cases t with
  | plain t =>
    show Balanced env f t.tree.flaws ([t].flatMap TypeExpr.sizes) (t.lower env f).parts []
    rw [List.flatMap_singleton]
    exact t.balanced
  | func sig =>
    have hflaws : (func sig).tree.flaws = (sig.params.map fun p => p.type.tree.flaws).sum +
        (sig.result.toList.map fun t => t.tree.flaws).sum := by
      cases h : sig.result <;> simp [tree, h, Function.comp_def]
    have hsizes : (func sig).types.flatMap TypeExpr.sizes =
        (sig.params.flatMap fun p => p.type.sizes) ++ sig.result.toList.flatMap TypeExpr.sizes := by
      unfold types
      rw [List.flatMap_append, List.flatMap_map]
    have hparts : ((func sig).lower env f).parts = .func (sig.params.map (Param.lower env f))
        (sig.result.map (TypeExpr.lower env f)) ::
          ((sig.params.flatMap fun p => (p.type.lower env f).parts) ++
            sig.result.toList.flatMap fun t => (t.lower env f).parts) := by
      rw [← paramParts_map, ← typeParts_map]
      rfl
    rw [hflaws, hsizes, hparts]
    have hparams : Balanced env f _ _ _ [] :=
      .flatMap_types fun p (_ : p ∈ sig.params) => p.type.balanced
    have hresult : Balanced env f _ _ _ [] :=
      .flatMap_types fun t (_ : t ∈ sig.result.toList) => t.balanced
    exact (hparams.append hresult).around rfl

/-! ### Members and beans -/

theorem Member.parts_lower (m : Member) :
    (m.lower env f).parts = m.type.toList.flatMap fun t => (t.lower env f).parts := by
  have hvalue : Ir.valueParts (m.value.map Value.lower) = [] := by
    cases m.value with
    | none => rfl
    | some v => exact v.parts_lower
  rw [← typeParts_map]
  show Ir.typeParts _ ++ Ir.valueParts (m.value.map Value.lower) = _
  rw [hvalue, List.append_nil]
  rfl

/-- Values of members and constants have no types. -/
theorem values_balanced (v : Option Value) : Balanced env f
    (v.toList.map fun v => v.tree.flaws).sum [] [] (v.map Value.lower).toList := by
  cases v with
  | none => exact .nil
  | some v =>
    have hsum : ((some v).toList.map fun v => v.tree.flaws).sum = v.tree.flaws := by simp
    rw [hsum]
    exact v.balanced

/-- A member has gaps in its type and in its value. -/
theorem Member.balanced (m : Member) : Balanced env f m.tree.flaws (m.types.flatMap TypeExpr.sizes)
    (m.lower env f).parts (m.value.map Value.lower).toList := by
  have hflaws : m.tree.flaws = (m.type.toList.map fun t => t.tree.flaws).sum +
      (m.value.toList.map fun v => v.tree.flaws).sum := by
    obtain ⟨doc, options, type, names, value, tag, comment⟩ := m
    cases type <;> cases value <;> cases tag <;> simp [tree]
  have htypes : m.types.flatMap TypeExpr.sizes =
      m.type.toList.flatMap fun t => t.types.flatMap TypeExpr.sizes := List.flatMap_assoc
  have htype : Balanced env f (m.type.toList.map fun t => t.tree.flaws).sum
      (m.types.flatMap TypeExpr.sizes) (m.lower env f).parts [] := by
    rw [htypes, m.parts_lower]
    exact Balanced.flatMap_types fun t _ => t.balanced
  have hboth := htype.append (values_balanced m.value)
  rwa [← hflaws, List.append_nil, List.append_nil, List.nil_append] at hboth

/-- Only the members of enumerations have values. -/
def Bean.ValuesInEnums (b : Bean) : Prop := b.kind ≠ .enum → ∀ m ∈ b.body.members, m.value = none

/-- The values of the members of an enumeration are all that its bean has. -/
theorem Bean.enumValues_lower {b : Bean} (h : b.ValuesInEnums) : (b.lower env f).enumValues =
    b.body.members.flatMap fun m => (m.value.map Value.lower).toList := by
  by_cases hkind : b.kind = .enum
  · have hall : b.body.members.filter (fun m => !b.isExtension m) = b.body.members :=
      List.filter_eq_self.2 fun m _ => by simp [isExtension, hkind]
    have hvalues : (b.lower env f).enumValues = (b.lower env f).fields.filterMap (·.default) :=
      if_pos hkind
    rw [hvalues]
    unfold lower
    rw [hall, List.filterMap_map, List.filterMap_eq_flatMap_toList]
    rfl
  · have hvalues : (b.lower env f).enumValues = [] := if_neg hkind
    rw [hvalues]
    refine (List.flatMap_eq_nil_iff.2 fun m hm => ?_).symm
    rw [h hkind m hm]
    rfl

/-- The types in a bean are those in its members, whether they extend the bean or not. -/
theorem Bean.parts_lower (b : Bean) : (b.lower env f).parts.Perm
    (b.body.members.flatMap fun m => (m.lower env f).parts) := by
  have hextended : (b.lower env f).extended.flatMap Ir.Ty.parts =
      (b.body.members.filter b.isExtension).flatMap fun m => (m.lower env f).parts := by
    unfold lower
    rw [List.filterMap_eq_flatMap_toList, List.flatMap_assoc]
    refine List.flatMap_congr fun m _ => ?_
    rw [m.parts_lower]
    cases m.type <;> rfl
  have hfields : (b.lower env f).fields.flatMap Ir.Field.parts =
      (b.body.members.filter fun m => !b.isExtension m).flatMap fun m => (m.lower env f).parts := by
    unfold lower
    rw [List.flatMap_map]
  -- the types that extend the bean come first, wherever they are written
  unfold Ir.Bean.parts
  rw [hextended, hfields, ← List.flatMap_append]
  exact (List.filter_append_perm ..).flatMap_right _

theorem Bean.balanced {b : Bean} (h : b.ValuesInEnums) : Balanced env f b.tree.flaws
    (b.types.flatMap TypeExpr.sizes) (b.lower env f).parts (b.lower env f).enumValues := by
  have hflaws : b.tree.flaws = (b.body.members.map fun m => m.tree.flaws).sum := by
    cases htag : b.tag <;> simp [tree, MemberList.tree, htag, Function.comp_def]
  have htypes : b.types.flatMap TypeExpr.sizes =
      b.body.members.flatMap fun m => m.types.flatMap TypeExpr.sizes := List.flatMap_assoc
  rw [hflaws, htypes, enumValues_lower h]
  exact (Balanced.flatMap fun m _ => m.balanced).perm b.parts_lower.symm (.refl _)

/-! ### Files -/

/-- The constants that a declaration declares. -/
def Decl.constSpecs : Decl → List ConstSpec
  | .consts g => g.specs
  | _ => []

/-- The constants of a file. -/
def File.constSpecs (f : File) : List ConstSpec := f.decls.flatMap Decl.constSpecs

/-- The values of a lowered file that the file gives to its constants; a constant may have none. -/
def File.givenValues (f : File) (lowered : Ir.File) : List Ir.Expr :=
  ((f.constSpecs.zip lowered.consts).filter (·.1.value.isSome)).map (·.2.value)

/-- Each constant of a file is lowered, in order. -/
theorem File.consts_lower : (f.lower env).consts = f.constSpecs.map ConstSpec.lower := by
  show (f.decls.filterMap Decl.lowerGroup?).flatMap (·.consts) = _
  unfold constSpecs
  rw [List.filterMap_eq_flatMap_toList, List.flatMap_assoc, List.map_flatMap]
  exact List.flatMap_congr fun d _ => by cases d <;> simp [Decl.lowerGroup?, Decl.constSpecs]

theorem File.givenValues_lower : f.givenValues (f.lower env) =
    f.constSpecs.flatMap fun s => (s.value.map Value.lower).toList := by
  unfold givenValues
  rw [consts_lower]
  induction f.constSpecs with
  | nil => rfl
  | cons s ss ih => cases h : s.value <;> simp [h, ih, ConstSpec.lower]

theorem ConstSpec.balanced (s : ConstSpec) :
    Balanced env f s.tree.flaws [] [] (s.value.map Value.lower).toList := by
  have hflaws : s.tree.flaws = (s.value.toList.map fun v => v.tree.flaws).sum := by
    cases h : s.value <;> simp [tree, h]
  rw [hflaws]
  exact values_balanced s.value

theorem File.parts_lower : (f.lower env).parts =
    (f.decls.filterMap Decl.bean?).flatMap fun b => (b.lower env f).parts := by
  have hconsts : (f.lower env).consts.flatMap (fun c => c.value.parts) = [] := by
    rw [consts_lower, List.flatMap_map]
    refine List.flatMap_eq_nil_iff.2 fun s _ => ?_
    unfold ConstSpec.lower
    cases s.value with
    | none => rfl
    | some v => exact v.parts_lower
  unfold Ir.File.parts
  rw [hconsts, List.append_nil]
  exact List.flatMap_map ..

/-- A declaration has gaps in its constants or in its bean.  What is malformed as a whole is not
counted. -/
theorem Decl.balanced {d : Decl} (h : ∀ b ∈ d.bean?, b.ValuesInEnums) : Balanced env f d.tree.flaws
    (d.bean?.toList.flatMap fun b => b.types.flatMap TypeExpr.sizes)
    (d.bean?.toList.flatMap fun b => (b.lower env f).parts)
    (d.constSpecs.flatMap (fun s => (s.value.map Value.lower).toList) ++
      d.bean?.toList.flatMap fun b => (b.lower env f).enumValues) := by
  cases d with
  | bad span =>
    have hnone : (bad span).tree.flaws = 0 := by simp [tree]
    rw [hnone]
    exact .nil
  | imports g =>
    have hspec (s : ImportSpec) : s.tree.flaws = 0 := by
      unfold Tree.flaws
      rw [s.bads_tree]
      rfl
    have hnone : (imports g).tree.flaws = 0 := by simp [tree, Function.comp_def, hspec]
    rw [hnone]
    exact .nil
  | consts g =>
    have hflaws : (consts g).tree.flaws = (g.specs.map fun s => s.tree.flaws).sum := by
      simp [tree, Function.comp_def]
    have hspecs : Balanced env f _ _ _ _ := .flatMap fun s (_ : s ∈ g.specs) => s.balanced
    rw [flatMap_nothing, flatMap_nothing, ← hflaws] at hspecs
    exact hspecs.perm (.refl _) (.of_eq (List.append_nil _).symm)
  | bean b =>
    have hone {α : Type} (g : Bean → List α) : (bean b).bean?.toList.flatMap g = g b :=
      List.flatMap_singleton ..
    rw [hone, hone, hone]
    exact Bean.balanced (h b rfl)

theorem File.flatMap_beans {α : Type} (g : Bean → List α) :
    (f.decls.filterMap Decl.bean?).flatMap g = f.decls.flatMap fun d => d.bean?.toList.flatMap g := by
  rw [List.filterMap_eq_flatMap_toList, List.flatMap_assoc]

/-- The gaps in a file are its flaws and the sizes that are warned about. -/
theorem File.balanced (h : ∀ b ∈ f.decls.filterMap Decl.bean?, b.ValuesInEnums) :
    Balanced env f f.tree.flaws f.sizes (f.lower env).parts
      (f.givenValues (f.lower env) ++ (f.lower env).enumValues) := by
  have hflaws : f.tree.flaws = (f.decls.map fun d => d.tree.flaws).sum := by
    simp [tree, Function.comp_def]
  have henum : (f.lower env).enumValues =
      (f.decls.filterMap Decl.bean?).flatMap fun b => (b.lower env f).enumValues :=
    List.flatMap_map ..
  have hdecls : Balanced env f _ _ _ _ := .flatMap fun d (hd : d ∈ f.decls) =>
    d.balanced fun b hb => h b (List.mem_filterMap.2 ⟨d, hd, hb⟩)
  rw [hflaws, parts_lower, givenValues_lower, henum, sizes, flatMap_beans, flatMap_beans,
    flatMap_beans, constSpecs, List.flatMap_assoc]
  -- constants and members come in turn in the declarations, but apart in the lowered file
  exact hdecls.perm (.refl _) (List.flatMap_append_perm ..).symm

end Lowering

/-! ### Warnings about gaps -/

/-- Whether a warning is about neither a malformed declaration nor a malformed tag. -/
def Diagnostic.isGapWarning (d : Diagnostic) : Bool :=
  d.message ≠ "malformed declaration lowered as invalid" &&
    d.message ≠ "malformed tag literal ignored"

theorem BadNode.isGapWarning_warning (x : BadNode × Span) :
    (BadNode.warning x).isGapWarning = decide (x.1 ≠ .decl) := by
  obtain ⟨what, span⟩ := x
  cases what <;> rfl

theorem Diagnostic.isGapWarning_of_isSizeWarning {d : Diagnostic} (h : d.isSizeWarning = true) :
    d.isGapWarning = true := by
  obtain ⟨-, hmessage⟩ := Bool.and_eq_true_iff.1 h
  have hne {text : String} (htext : "array size \x60".toList.isPrefixOf text.toList = false) :
      d.message ≠ text := by
    rintro rfl
    exact Bool.false_ne_true (htext.symm.trans hmessage)
  unfold isGapWarning
  rw [Bool.and_eq_true, decide_eq_true_iff, decide_eq_true_iff]
  exact ⟨hne rfl, hne rfl⟩

section Warnings

variable (env : LowerEnv) (f : File)

/-- There is a warning for each flaw of a file, and for each size that is no whole number. -/
theorem File.length_gapWarnings : ((f.warnings env).filter Diagnostic.isGapWarning).length =
    f.tree.flaws + (f.sizes.flatMap (sizeWarnings env f)).length := by
  have hsizes (v : Value) : (sizeWarnings env f v).filter Diagnostic.isGapWarning =
      sizeWarnings env f v := by
    refine List.filter_eq_self.2 fun d hd => Diagnostic.isGapWarning_of_isSizeWarning ?_
    exact List.filter_eq_self.1 (filter_sizeWarnings env f v) d hd
  have htags (l : Option Lit) : (tagWarnings l).filter Diagnostic.isGapWarning = [] := by
    refine List.filter_eq_nil_iff.2 fun d hd => ?_
    obtain ⟨span, rfl⟩ := eq_of_mem_tagWarnings hd
    exact Bool.false_ne_true
  have hbads : ((f.tree.bads.map BadNode.warning).filter Diagnostic.isGapWarning).length =
      f.tree.flaws := by
    rw [← List.countP_eq_length_filter, List.countP_map]
    exact List.countP_congr fun x _ => by simp [BadNode.isGapWarning_warning]
  rw [f.warnings_eq, remarks, List.filter_append, List.length_append, hbads,
    f.filter_beanWarnings env hsizes htags]

end Warnings

/-! ### Values of members -/

/-- Only enumerations hold members with values. -/
theorem Parse.member?_value {kind : BeanKind} (hkind : kind ≠ .enum) (scope : ScopeId) (i : Nat) :
    Leads (fun _ => True) (member? kind scope i) fun r _ => ∀ m ∈ r, m.value = none := by
  have hsome {m : Parse Member} (h : ∀ s, (m s).1.value = none) :
      Leads (fun _ => True) (some <$> m) fun r _ => ∀ m ∈ r, m.value = none := by
    rintro s - x hx
    exact Option.some.inj hx ▸ h s
  refine .current fun t => .forget ?_
  split
  case h_1 => exact hsome fun _ => rfl
  case h_2 => exact absurd rfl hkind
  case h_11 => exact .pure fun _ _ _ hx => nomatch hx
  all_goals exact hsome fun _ => rfl

theorem Source.valuesInEnums (s : Source) :
    ∀ b ∈ s.alone.file.decls.filterMap Decl.bean?, b.ValuesInEnums := by
  intro b hb hkind m hm
  have hbeans := Parse.file_beans (s.tokens.flatMap (·.groups)) s.start_ready
  rw [← s.parsed_eq] at hbeans
  obtain ⟨u, v, -, hmembers⟩ := hbeans.members hb
  obtain ⟨before, after, hsplit⟩ := List.append_of_mem hm
  rw [hsplit] at hmembers
  obtain ⟨t, t', scope, i, -, -, htaken, -⟩ := hmembers.split
  have hvalue := Parse.member?_value hkind scope i t trivial
  rw [htaken] at hvalue
  exact hvalue m rfl

theorem Bean.ValuesInEnums.placed {b : Bean} (h : b.ValuesInEnums) (ρ : Placement) :
    (b.placed ρ).ValuesInEnums := by
  intro hkind
  refine List.forall_mem_map.2 fun m hm => ?_
  show m.value.map (Value.placed ρ) = none
  rw [h hkind m hm]
  rfl

/-- In a linked file, only enumerations have members with values. -/
theorem valuesInEnums_of_linked {sources : List Source} {p : Package}
    (hp : p ∈ (linkSources sources).packages.values) {f : File} (hf : f ∈ p.files.values) :
    ∀ b ∈ f.decls.filterMap Decl.bean?, b.ValuesInEnums := by
  obtain ⟨f₀, hf₀, -, _, _, rfl⟩ := exists_parsed hp hf
  obtain ⟨s, ρ, -, rfl⟩ := mem_parsed hf₀
  intro b hb
  have hplaced : b ∈ (s.alone.file.decls.filterMap Decl.bean?).map (Bean.placed ρ) := by
    rw [← Decl.filterMap_bean?_placed]
    exact hb
  obtain ⟨b₀, hb₀, rfl⟩ := List.mem_map.1 hplaced
  exact (s.valuesInEnums b₀ hb₀).placed ρ

/-- **Warnings and gaps.**  There is one warning about a linked file, besides those about malformed
declarations and malformed tags, for each gap in what the file is lowered to: for each type that is
invalid, for each value that is invalid, of a constant that has one or of a member of an enumeration,
and for each array whose size has no known length. -/
theorem warnings_match_gaps (sources : List Source) {p : Package}
    (hp : p ∈ (compile sources).packages.values) {f : File} (hf : f ∈ p.files.values) :
    let env := (compile sources).env
    let lowered := f.lower env
    ((f.warnings env).filter Diagnostic.isGapWarning).length =
      lowered.parts.countP Ir.Ty.isInvalid +
        (f.givenValues lowered ++ lowered.enumValues).countP Ir.Expr.isInvalid +
          lowered.parts.countP Ir.Ty.isUnsized := by
  intro env lowered
  have hbalanced : f.tree.flaws + (f.sizes.flatMap (sizeWarnings env f)).length =
      Ir.gaps lowered.parts + (f.givenValues lowered ++ lowered.enumValues).countP _ :=
    File.balanced (valuesInEnums_of_linked hp hf)
  rw [f.length_gapWarnings env, hbalanced]
  unfold Ir.gaps
  omega

/-- A malformed declaration, a constant without a value and one with a malformed value, a size that is too
large, behind it a malformed tag, and a type, a size and a value that are missing. -/
def gappy : List Source := [
  ⟨"a.mid", "package p\n\x7d\nconst A\nconst B =\nstruct S \x7b\n" ++
    "  array<int32, 18446744073709551616> ns \"\\q\"\n  vector<> vs\n  array<int32,> ms\n\x7d\n" ++
    "enum E \x7b\n  X = ,\n  Y = 1\n\x7d\n"⟩]

theorem warnings_match_gaps_gappy :
    ∃ p ∈ (compile gappy).packages.values, ∃ f ∈ p.files.values,
      let env := (compile gappy).env
      let lowered := f.lower env
      (f.warnings env).length = 7 ∧
      lowered.parts.countP Ir.Ty.isInvalid = 1 ∧
      (f.givenValues lowered ++ lowered.enumValues).countP Ir.Expr.isInvalid = 2 ∧
      lowered.parts.countP Ir.Ty.isUnsized = 2 ∧
      ((f.warnings env).filter Diagnostic.isGapWarning).length = 5 := by
  have hgaps : ∃ p ∈ (compile gappy).packages.values, ∃ f ∈ p.files.values,
      let lowered := f.lower (compile gappy).env
      (f.warnings (compile gappy).env).length = 7 ∧
      lowered.parts.countP Ir.Ty.isInvalid = 1 ∧
      (f.givenValues lowered ++ lowered.enumValues).countP Ir.Expr.isInvalid = 2 ∧
      lowered.parts.countP Ir.Ty.isUnsized = 2 := by decide +kernel
  obtain ⟨p, hp, f, hf, hall, htypes, hvalues, hsizes⟩ := hgaps
  refine ⟨p, hp, f, hf, hall, htypes, hvalues, hsizes, ?_⟩
  rw [warnings_match_gaps gappy hp hf, htypes, hvalues, hsizes]

end Idl
