/-
Idl/Proofs/Ir/Clean.lean

A compilation without errors gives a representation without invalid parts.

A file is `Sound` if it has no bad nodes and all its constants have values.  Where something is bad
or missing an error was reported, so the files of a compilation without errors are sound
(`sound_of_no_error`), and what is sound is lowered to something clean (`File.Sound.clean`).  Only
the sizes of arrays need more: what is wrong with them is found out by the lowering, and reported as
a warning.

Main result: a compilation without errors is clean, and one without any report has known sizes only
(`clean_compile`).
-/
import Idl.Compilation
import Idl.Proofs.Meaning

namespace Idl

/-! ### Clean representations -/

namespace Ir

variable {size : ArraySize → Prop}

mutual

/-- A type without invalid parts, the sizes in which have the property. -/
inductive Ty.Clean (size : ArraySize → Prop) : Ty → Prop
  | basic (name : String) : Ty.Clean size (.basic name)
  | array {elem : Ty} {n : ArraySize} (helem : elem.Clean size) (hn : size n) :
    Ty.Clean size (.array elem n)
  | vector {elem : Ty} (helem : elem.Clean size) : Ty.Clean size (.vector elem)
  | map {key value : Ty} (hkey : key.Clean size) (hvalue : value.Clean size) :
    Ty.Clean size (.map key value)
  | struct (package name : String) : Ty.Clean size (.struct package name)
  | func {params : List Field} {result : Option Ty} (hparams : ∀ p ∈ params, p.Clean size)
    (hresult : ∀ t ∈ result, t.Clean size) : Ty.Clean size (.func params result)

/-- A field with a clean type and a clean value. -/
inductive Field.Clean (size : ArraySize → Prop) : Field → Prop
  | mk {f : Field} (htype : ∀ t ∈ f.type, t.Clean size) (hdefault : ∀ e ∈ f.default, e.Clean size) :
    Field.Clean size f

/-- A value without invalid parts. -/
inductive Expr.Clean (size : ArraySize → Prop) : Expr → Prop
  | ident (name : String) : Expr.Clean size (.ident name)
  | lit (kind : LitKind) (text : String) : Expr.Clean size (.lit kind text)
  | type {t : Ty} (h : t.Clean size) : Expr.Clean size (.type t)

end

/-- A representation without invalid types and values, the sizes in which have the property. -/
structure Clean (size : ArraySize → Prop) (ir : Ir) : Prop where
  extended : ∀ p ∈ ir.packages, ∀ b ∈ p.beans, ∀ t ∈ b.extended, t.Clean size
  fields : ∀ p ∈ ir.packages, ∀ b ∈ p.beans, ∀ f ∈ b.fields, f.Clean size
  consts : ∀ p ∈ ir.packages, ∀ c ∈ p.consts, c.value.Clean size

end Ir

/-! ### Sound syntax -/

/-- A value that is not bad. -/
def Value.Sound : Value → Prop
  | .bad _ => False
  | _ => True

/-- A type without bad parts. -/
def TypeExpr.Sound : TypeExpr → Prop
  | .bad _ => False
  | .array _ elem size _ => elem.Sound ∧ size.Sound
  | .vector _ elem _ => elem.Sound
  | .map _ key value _ => key.Sound ∧ value.Sound
  | _ => True

/-- A member without bad parts. -/
structure Member.Sound (m : Member) : Prop where
  types : ∀ t ∈ m.types, t.Sound
  value : ∀ v ∈ m.value, v.Sound

/-- A declaration without bad parts, the constants of which have values. -/
def Decl.Sound : Decl → Prop
  | .bad _ => False
  | .imports _ => True
  | .consts g => ∀ s ∈ g.specs, ∃ v, s.value = some v ∧ v.Sound
  | .bean b => ∀ m ∈ b.body.members, m.Sound

/-- A file of sound declarations. -/
def File.Sound (f : File) : Prop := ∀ d ∈ f.decls, d.Sound

/-! ### Faultless accounts -/

theorem Account.faults_append_nil {a b : Account} :
    (a ++ b).faults = [] ↔ a.faults = [] ∧ b.faults = [] := List.append_eq_nil_iff

theorem Account.faults_all_nil {α : Type} {f : α → Account} {xs : List α}
    (h : (all f xs).faults = []) : ∀ x ∈ xs, (f x).faults = [] := fun _ hx =>
  List.eq_nil_iff_forall_not_mem.2 fun p hp =>
    List.eq_nil_iff_forall_not_mem.1 h p (mem_faults_all hx hp)

theorem Value.sound_of_faults {v : Value} (h : v.account.faults = []) : v.Sound := by
  cases v with
  | bad p => cases h
  | _ => trivial

theorem TypeExpr.sound_of_faults {t : TypeExpr} (h : t.account.faults = []) : t.Sound := by
  induction t with
  | bad p => cases h
  | array p elem size closing ih =>
    obtain ⟨helem, hsize⟩ := Account.faults_append_nil.1 h
    exact ⟨ih helem, Value.sound_of_faults hsize⟩
  | vector p elem closing ih => exact ih h
  | map p key value closing ihk ihv =>
    obtain ⟨hkey, hvalue⟩ := Account.faults_append_nil.1 h
    exact ⟨ihk hkey, ihv hvalue⟩
  | _ => trivial

theorem MemberType.sound_of_faults {t : MemberType} (h : t.account.faults = []) :
    ∀ u ∈ t.types, u.Sound := by
  cases t with
  | plain t => exact List.forall_mem_singleton.2 (TypeExpr.sound_of_faults h)
  | func sig =>
    obtain ⟨hparams, hresult⟩ := Account.faults_append_nil.1 h
    refine List.forall_mem_append.2 ⟨List.forall_mem_map.2 fun p hp => ?_, fun t ht => ?_⟩
    · have hp := Account.faults_all_nil hparams p hp
      exact TypeExpr.sound_of_faults (Account.faults_append_nil.1 hp).1
    · exact TypeExpr.sound_of_faults (Account.faults_all_nil hresult t ht)

theorem Member.sound_of_faults {kind : BeanKind} {m : Member} (h : (m.account kind).faults = []) :
    m.Sound := by
  have hnone {p : Pos} (hp : p ∈ (m.account kind).faults) : False :=
    List.not_mem_nil (h ▸ hp)
  constructor
  · intro t ht
    obtain ⟨u, hu, ht⟩ := List.mem_flatMap.1 ht
    refine MemberType.sound_of_faults (List.eq_nil_iff_forall_not_mem.2 fun p hp => ?_) t ht
    exact hnone (mem_faults (.inl ⟨u, Option.mem_toList.1 hu, hp⟩))
  · intro v hv
    refine Value.sound_of_faults (List.eq_nil_iff_forall_not_mem.2 fun p hp => ?_)
    exact hnone (mem_faults (.inr ⟨v, hv, hp⟩))

/-- The first constant of a group without a value is a fault, also for those that inherit none. -/
theorem consts_sound {outer : ScopeId} {file : FileId} {decl index : Nat} {previous : Option Value}
    {first : Option Pos} {ss : List ConstSpec}
    (h : (constsAccount outer file decl index previous first ss).faults = []) :
    ∀ s ∈ ss, ∃ v, s.value = some v ∧ v.Sound := by
  induction ss generalizing index previous first with
  | nil => exact List.forall_mem_nil _
  | cons s ss ih =>
    obtain ⟨hs, hss⟩ := Account.faults_append_nil.1 h
    refine List.forall_mem_cons.2 ⟨?_, ih hss⟩
    obtain ⟨-, hvalue⟩ := Account.faults_append_nil.1 (Account.faults_append_nil.1 hs).1
    cases hv : s.value with
    | none => rw [hv] at hvalue; cases hvalue
    | some v =>
      cases v with
      | bad p => rw [hv] at hvalue; cases hvalue
      | _ => exact ⟨_, rfl, trivial⟩

theorem Decl.sound_of_faults {d : Decl} {outer scope : ScopeId} {file : FileId} {index : Nat}
    (h : (d.account outer scope file index).faults = []) : d.Sound := by
  cases d with
  | bad span => cases h
  | imports g => trivial
  | consts g => exact consts_sound h
  | bean b =>
    intro m hm
    have hmembers := (Account.faults_append_nil.1 (Account.faults_append_nil.1 h).1).2
    have hmember : (m.account b.kind).faults = [] := List.eq_nil_iff_forall_not_mem.2 fun p hp =>
      List.not_mem_nil (hmembers ▸ mem_faults_members hm hp)
    exact Member.sound_of_faults hmember

theorem decls_sound {outer scope : ScopeId} {file : FileId} {index : Nat} {ds : List Decl}
    (h : (declsAccount outer scope file index ds).faults = []) : ∀ d ∈ ds, d.Sound := by
  induction ds generalizing scope index with
  | nil => exact List.forall_mem_nil _
  | cons d ds ih =>
    obtain ⟨hd, hds⟩ := Account.faults_append_nil.1 h
    exact List.forall_mem_cons.2 ⟨Decl.sound_of_faults hd, ih hds⟩

/-! ### Sound files, placed -/

section Placed

variable (ρ : Placement)

theorem Value.Sound.placed {v : Value} (h : v.Sound) : (v.placed ρ).Sound := by
  cases v with
  | bad p => exact h
  | _ => trivial

theorem TypeExpr.Sound.placed {t : TypeExpr} (h : t.Sound) : (t.placed ρ).Sound := by
  induction t with
  | bad p => exact h
  | array p elem size closing ih => exact ⟨ih h.1, h.2.placed ρ⟩
  | vector p elem closing ih => exact ih h
  | map p key value closing ihk ihv => exact ⟨ihk h.1, ihv h.2⟩
  | _ => trivial

theorem Member.Sound.placed {m : Member} (h : m.Sound) : (m.placed ρ).Sound where
  types := by
    rw [m.types_placed]
    exact List.forall_mem_map.2 fun t ht => (h.types t ht).placed ρ
  value v hv := by
    obtain ⟨w, hw, rfl⟩ := Option.map_eq_some_iff.1 hv
    exact (h.value w hw).placed ρ

theorem Decl.Sound.placed {d : Decl} (h : d.Sound) : (d.placed ρ).Sound := by
  cases d with
  | bad span => exact h
  | imports g => trivial
  | consts g =>
    refine List.forall_mem_map.2 fun s hs => ?_
    obtain ⟨v, hv, hsound⟩ := h s hs
    exact ⟨v.placed ρ, by rw [ConstSpec.placed, hv]; rfl, hsound.placed ρ⟩
  | bean b => exact List.forall_mem_map.2 fun m hm => (h m hm).placed ρ

theorem File.Sound.placed {f : File} (h : f.Sound) : (f.placed ρ).Sound :=
  List.forall_mem_map.2 fun d hd => (h d hd).placed ρ

end Placed

/-- A source about whose syntax nothing is reported is sound. -/
theorem Source.sound (s : Source) (h : ∀ d ∈ s.alone.diagnostics, d.isError = false) :
    s.alone.file.Sound := by
  obtain ⟨reports, hperm, hplain, hfaults⟩ := s.reading.diagnostics
  have hfault : s.account.faults = [] := by
    refine List.eq_nil_iff_forall_not_mem.2 fun p hp => ?_
    obtain ⟨d, hd, -⟩ := hfaults p hp
    have hmem := hperm.symm.subset (List.mem_append_left _ (List.mem_append_right _ hd))
    have herror := h d hmem
    rw [(hplain d hd).1.isError] at herror
    cases herror
  exact decls_sound (Account.faults_append_nil.1 hfault).2

/-! ### Lowering -/

/-- The sizes of the arrays in a type. -/
def TypeExpr.sizes : TypeExpr → List Value
  | .array _ elem size _ => elem.sizes ++ [size]
  | .vector _ elem _ => elem.sizes
  | .map _ key value _ => key.sizes ++ value.sizes
  | _ => []

/-- The sizes of the arrays in a file. -/
def File.sizes (f : File) : List Value :=
  (f.decls.filterMap Decl.bean?).flatMap fun b => b.types.flatMap TypeExpr.sizes

section Lower

variable {env : LowerEnv} {f : File} {size : Ir.ArraySize → Prop}

theorem TypeExpr.Sound.clean {t : TypeExpr} (h : t.Sound)
    (hs : ∀ v ∈ t.sizes, size (lowerSize env f v)) : (t.lower env f).Clean size := by
  induction t with
  | bad p => exact absurd h id
  | basic name b => exact .basic _
  | named qualifier name => exact .struct _ _
  | array p elem n closing ih =>
    obtain ⟨helem, hn⟩ := List.forall_mem_append.1 hs
    exact .array (ih h.1 helem) (hn n List.mem_cons_self)
  | vector p elem closing ih => exact .vector (ih h hs)
  | map p key value closing ihk ihv =>
    obtain ⟨hkey, hvalue⟩ := List.forall_mem_append.1 hs
    exact .map (ihk h.1 hkey) (ihv h.2 hvalue)

theorem Value.Sound.clean {v : Value} (h : v.Sound) : v.lower.Clean size := by
  cases v with
  | bad p => exact absurd h id
  | ident i => exact .ident _
  | lit l => exact .lit _ _

theorem MemberType.clean {t : MemberType} (h : ∀ u ∈ t.types, u.Sound)
    (hs : ∀ u ∈ t.types, ∀ v ∈ u.sizes, size (lowerSize env f v)) : (t.lower env f).Clean size := by
  have hclean : ∀ u ∈ t.types, (u.lower env f).Clean size := fun u hu => (h u hu).clean (hs u hu)
  cases t with
  | plain t => exact hclean t List.mem_cons_self
  | func sig =>
    obtain ⟨hparams, hresult⟩ := List.forall_mem_append.1 hclean
    refine .func (List.forall_mem_map.2 fun p hp => ⟨?_, ?_⟩) fun t ht => ?_
    · rintro t ⟨⟩
      exact hparams _ (List.mem_map_of_mem hp)
    · rintro e ⟨⟩
    · obtain ⟨u, hu, rfl⟩ := Option.map_eq_some_iff.1 ht
      exact hresult u (Option.mem_toList.2 hu)

/-- The type of a member, lowered. -/
theorem Member.Sound.clean_type {m : Member} (h : m.Sound)
    (hs : ∀ t ∈ m.types, ∀ v ∈ t.sizes, size (lowerSize env f v)) :
    ∀ t ∈ m.type.map (MemberType.lower env f), t.Clean size := by
  intro t ht
  obtain ⟨u, hu, rfl⟩ := Option.map_eq_some_iff.1 ht
  have hmem {v : TypeExpr} (hv : v ∈ u.types) : v ∈ m.types :=
    List.mem_flatMap.2 ⟨u, Option.mem_toList.2 hu, hv⟩
  exact MemberType.clean (fun v hv => h.types v (hmem hv)) fun v hv => hs v (hmem hv)

theorem Member.Sound.clean {m : Member} (h : m.Sound)
    (hs : ∀ t ∈ m.types, ∀ v ∈ t.sizes, size (lowerSize env f v)) : (m.lower env f).Clean size := by
  refine ⟨h.clean_type hs, fun e he => ?_⟩
  obtain ⟨v, hv, rfl⟩ := Option.map_eq_some_iff.1 he
  exact (h.value v hv).clean

theorem File.Sound.bean (h : f.Sound) {b : Bean} (hb : b ∈ f.decls.filterMap Decl.bean?) :
    ∀ m ∈ b.body.members, m.Sound := by
  obtain ⟨d, hd, hbean⟩ := List.mem_filterMap.1 hb
  cases d with
  | bean b' => exact Option.some.inj hbean ▸ h _ hd
  | _ => cases hbean

theorem File.Sound.const (h : f.Sound) {g : Ir.GenDecl} (hg : g ∈ f.decls.filterMap Decl.lowerGroup?) :
    ∀ c ∈ g.consts, c.value.Clean size := by
  obtain ⟨d, hd, hgroup⟩ := List.mem_filterMap.1 hg
  cases d with
  | consts g' =>
    rw [← Option.some.inj hgroup]
    refine List.forall_mem_map.2 fun s hs => ?_
    obtain ⟨v, hv, hsound⟩ := h _ hd s hs
    show ((s.value.map Value.lower).getD .invalid).Clean size
    rw [hv]
    exact hsound.clean
  | imports g' =>
    rw [← Option.some.inj hgroup]
    exact List.forall_mem_nil _
  | _ => cases hgroup

end Lower

/-- Sound files are lowered to a clean representation. -/
theorem Ir.clean_ofPackages {packages : NameMap Idl.Package} {symbols : SymbolTable}
    {size : ArraySize → Prop}
    (h : ∀ p ∈ packages.values, ∀ f ∈ p.files.values, f.Sound)
    (hs : ∀ p ∈ packages.values, ∀ f ∈ p.files.values, ∀ v ∈ f.sizes,
      size (lowerSize (.ofPackages packages symbols) f v)) :
    (ofPackages packages symbols).Clean size := by
  have hbean {p : Ir.Package} (hp : p ∈ (ofPackages packages symbols).packages) {b : Ir.Bean}
      (hb : b ∈ p.beans) : (∀ t ∈ b.extended, t.Clean size) ∧ ∀ m ∈ b.fields, m.Clean size := by
    obtain ⟨q, hq, rfl⟩ := List.mem_map.1 hp
    obtain ⟨_, hlower, hb⟩ := List.mem_flatMap.1 hb
    obtain ⟨f, hf, rfl⟩ := List.mem_map.1 hlower
    obtain ⟨b, hmem, rfl⟩ := List.mem_map.1 hb
    have hsound := (h q hq f hf).bean hmem
    have hsizes {m : Member} (hm : m ∈ b.body.members) {t : TypeExpr} (ht : t ∈ m.types) :
        ∀ v ∈ t.sizes, size (lowerSize (.ofPackages packages symbols) f v) := fun v hv =>
      hs q hq f hf v (List.mem_flatMap.2 ⟨b, hmem, List.mem_flatMap.2
        ⟨t, List.mem_flatMap.2 ⟨m, hm, ht⟩, hv⟩⟩)
    constructor
    · intro t ht
      obtain ⟨m, hm, ht⟩ := List.mem_filterMap.1 ht
      have hm := (List.mem_filter.1 hm).1
      exact (hsound m hm).clean_type (fun u hu => hsizes hm hu) t ht
    · refine List.forall_mem_map.2 fun m hm => ?_
      have hm := (List.mem_filter.1 hm).1
      exact (hsound m hm).clean fun u hu => hsizes hm hu
  refine ⟨fun p hp b hb => (hbean hp hb).1, fun p hp b hb => (hbean hp hb).2, fun p hp c hc => ?_⟩
  obtain ⟨q, hq, rfl⟩ := List.mem_map.1 hp
  obtain ⟨_, hlower, hc⟩ := List.mem_flatMap.1 hc
  obtain ⟨f, hf, rfl⟩ := List.mem_map.1 hlower
  obtain ⟨g, hg, hc⟩ := List.mem_flatMap.1 hc
  exact (h q hq f hf).const hg c hc

/-! ### Sizes without warnings -/

section Sizes

variable (env : LowerEnv) (f : File)

/-- A size that nothing is said about is known, unless it is bad. -/
theorem Value.Sound.known {v : Value} (h : v.Sound) (hw : sizeWarnings env f v = []) :
    (lowerSize env f v).length?.isSome = true := by
  unfold sizeWarnings at hw
  cases v with
  | bad p => exact absurd h id
  | _ => simpa [Option.isSome_iff_ne_none] using hw

theorem TypeExpr.warnings_eq (t : TypeExpr) :
    t.warnings env f = t.sizes.flatMap (sizeWarnings env f) := by
  induction t with
  | array p elem n closing ih => simp [warnings, sizes, ih]
  | vector p elem closing ih => exact ih
  | map p key value closing ihk ihv => simp [warnings, sizes, ihk, ihv]
  | _ => rfl

theorem MemberType.warnings_eq (t : MemberType) :
    t.warnings env f = t.types.flatMap (TypeExpr.warnings env f) := by
  cases t with
  | plain t => simp [warnings, types]
  | func sig => cases h : sig.result <;> simp [warnings, types, h, List.flatMap_map]

theorem TypeExpr.Sound.sizes {t : TypeExpr} (h : t.Sound) : ∀ v ∈ t.sizes, v.Sound := by
  induction t with
  | array p elem n closing ih =>
    exact List.forall_mem_append.2 ⟨ih h.1, List.forall_mem_singleton.2 h.2⟩
  | vector p elem closing ih => exact ih h
  | map p key value closing ihk ihv => exact List.forall_mem_append.2 ⟨ihk h.1, ihv h.2⟩
  | _ => exact List.forall_mem_nil _

/-- In a sound file without warnings all sizes are known. -/
theorem File.Sound.known {f : File} (h : f.Sound) (hw : f.warnings env = []) :
    ∀ v ∈ f.sizes, (lowerSize env f v).length?.isSome = true := by
  intro v hv
  obtain ⟨b, hb, hv⟩ := List.mem_flatMap.1 hv
  obtain ⟨t, ht, hv⟩ := List.mem_flatMap.1 hv
  obtain ⟨m, hm, ht⟩ := List.mem_flatMap.1 ht
  obtain ⟨u, hu, htu⟩ := List.mem_flatMap.1 ht
  refine (((h.bean hb m hm).types t ht).sizes v hv).known env f ?_
  have hbean := List.flatMap_eq_nil_iff.1 (List.append_eq_nil_iff.1 hw).2 b hb
  have hmember := List.flatMap_eq_nil_iff.1 (List.append_eq_nil_iff.1 hbean).1 m hm
  have htype : u.warnings env f = [] := by
    have hopt := (List.append_eq_nil_iff.1 hmember).1
    rwa [Option.mem_toList.1 hu] at hopt
  rw [u.warnings_eq] at htype
  have hsize := List.flatMap_eq_nil_iff.1 htype t htu
  rw [t.warnings_eq] at hsize
  exact List.flatMap_eq_nil_iff.1 hsize v hv

end Sizes

/-! ### Compilations -/

theorem sortDiagnostics_perm (fs : FileSet) (ds : List Diagnostic) :
    (sortDiagnostics fs ds).Perm ds := by
  unfold sortDiagnostics
  refine ((List.mergeSort_perm ..).map _).trans (.of_eq ?_)
  rw [List.map_map]
  exact List.map_id ds

theorem mem_sortDiagnostics {fs : FileSet} {ds : List Diagnostic} {d : Diagnostic} :
    d ∈ sortDiagnostics fs ds ↔ d ∈ ds := (sortDiagnostics_perm fs ds).mem_iff

/-- What is reported about a source alone is reported in a compilation, where the source is placed. -/
theorem placed_mem_diagnostics {sources : List Source} {s : Source} {ρ : Placement}
    (h : (s, ρ) ∈ seated (Board.empty.layout sources)) {d : Diagnostic}
    (hd : d ∈ s.alone.diagnostics) : d.placed ρ ∈ (compile sources).diagnostics := by
  refine mem_sortDiagnostics.2 (List.mem_append_left _ (List.mem_append_left _ ?_))
  rw [parseSources_eq]
  obtain ⟨x, hx, hxs⟩ := List.mem_filterMap.1 h
  obtain ⟨ρ', hρ, hpair⟩ := Option.map_eq_some_iff.1 hxs
  obtain ⟨rfl, rfl⟩ := Prod.mk.inj hpair
  refine List.mem_flatMap.2 ⟨x, hx, ?_⟩
  rw [hρ]
  exact List.mem_map_of_mem hd

/-- The files of a compilation without errors are sound. -/
theorem sound_of_no_error {sources : List Source} (h : (compile sources).hasErrors = false) :
    ∀ f ∈ (parseSources sources).parsed, f.Sound := by
  intro f hf
  obtain ⟨s, ρ, hs, rfl⟩ := mem_parsed hf
  refine File.Sound.placed ρ (s.sound fun d hd => ?_)
  have hplaced : (d.placed ρ).isError = false :=
    eq_false_of_ne_true (List.any_eq_false.1 h _ (placed_mem_diagnostics hs hd))
  exact hplaced

theorem sound_packages {sources : List Source} (h : (compile sources).hasErrors = false) :
    ∀ p ∈ (linkSources sources).packages.values, ∀ f ∈ p.files.values, f.Sound := by
  intro p hp f hf
  obtain ⟨f₀, hf₀, -, r, u, rfl⟩ := exists_parsed hp hf
  exact sound_of_no_error h f₀ hf₀

/-- A compilation that reports no error has no invalid parts, and one that reports nothing has known
sizes only. -/
theorem clean_compile (sources : List Source) :
    ((compile sources).hasErrors = false → (compile sources).ir.Clean fun _ => True) ∧
      ((compile sources).diagnostics = [] →
        (compile sources).ir.Clean fun n => n.length?.isSome = true) := by
  refine ⟨fun h => Ir.clean_ofPackages (sound_packages h) fun _ _ _ _ _ _ => trivial, fun h => ?_⟩
  have herrors : (compile sources).hasErrors = false := by
    rw [Compilation.hasErrors, h]
    rfl
  refine Ir.clean_ofPackages (sound_packages herrors) fun p hp f hf => ?_
  refine (sound_packages herrors p hp f hf).known _ (List.eq_nil_iff_forall_not_mem.2 fun d hd => ?_)
  have hmem : d ∈ (compile sources).diagnostics :=
    mem_sortDiagnostics.2 (List.mem_append_right _
      (List.mem_flatMap.2 ⟨p, hp, List.mem_flatMap.2 ⟨f, hf, hd⟩⟩))
  exact List.not_mem_nil (h ▸ hmem)

/-- A bean and, in another file, the constant that sizes its array. -/
def sized : List Source := [
  ⟨"a.mid", "package a\nstruct S \x7b\n  map<string, array<int, N>> xs\n\x7d\n"⟩,
  ⟨"b.mid", "package a\nconst N = 4\n"⟩]

theorem clean_compile_sized : (compile sized).hasErrors = false ∧
    (compile sized).diagnostics = [] ∧
    (compile sized).ir.packages.map (·.beans.map (·.name)) = [["S"]] ∧
    ((compile sized).ir.Clean fun _ => True) ∧
    (compile sized).ir.Clean fun n => n.length?.isSome = true :=
  have herrors : (compile sized).hasErrors = false := by decide +kernel
  have hnothing : (compile sized).diagnostics = [] := List.isEmpty_iff.1 (by decide +kernel)
  ⟨herrors, hnothing, by decide +kernel, (clean_compile sized).1 herrors,
    (clean_compile sized).2 hnothing⟩

end Idl
