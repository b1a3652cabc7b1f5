/-
Idl/Proofs/Ir/Targets.lean

Where the beans are declared that the types of a representation refer to.

A generator has nothing but the referents of a type to find a bean by, so they have to lead there.

With the id of a package they do: it is the one in the path of the import that binds the qualifier,
under whatever name, and the package of this id declares the name (`qualified_referents`).

Without one they do as far as the name is declared by the package itself.  A name that a file gets
through an import by a dot is lowered just like one of its own package, so it may be declared by the
imported package alone (`local_referents`, `strayed_referent`).
-/
import Idl.Proofs.Ir.Referents
import Idl.Proofs.Resolution

namespace Idl

/-! ### Declarations of a run -/

/-- Where no error is reported, no two files of a package have the same name. -/
theorem pairwise_of_linkErrors {scopes : NameMap ScopeId} {n : String} {taken : List String}
    {fs : List File} (h : ∀ d ∈ linkErrors scopes n taken fs, d.isError = false) :
    (∀ f ∈ fs, f.filename ∉ taken) ∧ fs.Pairwise fun f g => f.filename ≠ g.filename := by
  induction fs generalizing taken with
  | nil => exact ⟨List.forall_mem_nil _, .nil⟩
  | cons f fs ih =>
    obtain ⟨hf, hfs⟩ := List.forall_mem_append.1 h
    obtain ⟨hfresh, hpairwise⟩ := ih hfs
    have hnew : f.filename ∉ taken := by
      intro htaken
      have htwice := (List.forall_mem_append.1 hf).2
      rw [if_pos htaken] at htwice
      cases htwice _ List.mem_cons_self
    constructor
    · intro g hg htaken
      rcases List.mem_cons.1 hg with rfl | hg
      · exact hnew htaken
      · exact hfresh g hg (List.mem_cons_of_mem _ htaken)
    · apply List.Pairwise.cons _ hpairwise
      intro g hg heq
      exact hfresh g hg (heq ▸ List.mem_cons_self)

namespace Linked.Run

variable {files : FileSet} {t m : SymbolTable} {fs : List File} {scopes : NameMap ScopeId}
  {l : Linked}

/-- Where no error is reported, the files have names of their own. -/
theorem distinctNames (h : l.Run files t fs scopes m)
    (hclean : ∀ d ∈ l.diagnostics, d.isError = false) : DistinctNames fs := by
  apply List.pairwise_iff_getElem.2
  intro a b ha hb hab hname
  have hkey : fs[a].name.name ∈ scopes.keys := by
    rw [NameMap.mem_keys, ← Option.isSome_iff_exists]
    exact (h.links.named _).2 ⟨fs[a], List.getElem_mem ha, rfl⟩
  have hpackage : ∀ d ∈ linkErrors scopes fs[a].name.name [] (filesOf fs fs[a].name.name),
      d.isError = false := by
    intro d hd
    apply hclean
    rw [h.links.diagnostics]
    exact List.mem_append_right _ (List.mem_flatMap.2 ⟨_, hkey, hd⟩)
  have hpairwise := List.pairwise_filter.1 (pairwise_of_linkErrors hpackage).2
  have hboth := List.pairwise_iff_getElem.1 hpairwise a b ha hb hab
  exact hboth (decide_eq_true rfl) (decide_eq_true hname.symm)

/-- A package is lowered to one of the same name. -/
theorem lower_mem (h : l.Run files t fs scopes m) {n : String} {p : Package}
    (hp : l.packages.find? n = some p) :
    p.lower (.ofPackages l.packages l.symbols) ∈
        (Ir.ofPackages l.packages l.symbols).packages ∧ p.name = n := by
  obtain ⟨i, -, hlinks, -⟩ := h.links.packages hp
  exact ⟨List.mem_map_of_mem (NameMap.mem_values.2 ⟨n, hp⟩), hlinks.name⟩

/-- What a package declares is declared by the lowered package. -/
theorem declares (h : l.Run files t fs scopes m) (hdistinct : DistinctNames fs) {n name : String}
    {o : Object} (hfirst : declarationOf? fs n name = some o) :
    ∃ p, l.packages.find? n = some p ∧
      (p.lower (.ofPackages l.packages l.symbols)).Declares name := by
  obtain ⟨hmem, hkey⟩ := List.mem_filter.1 (List.argmin_mem hfirst)
  obtain ⟨f, hfile, ho⟩ := List.mem_flatMap.1 hmem
  obtain ⟨hf, rfl⟩ := mem_filesOf.1 hfile
  obtain ⟨rfl, -⟩ := Object.key_eq_some.1 (of_decide_eq_true hkey)
  obtain ⟨p, i, hp, -, -, -, hlinked⟩ := h.linked hdistinct hf
  -- linking changes no declaration
  have hkept : o ∈ (linkedFile m scopes p.imports i f).declarations := ho
  have hlower : (linkedFile m scopes p.imports i f).lower (.ofPackages l.packages l.symbols) ∈
      (p.lower (.ofPackages l.packages l.symbols)).files :=
    List.mem_map_of_mem (NameMap.mem_values.2 ⟨_, hlinked⟩)
  exact ⟨p, hp, File.declares_lower hlower hkept⟩

/-- The names of a file of a package are settled. -/
theorem settled (h : l.Run files t fs scopes m) (hdistinct : DistinctNames fs) {p : Package}
    (hp : p ∈ l.packages.values) {g : File} (hg : g ∈ p.files.values) :
    ∃ f ∈ fs, ∃ refs i, f.Known t refs ∧ l.packages.find? f.name.name = some p ∧
      g = linkedFile m scopes p.imports i f ∧
      (∀ r ∈ g.references, r.isBlank = false → l.Settles g r (g.meaning? fs r.name)) ∧
      ∀ q ∈ g.qualifiedNames, l.SettlesQualified fs p.imports g q := by
  obtain ⟨n, hn⟩ := NameMap.mem_values.1 hp
  obtain ⟨i, hi, hlinks, -⟩ := h.links.packages hn
  obtain ⟨f, hmem, rfl⟩ := hlinks.mem_values hg
  obtain ⟨hf, rfl⟩ := mem_filesOf.1 hmem
  obtain ⟨refs, hk⟩ := h.known f hf
  obtain ⟨p', j, hp', hj, -, himports, hfile⟩ := h.linked hdistinct hf
  obtain rfl : p' = p := Option.some.inj (hp'.symm.trans hn)
  obtain rfl : j = i := Option.some.inj (hj.symm.trans hi)
  refine ⟨f, hf, refs, j, hk, hn, rfl, ?_, ?_⟩
  · intro r hr hb
    exact h.settles_reference hf hk hn hi hfile hr hb
  · intro q hq
    exact h.settles_qualified hf hk hn hlinks himports hfile hq

end Linked.Run

/-! ### Qualified names -/

/-- The last import of a file that binds a name and finds a package. -/
def File.importOf? (fs : List File) (f : File) (name : String) : Option ImportSpec :=
  (f.imports.filter fun spec => spec.binds? = some name && (spec.package? fs).isSome).getLast?

/-- A qualifier stands for the package that the last import of its name names. -/
theorem File.imported?_eq (fs : List File) (f : File) (name : String) :
    f.imported? fs name = (f.importOf? fs name).bind ImportSpec.id? := by
  unfold imported? importOf?
  rw [List.getLast?_eq_head?_reverse, ← List.filter_reverse, List.head?_filter]
  induction f.imports.reverse with
  | nil => rfl
  | cons spec specs ih =>
    rw [List.findSome?_cons, List.find?_cons, ih]
    by_cases hbinds : spec.binds? = some name
    · cases hid : spec.package? fs with
      | none => simp [hbinds]
      | some id =>
        have hspec := (Option.filter_eq_some_iff.1 hid).1
        simp [hbinds, hspec]
    · simp [hbinds]

/-- A name that is listed stands for nothing. -/
theorem File.Known.get?_unresolved {t m : SymbolTable} {f : File} {refs : List Ident}
    (h : f.Known t refs) {scopes : NameMap ScopeId} {imports : NameMap ObjectId} {i : ScopeId}
    {q : QualifiedRef} (hq : q ∈ f.qualifiedNames) {j : Ident} (hj : j ∈ q.idents)
    (hlisted : j ∈ (linkedFile m scopes imports i f).unresolved) :
    (linkedFile m scopes imports i f).resolutions.get? j.id = none := by
  rw [h.linked_get?_answer scopes imports (mem_linkedFile_unresolved.1 hlisted)]
  exact h.free q hq j hj

/-- What a name stands for that has a resolution. -/
theorem File.Known.settled_isSome {t m : SymbolTable} {f : File} {refs : List Ident}
    (h : f.Known t refs) {scopes : NameMap ScopeId} {imports : NameMap ObjectId} {i : ScopeId}
    {q : QualifiedRef} (hq : q ∈ f.qualifiedNames) {j : Ident} (hj : j ∈ q.idents) {l : Linked}
    {o : Option Object} (hsettles : l.Settles (linkedFile m scopes imports i f) j o)
    (hsome : ((linkedFile m scopes imports i f).resolutions.get? j.id).isSome = true) :
    o.isSome = true := by
  cases o with
  | some o => rfl
  | none =>
    have hlisted : j ∈ (linkedFile m scopes imports i f).unresolved := by
      apply List.count_pos_iff.1
      rw [hsettles.2.1]
      exact Nat.one_pos
    rw [h.get?_unresolved hq hj hlisted] at hsome
    cases hsome

/-- What types are lowered with. -/
def Compilation.env (c : Compilation) : LowerEnv := .ofPackages c.packages c.symbols

/-- A qualifier that stands for a package is lowered to its id. -/
theorem lowerQualifier_eq {env : LowerEnv} {f : File} {i : Ident} {o : Object} {id : String}
    (ho : env.objectOf? f i = some o) (hpackage : o.origin = .package id) :
    lowerQualifier env f i = id := by
  unfold lowerQualifier
  rw [ho, Option.map_some, hpackage]

/-- Qualified names are seen through: where both parts of a qualified name are resolved, the name is
lowered with the id that is written in the last import that binds the qualifier and finds a package,
and the representation has a package of this id that declares the name. -/
theorem qualified_referents (sources : List Source)
    (h : DistinctNames (parseSources sources).parsed) {p : Package}
    (hp : p ∈ (compile sources).packages.values) {g : File} (hg : g ∈ p.files.values)
    {q : QualifiedRef} (hq : q ∈ g.qualifiedNames)
    (hqualifier : (g.resolutions.get? q.qualifier.id).isSome = true)
    (hname : (g.resolutions.get? q.name.id).isSome = true) :
    ∃ spec id, g.importOf? (parseSources sources).parsed q.qualifier.name = some spec ∧
      spec.id? = some id ∧
      (TypeExpr.named q.qualifier q.name).lower (compile sources).env g = .struct id q.name.name ∧
      (id, q.name.name) ∈ (g.lower (compile sources).env).referents ∧
      ∃ P ∈ (compile sources).ir.packages, P.name = id ∧ P.Declares q.name.name := by
  obtain ⟨scopes, m, hrun⟩ := linkSources_run sources
  obtain ⟨f, -, refs, i, hk, -, rfl, -, hsettled⟩ := hrun.settled h hp hg
  have hsettles := hsettled q hq
  have hfirst : q.qualifier ∈ q.idents := List.mem_cons_self
  have hsecond : q.name ∈ q.idents := List.mem_cons_of_mem q.qualifier List.mem_cons_self
  unfold Linked.SettlesQualified at hsettles
  cases himported : (linkedFile m scopes p.imports i f).imported? (parseSources sources).parsed
      q.qualifier.name with
  | none =>
    -- the qualifier would stand for nothing, and yet it is resolved
    rw [himported] at hsettles
    cases hk.settled_isSome hq hfirst hsettles.1 hqualifier
  | some id =>
    rw [himported] at hsettles
    obtain ⟨⟨o, pos, -, -, hpackage, -⟩, hnamed⟩ := hsettles
    obtain ⟨x, hx⟩ := Option.isSome_iff_exists.1 (hk.settled_isSome hq hsecond hnamed hname)
    have hlower : lowerQualifier (compile sources).env (linkedFile m scopes p.imports i f)
        q.qualifier = id := lowerQualifier_eq hpackage rfl
    rw [File.imported?_eq] at himported
    obtain ⟨spec, hspec, hid⟩ := Option.bind_eq_some_iff.1 himported
    obtain ⟨p', hp', hdeclares⟩ := hrun.declares h hx
    obtain ⟨hmem, hpname⟩ := hrun.lower_mem hp'
    refine ⟨spec, id, hspec, hid, ?_, ?_, _, hmem, hpname, hdeclares⟩
    · show Ir.Ty.struct (lowerQualifier _ _ q.qualifier) q.name.name = _
      rw [hlower]
    · rw [← hlower]
      exact File.lower_qualified hq

/-- Imports under other names, one of which takes the place of another, and of paths that end in the
same name. -/
def aliased : List Source := [
  ⟨"a.mid", "package a\nimport x \"b\"\nimport x \"lib/c\"\nimport \"b\"\n" ++
    "struct S \x7b\n  vector<x.V> v\n  b.U u\n\x7d\n"⟩,
  ⟨"b.mid", "package b\nstruct U \x7b\n\x7d\n"⟩, ⟨"c.mid", "package c\nstruct V \x7b\n\x7d\n"⟩]

theorem qualified_referents_aliased : DistinctNames (parseSources aliased).parsed ∧
    ∃ p ∈ (compile aliased).packages.values, ∃ g ∈ p.files.values,
      g.qualifiedNames.map (fun q => (q.qualifier.name, q.name.name)) = [("x", "V"), ("b", "U")] ∧
      ∀ q ∈ g.qualifiedNames, (g.resolutions.get? q.qualifier.id).isSome = true ∧
        (g.resolutions.get? q.name.id).isSome = true ∧
        ∃ spec id, g.importOf? (parseSources aliased).parsed q.qualifier.name = some spec ∧
          spec.id? = some id ∧
          (TypeExpr.named q.qualifier q.name).lower (compile aliased).env g =
            .struct id q.name.name ∧
          (id, q.name.name) ∈ (g.lower (compile aliased).env).referents ∧
          ∃ P ∈ (compile aliased).ir.packages, P.name = id ∧ P.Declares q.name.name := by
  have hdistinct : DistinctNames (parseSources aliased).parsed := by decide +kernel
  have hfile : ∃ p ∈ (compile aliased).packages.values, ∃ g ∈ p.files.values,
      g.qualifiedNames.map (fun q => (q.qualifier.name, q.name.name)) = [("x", "V"), ("b", "U")] ∧
      ∀ q ∈ g.qualifiedNames, (g.resolutions.get? q.qualifier.id).isSome = true ∧
        (g.resolutions.get? q.name.id).isSome = true := by decide +kernel
  obtain ⟨p, hp, g, hg, hnames, hresolved⟩ := hfile
  refine ⟨hdistinct, p, hp, g, hg, hnames, fun q hq => ?_⟩
  obtain ⟨hqualifier, hname⟩ := hresolved q hq
  exact ⟨hqualifier, hname, qualified_referents aliased hdistinct hp hg hq hqualifier hname⟩

/-! ### Names without a qualifier -/

/-- Where nothing is unresolved, whatever may stay so stands for something. -/
theorem Linked.Settles.isSome_of_none {l : Linked} {f : File} {i : Ident} {o : Option Object}
    (h : l.Settles f i o) (hnone : l.unresolved = []) : o.isSome = true := by
  cases o with
  | some o => rfl
  | none =>
    have hlisted := h.2.2
    rw [hnone] at hlisted
    cases hlisted

theorem File.declaration?_eq_some {f : File} {name : String} {o : Object}
    (h : f.declaration? name = some o) : o.key = some name ∧ o ∈ f.declarations := by
  have hkey : decide (o.key = some name) = true :=
    List.find?_some (p := fun x : Object => decide (x.key = some name)) h
  exact ⟨of_decide_eq_true hkey, List.mem_of_find?_eq_some h⟩

namespace Linked.Run

variable {files : FileSet} {t m : SymbolTable} {fs : List File} {scopes : NameMap ScopeId}
  {l : Linked}

/-- What a name of a file stands for is declared by the package of the file, or by one that the file
imports by a dot. -/
theorem declares_meaning (h : l.Run files t fs scopes m) (hdistinct : DistinctNames fs) {f : File}
    {p : Package} (hp : l.packages.find? f.name.name = some p)
    (hf : f.lower (.ofPackages l.packages l.symbols) ∈
      (p.lower (.ofPackages l.packages l.symbols)).files) {name : String} {o : Object}
    (ho : f.meaning? fs name = some o) :
    (p.lower (.ofPackages l.packages l.symbols)).Declares name ∨
      ∃ spec ∈ f.imports, spec.isDotted = true ∧ ∃ id, spec.id? = some id ∧
        ∃ q, l.packages.find? id = some q ∧
          (q.lower (.ofPackages l.packages l.symbols)).Declares name := by
  -- the cases are those of `File.meaning?`: the file, its package, the imports by a dot
  rcases Option.or_eq_some_iff.1 ho with ho | ⟨-, ho⟩
  · obtain ⟨hkey, hmem⟩ := File.declaration?_eq_some ho
    rw [← (Object.key_eq_some.1 hkey).1]
    exact .inl (File.declares_lower hf hmem)
  rcases Option.or_eq_some_iff.1 ho with ho | ⟨-, ho⟩
  · obtain ⟨q, hq, hdeclares⟩ := h.declares hdistinct ho
    obtain rfl : q = p := Option.some.inj (hq.symm.trans hp)
    exact .inl hdeclares
  · obtain ⟨spec, hspec, ho⟩ := List.exists_of_findSome?_eq_some ho
    split at ho
    · next hdotted =>
      obtain ⟨id, hid, ho⟩ := Option.bind_eq_some_iff.1 ho
      have hid : spec.id? = some id := (Option.filter_eq_some_iff.1 hid).1
      exact .inr ⟨spec, hspec, hdotted, id, hid, h.declares hdistinct ho⟩
    · cases ho

/-- Where nothing is unresolved, a qualifier is not lowered to the empty name. -/
theorem lowerQualifier_ne_empty (hnone : l.unresolved = []) {imports : NameMap ObjectId} {g : File}
    {q : QualifiedRef} (hsettles : l.SettlesQualified fs imports g q) :
    lowerQualifier (.ofPackages l.packages l.symbols) g q.qualifier ≠ "" := by
  unfold SettlesQualified at hsettles
  cases himported : g.imported? fs q.qualifier.name with
  | none =>
    rw [himported] at hsettles
    cases hsettles.1.isSome_of_none hnone
  | some id =>
    rw [himported] at hsettles
    obtain ⟨⟨o, pos, -, -, hpackage, -⟩, -⟩ := hsettles
    have hlower : lowerQualifier (.ofPackages l.packages l.symbols) g q.qualifier = id :=
      lowerQualifier_eq hpackage rfl
    rw [hlower]
    rw [File.imported?_eq] at himported
    obtain ⟨spec, -, hid⟩ := Option.bind_eq_some_iff.1 himported
    exact ImportSpec.id_ne_empty hid

end Linked.Run

/-- In a compilation without errors and unresolved names, a name to which a file refers without a
package is declared by the package of the file, or by one that the file imports by a dot. -/
theorem local_referents (sources : List Source) (h : (compile sources).hasErrors = false)
    (hresolved : (compile sources).unresolved = []) {P : Ir.Package}
    (hP : P ∈ (compile sources).ir.packages) {F : Ir.File} (hF : F ∈ P.files) {name : String}
    (hname : ("", name) ∈ F.referents) (hblank : name ≠ "_") :
    P.Declares name ∨ ∃ spec ∈ F.imports, spec.name = "." ∧
      ∃ Q ∈ (compile sources).ir.packages, Q.name = spec.id ∧ Q.Declares name := by
  obtain ⟨scopes, m, hrun⟩ := linkSources_run sources
  have hclean : ∀ d ∈ (linkSources sources).diagnostics, d.isError = false := by
    intro d hd
    apply eq_false_of_ne_true
    apply List.any_eq_false.1 h
    exact mem_sortDiagnostics.2 (List.mem_append_left _ (List.mem_append_right _ hd))
  have hdistinct := hrun.distinctNames hclean
  obtain ⟨p, hp, rfl⟩ := List.mem_map.1 hP
  obtain ⟨g, hg, rfl⟩ := List.mem_map.1 hF
  obtain ⟨f, -, refs, i, -, hfind, rfl, hsettled, hqualified⟩ := hrun.settled hdistinct hp hg
  rcases File.referents_lower hname with ⟨r, hr, heq⟩ | ⟨q, hq, heq⟩
  · obtain rfl : name = r.name := (Prod.mk.inj heq).2
    have hmeaning := (hsettled r hr (decide_eq_false hblank)).isSome_of_none hresolved
    obtain ⟨o, ho⟩ := Option.isSome_iff_exists.1 hmeaning
    refine (hrun.declares_meaning (f := linkedFile m scopes p.imports i f) hdistinct hfind hF
      ho).imp_right ?_
    rintro ⟨spec, hspec, hdotted, id, hid, q, hq, hdeclares⟩
    obtain ⟨hmem, hqname⟩ := hrun.lower_mem hq
    have hid : q.name = spec.lower.id := hqname.trans (spec.lower_id hid).symm
    exact ⟨spec.lower, File.mem_imports_lower hspec, spec.lower_name hdotted, _, hmem, hid, hdeclares⟩
  · -- a qualifier stands for a package, the id of which is not empty
    have hempty : lowerQualifier (compile sources).env _ q.qualifier = "" :=
      (Prod.mk.inj heq).1.symm
    exact absurd hempty (Linked.Run.lowerQualifier_ne_empty hresolved (hqualified q hq))

/-- A file with names of its own package, of another one, and of one that is imported by a dot. -/
def strayed : List Source := [
  ⟨"a.mid", "package p\nimport . \"q\"\nstruct A \x7b\n  vector<A> as\n  B b\n\x7d\n"⟩,
  ⟨"b.mid", "package q\nstruct B \x7b\n\x7d\n"⟩]

theorem local_referents_strayed : (compile strayed).hasErrors = false ∧
    (compile strayed).unresolved = [] ∧
    ∃ P ∈ (compile strayed).ir.packages, ∃ F ∈ P.files,
      F.referents = [("", "A"), ("", "B")] ∧
      ∀ name, ("", name) ∈ F.referents → name ≠ "_" ∧
        (P.Declares name ∨ ∃ spec ∈ F.imports, spec.name = "." ∧
          ∃ Q ∈ (compile strayed).ir.packages, Q.name = spec.id ∧ Q.Declares name) := by
  have herrors : (compile strayed).hasErrors = false := by decide +kernel
  have hresolved : (compile strayed).unresolved = [] := by decide +kernel
  have hfile : ∃ P ∈ (compile strayed).ir.packages, ∃ F ∈ P.files,
      F.referents = [("", "A"), ("", "B")] := by decide +kernel
  obtain ⟨P, hP, F, hF, hnames⟩ := hfile
  refine ⟨herrors, hresolved, P, hP, F, hF, hnames, fun name hname => ?_⟩
  have hblank : name ≠ "_" := by
    rintro rfl
    rw [hnames] at hname
    revert hname
    decide
  exact ⟨hblank, local_referents strayed herrors hresolved hP hF hname hblank⟩

/-- A name without a package need not be declared by the package of the file. -/
theorem strayed_referent : (compile strayed).diagnostics = [] ∧ (compile strayed).unresolved = [] ∧
    ∃ P ∈ (compile strayed).ir.packages, ∃ F ∈ P.files,
      ("", "B") ∈ F.referents ∧ ¬ P.Declares "B" := by
  have hnothing : (compile strayed).diagnostics = [] := List.isEmpty_iff.1 (by decide +kernel)
  refine ⟨hnothing, ?_, ?_⟩
  · decide +kernel
  · decide +kernel

end Idl
