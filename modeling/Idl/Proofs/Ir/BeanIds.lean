/-
Idl/Proofs/Ir/BeanIds.lean

Which ids the beans of a representation get.

An allocator is told nothing about a bean but its key, so beans with one key would get one id.  Keys
do differ, for two reasons.  The name of a package has no dot, so a key says which package and which
bean it is of (`beanKey_inj`); and where no error is reported, no name is declared twice in a package,
whichever of its files declare it (`keys_nodup_of_no_error`).

Giving ids is a walk over the beans: whatever the allocator does, it does for the keys of all beans
in order, and nothing but ids is changed (`Numbers`, one lemma for each level of the representation).

Main result: in a compilation without errors, ids are given to beans by different keys
(`assignBeanIds_compile`).
-/
import Idl.Proofs.Ir.Clean
import Idl.Proofs.Redeclaration
import Idl.Proofs.Resolution
import Mathlib.Data.List.Pairwise

namespace Idl

/-! ### The beans of a representation -/

namespace Ir

/-- All beans with the names of their packages, in the order of packages, files and declarations. -/
def beans (ir : Ir) : List (String × Bean) :=
  ir.packages.flatMap fun p => p.beans.map (p.name, ·)

/-- The keys of beans. -/
def keysOf (bs : List (String × Bean)) : List String := bs.map fun x => beanKey x.1 x.2

/-- The ids of all beans. -/
def ids (ir : Ir) : List (Option UInt32) := ir.beans.map (·.2.id)

def Bean.withoutId (b : Bean) : Bean := { b with id := none }

def File.withoutIds (f : File) : File := { f with beans := f.beans.map Bean.withoutId }

def Package.withoutIds (p : Package) : Package := { p with files := p.files.map File.withoutIds }

/-- Everything but the ids of beans. -/
def withoutIds (ir : Ir) : Ir := { packages := ir.packages.map Package.withoutIds }

/-! ### Giving ids -/

section Numbers

variable {σ : Type} {α β : Type} (allocate : String → StateM σ UInt32)

/-- A step that gives the beans of a part ids: it calls the allocator for their keys, in order, the
ids are what comes of this, and the rest of the part stays as it is. -/
structure Numbers (keys : α → List String) (ids : α → List (Option UInt32)) (rest : α → β)
    (step : α → StateM σ α) : Prop where
  allocated : ∀ x s, ids (step x s).1 = ((keys x).mapM allocate s).1.map some
  state : ∀ x s, (step x s).2 = ((keys x).mapM allocate s).2
  kept : ∀ x s, rest (step x s).1 = rest x

variable {allocate} {keys : α → List String} {ids : α → List (Option UInt32)} {rest : α → β}
  {step : α → StateM σ α}

theorem mapM_append_run {α β : Type} (f : α → StateM σ β) (xs ys : List α) (s : σ) :
    (xs ++ ys).mapM f s =
      ((xs.mapM f s).1 ++ (ys.mapM f (xs.mapM f s).2).1, (ys.mapM f (xs.mapM f s).2).2) := by
  rw [List.mapM_append]
  rfl

/-- A step for each of several parts. -/
theorem Numbers.mapM (h : Numbers allocate keys ids rest step) :
    Numbers allocate (List.flatMap keys) (List.flatMap ids) (List.map rest) (List.mapM step) := by
  have hall : ∀ (xs : List α) (s : σ), (xs.mapM step s).1.flatMap ids =
        ((xs.flatMap keys).mapM allocate s).1.map some ∧
      (xs.mapM step s).2 = ((xs.flatMap keys).mapM allocate s).2 ∧
      (xs.mapM step s).1.map rest = xs.map rest := by
    intro xs
    induction xs with
    | nil => exact fun s => ⟨rfl, rfl, rfl⟩
    | cons x xs ih =>
      intro s
      obtain ⟨hids, hstate, hrest⟩ := ih (step x s).2
      have hstep : (x :: xs).mapM step s =
          ((step x s).1 :: (xs.mapM step (step x s).2).1, (xs.mapM step (step x s).2).2) := by
        rw [List.mapM_cons]
        rfl
      rw [hstep, List.flatMap_cons, List.flatMap_cons, mapM_append_run, ← h.state, List.map_append,
        ← h.allocated, ← hids, List.map_cons, h.kept, hrest]
      exact ⟨rfl, hstate, rfl⟩
  exact ⟨fun xs s => (hall xs s).1, fun xs s => (hall xs s).2.1, fun xs s => (hall xs s).2.2⟩

variable (allocate)

theorem numbers_bean (package : String) :
    Numbers allocate (fun b => [beanKey package b]) (fun b => [b.id]) Bean.withoutId
      fun b => do return { b with id := some (← allocate (beanKey package b)) } where
  allocated _ _ := rfl
  state _ _ := rfl
  kept _ _ := rfl

theorem numbers_file (package : String) :
    Numbers allocate (fun f => f.beans.map (beanKey package)) (fun f => f.beans.map (·.id))
      File.withoutIds fun f => do
        let beans ← f.beans.mapM fun b => do
          return { b with id := some (← allocate (beanKey package b)) }
        return { f with beans } := by
  have h := (numbers_bean allocate package).mapM
  constructor
  · intro f s
    have hids := h.allocated f.beans s
    rw [← List.map_eq_flatMap, ← List.map_eq_flatMap] at hids
    exact hids
  · intro f s
    have hstate := h.state f.beans s
    rw [← List.map_eq_flatMap] at hstate
    exact hstate
  · intro f s
    exact congrArg (fun beans => { f with beans }) (h.kept f.beans s)

theorem numbers_package : Numbers allocate (fun p => p.beans.map (beanKey p.name))
    (fun p => p.beans.map (·.id)) Package.withoutIds fun p => do
      let files ← p.files.mapM fun f => do
        let beans ← f.beans.mapM fun b => do
          return { b with id := some (← allocate (beanKey p.name b)) }
        return { f with beans }
      return { p with files } := by
  have h (p : Package) := (numbers_file allocate p.name).mapM
  have hbeans {γ : Type} (g : Bean → γ) (fs : List File) :
      fs.flatMap (fun f => f.beans.map g) = (fs.flatMap (·.beans)).map g :=
    (List.map_flatMap ..).symm
  constructor
  · intro p s
    have hids := (h p).allocated p.files s
    rw [hbeans, hbeans] at hids
    exact hids
  · intro p s
    have hstate := (h p).state p.files s
    rw [hbeans] at hstate
    exact hstate
  · intro p s
    exact congrArg (fun files => { p with files }) ((h p).kept p.files s)

/-- Ids are given to beans by their keys, in order, and nothing else is changed. -/
theorem numbers_assignBeanIds : Numbers allocate (fun ir => keysOf ir.beans) Ir.ids Ir.withoutIds
    (assignBeanIds allocate) := by
  have h := (numbers_package allocate).mapM
  have hbeans {γ : Type} (g : String → Bean → γ) (ps : List Package) :
      ps.flatMap (fun p => p.beans.map (g p.name)) =
        (ps.flatMap fun p => p.beans.map (p.name, ·)).map fun x => g x.1 x.2 := by
    rw [List.map_flatMap]
    exact List.flatMap_congr fun p _ => by rw [List.map_map]; rfl
  constructor
  · intro ir s
    have hids := h.allocated ir.packages s
    rw [hbeans beanKey, hbeans fun _ b => b.id] at hids
    exact hids
  · intro ir s
    have hstate := h.state ir.packages s
    rw [hbeans beanKey] at hstate
    exact hstate
  · intro ir s
    exact congrArg Ir.mk (h.kept ir.packages s)

end Numbers

/-! ### Keys -/

/-- A key tells the package, the name of which has no dot, from the bean. -/
theorem beanKey_inj {p q : String} {b c : Bean} (hp : '.' ∉ p.toList) (hq : '.' ∉ q.toList)
    (h : beanKey p b = beanKey q c) : p = q ∧ b.name = c.name := by
  have hlist : p.toList ++ '.' :: b.name.toList = q.toList ++ '.' :: c.name.toList := by
    have hchars := congrArg String.toList h
    simpa [beanKey] using hchars
  have hdot {x : String} (hx : '.' ∉ x.toList) (ys : List Char) :
      (x.toList ++ '.' :: ys).takeWhile (· ≠ '.') = x.toList := by
    rw [List.takeWhile_append_of_pos, List.takeWhile_cons_of_neg (by simp), List.append_nil]
    exact fun c hc => decide_eq_true fun heq => hx (heq ▸ hc)
  have hpackage : p.toList = q.toList := by rw [← hdot hp, hlist, hdot hq]
  rw [hpackage] at hlist
  exact ⟨String.toList_inj.1 hpackage,
    String.toList_inj.1 (List.cons.inj (List.append_cancel_left hlist)).2⟩

/-- Keys differ if packages have names of their own, without dots, and so have the beans of each. -/
theorem keysOf_nodup {ir : Ir} (hdot : ∀ p ∈ ir.packages, '.' ∉ p.name.toList)
    (hpackages : (ir.packages.map (·.name)).Nodup)
    (hbeans : ∀ p ∈ ir.packages, ((p.beans.filter (·.name ≠ "_")).map (·.name)).Nodup) :
    (keysOf (ir.beans.filter fun x => x.2.name ≠ "_")).Nodup := by
  have hkeys : keysOf (ir.beans.filter fun x => x.2.name ≠ "_") = ir.packages.flatMap fun p =>
      (p.beans.filter (·.name ≠ "_")).map (beanKey p.name) := by
    unfold keysOf beans
    rw [List.filter_flatMap, List.map_flatMap]
    refine List.flatMap_congr fun p _ => ?_
    rw [List.filter_map, List.map_map]
    rfl
  rw [hkeys, List.nodup_flatMap]
  constructor
  · intro p hp
    refine List.pairwise_map.2 ((List.pairwise_map.1 (hbeans p hp)).imp fun hne heq => ?_)
    exact hne (beanKey_inj (hdot p hp) (hdot p hp) heq).2
  · refine (List.pairwise_map.1 hpackages).imp_of_mem fun {p q} hp hq hne k hk hk' => ?_
    obtain ⟨b, -, rfl⟩ := List.mem_map.1 hk
    obtain ⟨c, -, heq⟩ := List.mem_map.1 hk'
    exact hne (beanKey_inj (hdot q hq) (hdot p hp) heq).1.symm

end Ir

/-! ### Names of a package -/

/-- The names that a file declares, but for underscores. -/
def File.declaredNames (f : File) : List String := (f.declared.map (·.name)).filter (· ≠ "_")

/-- The names of the beans of a file, but for underscores. -/
def File.beanNames (f : File) : List String := (f.beans.map (·.name.name)).filter (· ≠ "_")

/-- A file declares its beans. -/
theorem File.beanNames_sublist (f : File) : f.beanNames.Sublist f.declaredNames := by
  refine List.Sublist.filter _ ?_
  have hsub : (f.beans.map (·.name)).Sublist f.declared := by
    unfold File.beans File.declared
    induction f.decls with
    | nil => exact .slnil
    | cons d ds ih =>
      cases d with
      | bean b => exact ih.cons_cons b.name
      | consts g => exact ih.trans (List.sublist_append_right ..)
      | imports g => exact ih
      | bad span => exact ih
  have hnames := hsub.map (·.name)
  rw [List.map_map] at hnames
  exact hnames

/-- A package is lowered with the beans of its files. -/
theorem Package.beanNames_lower (env : LowerEnv) (p : Package) :
    ((p.lower env).beans.filter (·.name ≠ "_")).map (·.name) =
      p.files.values.flatMap File.beanNames := by
  unfold Ir.Package.beans
  rw [List.filter_flatMap, List.map_flatMap]
  show (p.files.values.map (File.lower env)).flatMap _ = _
  rw [List.flatMap_map]
  refine List.flatMap_congr fun f _ => ?_
  unfold File.beanNames
  rw [List.filter_map]
  show ((f.beans.map (Bean.lower env f)).filter _).map _ = _
  rw [List.filter_map, List.map_map]
  rfl

theorem filterMap_spot_key (is : List Ident) : (is.map Ident.spot).filterMap Spot.key =
    (is.map (·.name)).filter (· ≠ "_") := by
  rw [← List.filterMap_eq_filter, List.filterMap_map, List.filterMap_map]
  refine List.filterMap_congr fun i _ => ?_
  show (if i.name = "_" then none else some i.name) = Option.guard _ i.name
  by_cases h : i.name = "_"
  · simp [Option.guard, h]
  · simp [Option.guard, h]

/-- A list without repetitions has no name twice. -/
theorem keys_nodup_of_repeats {B : List Spot} (h : repeats Spot.key [] B = []) :
    (B.filterMap Spot.key).Nodup := by
  have hperm := (firsts_append_repeats_perm (φ := Spot.key) [] B).filterMap Spot.key
  rw [h, List.append_nil, List.filterMap_filter] at hperm
  have hall : B.filterMap (fun x => if (Spot.key x).isSome then Spot.key x else none) =
      B.filterMap Spot.key := by
    refine List.filterMap_congr fun x _ => ?_
    cases Spot.key x with
    | none => rfl
    | some k => rfl
  rw [hall] at hperm
  exact hperm.nodup_iff.1 (firsts_keys (φ := Spot.key) [] B).1

/-- Where no error is reported, no name is redeclared. -/
theorem reportedSpots_of_no_error {sources : List Source}
    (h : (compile sources).hasErrors = false) : reportedSpots sources = [] := by
  refine List.eq_nil_iff_forall_not_mem.2 fun x hx => ?_
  obtain ⟨d, hd, hspot⟩ := List.mem_filterMap.1 hx
  have hmem : d ∈ (compile sources).diagnostics :=
    mem_sortDiagnostics.2 (List.mem_append_left _ hd)
  have herror : d.isError = false := eq_false_of_ne_true (List.any_eq_false.1 h d hmem)
  simp [Diagnostic.redeclaredSpot?, Diagnostic.redeclared?, herror] at hspot

/-- Where no error is reported, the files of a package declare no name twice. -/
theorem declaredNames_nodup {sources : List Source} (h : (compile sources).hasErrors = false)
    (n : String) :
    ((filesOf (parseSources sources).parsed n).flatMap File.declaredNames).Nodup := by
  have hnone : repeats Spot.key []
      (((filesOf (parseSources sources).parsed n).flatMap File.declared).map Ident.spot) = [] := by
    refine List.eq_nil_iff_forall_not_mem.2 fun x hx => ?_
    have hreported := mem_reportedSpots.2 ⟨_, .package n, hx⟩
    rw [reportedSpots_of_no_error h] at hreported
    cases hreported
  have hnodup := keys_nodup_of_repeats hnone
  rw [filterMap_spot_key, List.map_flatMap, List.filter_flatMap] at hnodup
  exact hnodup

/-- If files declare no name twice, no two beans of their package have one name. -/
theorem Package.Links.beanNames_nodup {t : SymbolTable} {scopes : NameMap ScopeId} {n : String}
    {i : ScopeId} {fs : List File} {p : Package} (h : p.Links t scopes n i fs)
    (hfs : (fs.flatMap File.declaredNames).Nodup) :
    (p.files.values.flatMap File.beanNames).Nodup := by
  rw [List.nodup_flatMap] at hfs
  obtain ⟨hone, hapart⟩ := hfs
  rw [List.nodup_flatMap]
  constructor
  · intro f hf
    obtain ⟨f, hmem, rfl⟩ := h.mem_values hf
    exact (hone f hmem).sublist f.beanNames_sublist
  · -- files under different names are linked from different files
    have hdiffer : p.files.values.Pairwise fun f g => f.filename ≠ g.filename := by
      refine List.pairwise_map.1 ?_
      rw [h.filenames]
      exact NameMap.keys_nodup _
    have hsymm : Std.Symm (Function.onFun List.Disjoint File.declaredNames) :=
      ⟨fun _ _ hdisjoint _ hx hy => hdisjoint hy hx⟩
    refine hdiffer.imp_of_mem fun {f g} hf hg hne x hx hy => ?_
    obtain ⟨f, hfmem, rfl⟩ := h.mem_values hf
    obtain ⟨g, hgmem, rfl⟩ := h.mem_values hg
    have hfg : f ≠ g := by
      rintro rfl
      exact hne rfl
    exact hapart.forall hfmem hgmem hfg (f.beanNames_sublist.subset hx)
      (g.beanNames_sublist.subset hy)

/-- Where no error is reported, the keys of beans differ, but for those named by an underscore. -/
theorem keys_nodup_of_no_error {sources : List Source}
    (h : (compile sources).hasErrors = false) :
    (Ir.keysOf ((compile sources).ir.beans.filter fun x => x.2.name ≠ "_")).Nodup := by
  obtain ⟨scopes, m, hrun⟩ := linkSources_run sources
  have hlinked {p : Package} (hp : p ∈ (linkSources sources).packages.values) :
      ∃ n i, scopes.find? n = some i ∧
        p.Links m scopes n i (filesOf (parseSources sources).parsed n) := by
    obtain ⟨n, hn⟩ := NameMap.mem_values.1 hp
    obtain ⟨i, hi, hlinks, -⟩ := hrun.links.packages hn
    exact ⟨n, i, hi, hlinks⟩
  refine Ir.keysOf_nodup (List.forall_mem_map.2 fun p hp => ?_) ?_
    (List.forall_mem_map.2 fun p hp => ?_)
  · obtain ⟨n, i, hi, hlinks⟩ := hlinked hp
    obtain ⟨f, hf, hname⟩ := (hrun.links.named n).1 (by rw [hi]; rfl)
    show '.' ∉ p.name.toList
    rw [hlinks.name, ← hname]
    exact (package_spelled hf).not_mem (by decide +kernel)
  · have hnames : (compile sources).ir.packages.map (·.name) =
        (linkSources sources).packages.values.map (·.name) := List.map_map
    rw [hnames, hrun.package_names]
    exact NameMap.keys_nodup _
  · obtain ⟨n, i, -, hlinks⟩ := hlinked hp
    rw [p.beanNames_lower]
    exact hlinks.beanNames_nodup (declaredNames_nodup h n)

/-- In a compilation without errors, each bean gets the id that the allocator chooses for its key,
one after the other in the order of packages, files and declarations.  No two beans have one key,
but for those named by an underscore, and nothing but ids is changed. -/
theorem assignBeanIds_compile (sources : List Source) (h : (compile sources).hasErrors = false) :
    (Ir.keysOf ((compile sources).ir.beans.filter fun x => x.2.name ≠ "_")).Nodup ∧
      ∀ (σ : Type) (allocate : String → StateM σ UInt32) (s : σ),
        let chosen := (Ir.keysOf (compile sources).ir.beans).mapM allocate s
        let numbered := (compile sources).ir.assignBeanIds allocate s
        numbered.1.ids = chosen.1.map some ∧ numbered.2 = chosen.2 ∧
          numbered.1.withoutIds = (compile sources).ir.withoutIds :=
  ⟨keys_nodup_of_no_error h, fun _ _ s =>
    have hnumbers := Ir.numbers_assignBeanIds _
    ⟨hnumbers.allocated _ s, hnumbers.state _ s, hnumbers.kept _ s⟩⟩

/-- Beans with one name in two packages, and beans without a name of their own. -/
def beansOfTwo : List Source := [
  ⟨"b.mid", "package a\nstruct T \x7b\n\x7d\nstruct _ \x7b\n\x7d\n"⟩,
  ⟨"a.mid", "package a\nstruct S \x7b\n\x7d\nenum _ \x7b\n\x7d\n"⟩,
  ⟨"c.mid", "package c\nimport . \"a\"\nstruct S \x7b\n  T t\n\x7d\n"⟩]

theorem assignBeanIds_compile_beansOfTwo :
    (compile beansOfTwo).hasErrors = false ∧
    Ir.keysOf (compile beansOfTwo).ir.beans = ["a.S", "a._", "a.T", "a._", "c.S"] ∧
    (Ir.keysOf ((compile beansOfTwo).ir.beans.filter fun x => x.2.name ≠ "_")).Nodup ∧
      ∀ (σ : Type) (allocate : String → StateM σ UInt32) (s : σ),
        let chosen := (Ir.keysOf (compile beansOfTwo).ir.beans).mapM allocate s
        let numbered := (compile beansOfTwo).ir.assignBeanIds allocate s
        numbered.1.ids = chosen.1.map some ∧ numbered.2 = chosen.2 ∧
          numbered.1.withoutIds = (compile beansOfTwo).ir.withoutIds :=
  have herrors : (compile beansOfTwo).hasErrors = false := by decide +kernel
  ⟨herrors, by decide +kernel, assignBeanIds_compile beansOfTwo herrors⟩

end Idl
