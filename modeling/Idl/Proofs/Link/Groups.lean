/-
Idl/Proofs/Link/Groups.lean

Files grouped by package.

The group of a package holds the files of that name in the order in which they were given, and its
scope is new and names nothing yet (`groupFiles_grouped`).
-/
import Idl.Package.Link
import Idl.Proofs.NameMaps
import Idl.Proofs.Placement.Layout
import Mathlib.Data.List.Induction

namespace Idl

/-- The files of a package, in the order in which they were given. -/
def filesOf (fs : List File) (package : String) : List File :=
  fs.filter fun f => f.name.name = package

theorem mem_filesOf {fs : List File} {package : String} {f : File} :
    f ∈ filesOf fs package ↔ f ∈ fs ∧ f.name.name = package := by
  simp [filesOf]

theorem flatMap_filesOf_sublist {β : Type} (fs : List File) (package : String) (g : File → List β) :
    ((filesOf fs package).flatMap g).Sublist (fs.flatMap g) := by
  unfold filesOf
  induction fs with
  | nil => exact .slnil
  | cons f fs ih =>
    rw [List.filter_cons, List.flatMap_cons]
    split
    · rw [List.flatMap_cons]
      exact (List.Sublist.refl _).append ih
    · exact ih.trans (List.sublist_append_right ..)

/-- Files taken package by package are all files. -/
theorem flatMap_filesOf_perm {names : List String} (hnames : names.Nodup) {fs : List File}
    (hmem : ∀ f ∈ fs, f.name.name ∈ names) : (names.flatMap (filesOf fs)).Perm fs := by
  induction fs with
  | nil =>
    have hnil : names.flatMap (filesOf []) = [] := List.flatMap_eq_nil_iff.2 fun _ _ => rfl
    rw [hnil]
  | cons f fs ih =>
    have ih := ih fun g hg => hmem g (List.mem_cons_of_mem f hg)
    obtain ⟨before, after, rfl⟩ := List.append_of_mem (hmem f List.mem_cons_self)
    obtain ⟨-, hafter, hapart⟩ := List.nodup_append.1 hnames
    -- no other package than its own has the file
    have hother {ns : List String} (hns : f.name.name ∉ ns) :
        ns.flatMap (filesOf (f :: fs)) = ns.flatMap (filesOf fs) := by
      refine List.flatMap_congr fun n hn => ?_
      exact List.filter_cons_of_neg (by simpa using fun heq : f.name.name = n => hns (heq ▸ hn))
    have hown : filesOf (f :: fs) f.name.name = f :: filesOf fs f.name.name :=
      List.filter_cons_of_pos (by simp)
    have hbefore : f.name.name ∉ before := fun h => hapart _ h _ List.mem_cons_self rfl
    rw [List.flatMap_append, List.flatMap_cons] at ih ⊢
    rw [hown, hother hbefore, hother (List.nodup_cons.1 hafter).1]
    exact List.perm_middle.trans (ih.cons f)

/-- The groups of the files `fs`, and the table that their scopes were added to. -/
structure Grouped (t : SymbolTable) (fs : List File) (groups : NameMap PackageFiles)
    (t' : SymbolTable) : Prop where
  absent : ∀ {n : String}, groups.find? n = none → ∀ f ∈ fs, f.name.name ≠ n
  present : ∀ {n : String} {g : PackageFiles}, groups.find? n = some g → ∃ f ∈ fs, f.name.name = n
  files : ∀ {n : String} {g : PackageFiles}, groups.find? n = some g → g.files = filesOf fs n
  scope : ∀ {n : String} {g : PackageFiles}, groups.find? n = some g →
    t.scopes.size ≤ g.scope ∧ t'.scopes[g.scope]? = some { outer := none }
  /-- Packages do not share scopes. -/
  distinct : ∀ {n n' : String} {g g' : PackageFiles}, groups.find? n = some g →
    groups.find? n' = some g' → g.scope = g'.scope → n = n'
  within : t.Within t'
  objects : t'.objects = t.objects

namespace Grouped

variable {t t' : SymbolTable} {fs : List File} {groups : NameMap PackageFiles}

/-- A file joins the group of its package. -/
theorem join (h : Grouped t fs groups t') (f : File) {g : PackageFiles}
    (hg : groups.find? f.name.name = some g) :
    Grouped t (fs ++ [f]) (groups.insert f.name.name { g with files := g.files ++ [f] }) t' := by
  have hcases {n : String} {g' : PackageFiles}
      (h' : (groups.insert f.name.name { g with files := g.files ++ [f] }).find? n = some g') :
      n = f.name.name ∧ g' = { g with files := g.files ++ [f] } ∨
        n ≠ f.name.name ∧ groups.find? n = some g' := by
    rw [NameMap.find?_insert] at h'
    split at h'
    · exact .inl ⟨by assumption, (Option.some.inj h').symm⟩
    · exact .inr ⟨by assumption, h'⟩
  have hold {n : String} {g' : PackageFiles}
      (h' : (groups.insert f.name.name { g with files := g.files ++ [f] }).find? n = some g') :
      ∃ g₀, groups.find? n = some g₀ ∧ g₀.scope = g'.scope := by
    rcases hcases h' with ⟨rfl, rfl⟩ | ⟨-, h'⟩
    · exact ⟨g, hg, rfl⟩
    · exact ⟨g', h', rfl⟩
  refine ⟨fun {n} hn x hx => ?_, fun {n g'} h' => ?_, fun {n g'} h' => ?_, fun {n g'} h' => ?_,
    fun {n n' g₁ g₂} h₁ h₂ hs => ?_, h.within, h.objects⟩
  · rw [NameMap.find?_insert] at hn
    split at hn
    · cases hn
    · next hne =>
      rcases List.mem_append.1 hx with hx | hx
      · exact h.absent hn x hx
      · exact List.mem_singleton.1 hx ▸ fun heq => hne heq.symm
  · rcases hcases h' with ⟨rfl, -⟩ | ⟨-, h'⟩
    · exact ⟨f, List.mem_append_right _ List.mem_cons_self, rfl⟩
    · obtain ⟨x, hx, hn⟩ := h.present h'
      exact ⟨x, List.mem_append_left _ hx, hn⟩
  · rcases hcases h' with ⟨rfl, rfl⟩ | ⟨hne, h'⟩
    · simp [filesOf, h.files hg]
    · simp [filesOf, h.files h', Ne.symm hne]
  · obtain ⟨g₀, h₀, hs⟩ := hold h'
    exact hs ▸ h.scope h₀
  · obtain ⟨g₁', h₁', hs₁⟩ := hold h₁
    obtain ⟨g₂', h₂', hs₂⟩ := hold h₂
    exact h.distinct h₁' h₂' (hs₁.trans (hs.trans hs₂.symm))

/-- The first file of a package makes a group with a new scope. -/
theorem found (h : Grouped t fs groups t') (f : File) (hg : groups.find? f.name.name = none) :
    Grouped t (fs ++ [f]) (groups.insert f.name.name ⟨t'.scopes.size, [f]⟩)
      (t'.newScope none).2 := by
  have hpush (i : ScopeId) : (t'.newScope none).2.scopes[i]? =
      if i = t'.scopes.size then some { outer := none } else t'.scopes[i]? :=
    Array.getElem?_push
  have hcases {n : String} {g : PackageFiles}
      (h' : (groups.insert f.name.name ⟨t'.scopes.size, [f]⟩).find? n = some g) :
      n = f.name.name ∧ g = ⟨t'.scopes.size, [f]⟩ ∨
        n ≠ f.name.name ∧ groups.find? n = some g ∧ g.scope < t'.scopes.size := by
    rw [NameMap.find?_insert] at h'
    split at h'
    · exact .inl ⟨by assumption, (Option.some.inj h').symm⟩
    · exact .inr ⟨by assumption, h', (Array.getElem?_eq_some_iff.1 (h.scope h').2).1⟩
  refine ⟨fun {n} hn x hx => ?_, fun {n g} h' => ?_, fun {n g} h' => ?_, fun {n g} h' => ?_,
    fun {n n' g₁ g₂} h₁ h₂ hs => ?_, ⟨fun {i s} hi => ?_, h.within.objects⟩, h.objects⟩
  · rw [NameMap.find?_insert] at hn
    split at hn
    · cases hn
    · next hne =>
      rcases List.mem_append.1 hx with hx | hx
      · exact h.absent hn x hx
      · exact List.mem_singleton.1 hx ▸ fun heq => hne heq.symm
  · rcases hcases h' with ⟨rfl, -⟩ | ⟨-, h', -⟩
    · exact ⟨f, List.mem_append_right _ List.mem_cons_self, rfl⟩
    · obtain ⟨x, hx, hn⟩ := h.present h'
      exact ⟨x, List.mem_append_left _ hx, hn⟩
  · rcases hcases h' with ⟨rfl, rfl⟩ | ⟨hne, h', -⟩
    · have hnone : filesOf fs f.name.name = [] :=
        List.filter_eq_nil_iff.2 fun x hx => by simpa using h.absent hg x hx
      unfold filesOf at hnone ⊢
      rw [List.filter_append, hnone]
      simp
    · simp [filesOf, h.files h', Ne.symm hne]
  · rw [hpush]
    rcases hcases h' with ⟨-, rfl⟩ | ⟨-, h', hlt⟩
    · exact ⟨h.within.scopes_size, if_pos rfl⟩
    · exact ⟨(h.scope h').1, (if_neg (Nat.ne_of_lt hlt)).trans (h.scope h').2⟩
  · rcases hcases h₁ with ⟨rfl, rfl⟩ | ⟨-, h₁, hlt₁⟩
    · rcases hcases h₂ with ⟨rfl, -⟩ | ⟨-, -, hlt₂⟩
      · rfl
      · exact absurd hs.symm (Nat.ne_of_lt hlt₂)
    · rcases hcases h₂ with ⟨-, rfl⟩ | ⟨-, h₂, -⟩
      · exact absurd hs (Nat.ne_of_lt hlt₁)
      · exact h.distinct h₁ h₂ hs
  · have hlt := (Array.getElem?_eq_some_iff.1 (h.within.scopes hi)).1
    rw [hpush, if_neg (Nat.ne_of_lt hlt)]
    exact h.within.scopes hi

end Grouped

/-- The groups of files, one for each package. -/
theorem groupFiles_grouped (fs : List File) (t : SymbolTable) :
    Grouped t fs (groupFiles fs t).1 (groupFiles fs t).2 := by
  induction fs using List.reverseRecOn with
  | nil =>
    refine ⟨fun _ f hf => absurd hf List.not_mem_nil, fun h => ?_, fun h => ?_, fun h => ?_, fun h => ?_, .refl t, rfl⟩
    all_goals cases h
  | append_singleton fs f ih =>
    unfold groupFiles at ih ⊢
    rw [List.foldl_append, List.foldl_cons, List.foldl_nil]
    generalize fs.foldl _ _ = before at ih ⊢
    obtain ⟨groups, t'⟩ := before
    cases hg : groups.find? f.name.name with
    | some g =>
      simp only [hg]
      exact ih.join f hg
    | none =>
      simp only [hg]
      exact ih.found f hg

end Idl
