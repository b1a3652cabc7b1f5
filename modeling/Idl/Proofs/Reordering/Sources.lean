/-
Idl/Proofs/Reordering/Sources.lean

Sources that do not get into each other's way.

If there are positions for all sources, then each of them has a seat (`map_fst_seats`), and the parsed
files are the sources, placed where they sit.  If moreover no name is declared twice in a package, a
name is declared by one source at most, so in whatever order the sources are given it stands for one
declaration, which only moves with its source (`Interchangeable.declarationOf?_twins`).
-/
import Idl.Proofs.Isolation
import Idl.Proofs.Resolution
import Mathlib.Data.List.Forall2

namespace Idl

/-! ### Seats -/

/-- How many positions a source takes. -/
def Source.extent (s : Source) : Nat := s.text.utf8ByteSize + 1

/-- The sources for which there are positions, with their places. -/
abbrev seats (sources : List Source) : List (Source × Placement) :=
  seated (Board.empty.layout sources)

/-- A layout has a line for each source. -/
theorem Board.layout_sources (b : Board) (sources : List Source) :
    (b.layout sources).map (·.1) = sources := by
  induction sources generalizing b with
  | nil => rfl
  | cons s sources ih =>
    cases hfit : b.fits s with
    | true => rw [b.layout_cons_of_fits s sources hfit, List.map_cons, ih]
    | false => rw [b.layout_cons_of_not_fits s sources hfit, List.map_cons, ih]

/-- What is seated is one of the sources. -/
theorem mem_of_seat {sources : List Source} {s : Source} {ρ : Placement}
    (h : (s, ρ) ∈ seats sources) : s ∈ sources := by
  obtain ⟨x, hx, hseat⟩ := List.mem_filterMap.1 h
  obtain ⟨ρ', -, heq⟩ := Option.map_eq_some_iff.1 hseat
  obtain ⟨rfl, -⟩ := Prod.mk.inj heq
  rw [← Board.layout_sources .empty sources]
  exact List.mem_map_of_mem hx

/-- Where there are positions for all sources, none is left out. -/
theorem Board.map_fst_layout {b : Board} {sources : List Source}
    (h : b.files.next + (sources.map Source.extent).sum < positionBound) :
    (seated (b.layout sources)).map (·.1) = sources := by
  induction sources generalizing b with
  | nil => rfl
  | cons s sources ih =>
    rw [List.map_cons, List.sum_cons, Source.extent] at h
    have hfit : b.fits s = true := decide_eq_true (by unfold Pos at *; omega)
    rw [b.layout_cons_of_fits s sources hfit]
    refine congrArg (s :: ·) (ih ?_)
    show b.files.next + s.text.utf8ByteSize + 1 + _ < _
    unfold Pos at *
    omega

/-- Where there are not positions enough for two sources, the first one gets them, and the other one
is reported: what is parsed then depends on the order. -/
theorem parseSources_crowded {s s' : Source} (hs : 1 + s.extent < positionBound)
    (h : positionBound ≤ 1 + s.extent + s'.extent) :
    parseSources [s, s'] = { parseSources [s] with
      diagnostics := (parseSources [s]).diagnostics ++
        [.error (s'.name ++ ": " ++ FileSetError.overflow.message) ⟨0, 0⟩] } := by
  have hnext : (parseSources [s]).files.next = 1 + s.text.utf8ByteSize + 1 := by
    obtain ⟨r, hparse, hnext⟩ : ∃ r, parseFile {} {} s.name s.text = .ok r ∧
        r.files.next = 1 + s.text.utf8ByteSize + 1 := by
      have hroom : ¬ positionBound ≤ 1 + s.text.utf8ByteSize + 1 := Nat.not_le.2 hs
      exact ⟨_, (parseFile_eq {} {} s Nat.one_ne_zero).trans (if_neg hroom), rfl⟩
    show (ParsedSources.add {} s).files.next = _
    rw [ParsedSources.add, hparse]
    exact hnext
  exact ParsedSources.add_refused (p := parseSources [s]) (by rw [hnext]; exact h)

/-- What sits somewhere is parsed. -/
theorem mem_parsed_of_seat {sources : List Source} {s : Source} {ρ : Placement}
    (h : (s, ρ) ∈ seats sources) : s.alone.file.placed ρ ∈ (parseSources sources).parsed := by
  rw [parseSources_eq]
  exact List.mem_map_of_mem (f := fun x : Source × Placement => x.1.alone.file.placed x.2) h

/-- No two files have one number. -/
theorem seat_unique {sources : List Source} {x y : Source × Placement} (hx : x ∈ seats sources)
    (hy : y ∈ seats sources) (hid : x.2.fileId = y.2.fileId) : x = y := by
  have hnodup : ((seats sources).map (·.2.fileId)).Nodup := List.pairwise_map.2
    ((Board.layout_pairwise Nat.one_ne_zero sources).imp fun h => Nat.ne_of_lt h.fileId)
  exact List.inj_on_of_nodup_map hnodup hx hy hid

/-- Two sources that share a place are one. -/
theorem seat_of_place {sources : List Source} {x y : Source × Placement} (hx : x ∈ seats sources)
    (hy : y ∈ seats sources) {p q : Pos} (hp : x.1.alone.source.Owns p)
    (hq : y.1.alone.source.Owns q) (heq : x.2.pos p = y.2.pos q) : x = y := by
  obtain ⟨a, ha, rfl⟩ := List.getElem_of_mem hx
  obtain ⟨b, hb, rfl⟩ := List.getElem_of_mem hy
  have hprecedes := List.pairwise_iff_getElem.1
    (Board.layout_pairwise (b := .empty) Nat.one_ne_zero sources)
  rcases Nat.lt_trichotomy a b with hlt | rfl | hlt
  · exact absurd heq (Nat.ne_of_lt ((hprecedes a b ha hb hlt).pos_lt hp hq))
  · rfl
  · exact absurd heq.symm (Nat.ne_of_lt ((hprecedes b a hb ha hlt).pos_lt hq hp))

/-! ### Names that are declared once -/

/-- No name but the blank one is declared by two files of one package. -/
def DeclaredOnce (fs : List File) : Prop :=
  fs.Pairwise fun f g => f.name.name = g.name.name →
    ∀ i ∈ f.declared, ∀ j ∈ g.declared, i.name = j.name → i.isBlank = true

instance (fs : List File) : Decidable (DeclaredOnce fs) :=
  inferInstanceAs (Decidable (fs.Pairwise _))

/-- The package that a source belongs to. -/
def Source.package (s : Source) : String := s.alone.file.name.name

/-- Two sources declare no name of one package both. -/
def Source.Apart (s s' : Source) : Prop :=
  s.package = s'.package → ∀ i ∈ s.alone.file.declared, ∀ j ∈ s'.alone.file.declared,
    i.name = j.name → i.isBlank = true

theorem Source.Apart.symm {s s' : Source} (h : s.Apart s') : s'.Apart s := by
  intro hpackage i hi j hj hname
  have hblank := h hpackage.symm j hj i hi hname.symm
  unfold Ident.isBlank at hblank ⊢
  rwa [hname]

/-- What is declared has a name that is declared. -/
theorem File.exists_declared {f : File} {o : Object} (ho : o ∈ f.declarations) :
    ∃ i ∈ f.declared, i.name = o.name := by
  have hspot : o.spot ∈ f.declared.map Ident.spot := by
    rw [← f.spot_declarations]
    exact List.mem_map_of_mem ho
  obtain ⟨i, hi, heq⟩ := List.mem_map.1 hspot
  exact ⟨i, hi, (Prod.mk.inj heq).1⟩

/-- A name that two sources of one package declare, they do not both declare. -/
theorem Source.Apart.declaration? {s s' : Source} (h : s.Apart s')
    (hpackage : s.package = s'.package) {name : String} {o o' : Object}
    (ho : s.alone.file.declaration? name = some o) :
    s'.alone.file.declaration? name ≠ some o' := by
  intro ho'
  have hdeclared {s : Source} {o : Object} (ho : s.alone.file.declaration? name = some o) :
      name ≠ "_" ∧ ∃ i ∈ s.alone.file.declared, i.name = name := by
    have hkey : o.key = some name := by simpa using List.find?_some ho
    obtain ⟨hname, hne⟩ := Object.key_eq_some.1 hkey
    obtain ⟨i, hi, heq⟩ := File.exists_declared (List.mem_of_find?_eq_some ho)
    exact ⟨hne, i, hi, heq.trans hname⟩
  obtain ⟨hne, i, hi, hiname⟩ := hdeclared ho
  obtain ⟨-, j, hj, hjname⟩ := hdeclared ho'
  have hblank := h hpackage i hi j hj (hiname.trans hjname.symm)
  exact hne (hiname ▸ of_decide_eq_true hblank)

/-- Where there are positions for all sources, files declare names once if their sources are apart. -/
theorem declaredOnce_iff {sources : List Source}
    (h : 1 + (sources.map Source.extent).sum < positionBound) :
    DeclaredOnce (parseSources sources).parsed ↔ sources.Pairwise Source.Apart := by
  have hseats : sources.Pairwise Source.Apart ↔
      (seats sources).Pairwise fun x y => x.1.Apart y.1 := by
    rw [← List.pairwise_map (f := Prod.fst), Board.map_fst_layout h]
  rw [hseats, parseSources_eq]
  refine List.pairwise_map.trans (List.Pairwise.iff fun x y => ?_)
  rw [File.declared_placed, File.declared_placed]
  simp only [List.forall_mem_map, Ident.placed_name, Ident.placed_isBlank]
  rfl

/-! ### Interchangeable sources -/

/-- Sources that do not get into each other's way: they have different names, there are positions for
all of them (otherwise `parseSources_crowded`), and none of them declares a name that another one of its
package declares. -/
structure Interchangeable (sources : List Source) : Prop where
  names : (sources.map (·.name)).Nodup
  room : 1 + (sources.map Source.extent).sum < positionBound
  once : DeclaredOnce (parseSources sources).parsed

namespace Interchangeable

variable {sources sources' : List Source} (h : Interchangeable sources)
include h

theorem map_fst_seats : (seats sources).map (·.1) = sources := Board.map_fst_layout h.room

theorem exists_seat {s : Source} (hs : s ∈ sources) : ∃ ρ, (s, ρ) ∈ seats sources := by
  rw [← h.map_fst_seats] at hs
  obtain ⟨⟨s, ρ⟩, hmem, rfl⟩ := List.mem_map.1 hs
  exact ⟨ρ, hmem⟩

theorem nodup : sources.Nodup := .of_map _ h.names

theorem apart : sources.Pairwise Source.Apart := (declaredOnce_iff h.room).1 h.once

/-- Sources stay interchangeable when they are. -/
theorem perm (hperm : sources.Perm sources') : Interchangeable sources' := by
  have hroom : 1 + (sources'.map Source.extent).sum < positionBound :=
    (hperm.map Source.extent).sum_nat ▸ h.room
  exact ⟨(hperm.map _).nodup_iff.1 h.names, hroom,
    (declaredOnce_iff hroom).2 ((hperm.pairwise_iff Source.Apart.symm).1 h.apart)⟩

/-- In a package no two files have one name. -/
theorem distinctNames : DistinctNames (parseSources sources).parsed := by
  have hnames := h.names
  rw [← h.map_fst_seats, List.map_map] at hnames
  rw [parseSources_eq]
  refine List.pairwise_map.2 ((List.pairwise_map.1 hnames).imp fun {x y} hxy _ hname => hxy ?_)
  have hfilename (x : Source × Placement) : (x.1.alone.file.placed x.2).filename = x.1.name :=
    x.1.reading.filename
  exact (hfilename x).symm.trans (hname.trans (hfilename y))

/-! ### Declarations -/

/-- The packages are those of the sources. -/
theorem any_package (n : String) : (parseSources sources).parsed.any (·.name.name = n) =
    sources.any (·.package = n) := by
  have hmap := congrArg (List.any · (·.package = n)) h.map_fst_seats
  rw [parseSources_eq]
  refine Eq.trans ?_ hmap
  show ((seats sources).map _).any _ = ((seats sources).map _).any _
  rw [List.any_map, List.any_map]
  rfl

end Interchangeable

theorem File.declaration?_placed (ρ : Placement) (f : File) (name : String) :
    (f.placed ρ).declaration? name = (f.declaration? name).map (Object.placed ρ) := by
  unfold declaration?
  rw [f.declarations_placed, List.find?_map]
  rfl

namespace Interchangeable

variable {sources sources' : List Source}

/-- A name of a package stands for what a source of the package declares under it. -/
theorem declarationOf?_eq_some (h : Interchangeable sources) {n name : String} {o : Object} :
    declarationOf? (parseSources sources).parsed n name = some o ↔
      ∃ s ρ x, (s, ρ) ∈ seats sources ∧ s.package = n ∧
        s.alone.file.declaration? name = some x ∧ o = x.placed ρ := by
  obtain ⟨scopes, m, hrun⟩ := linkSources_run sources
  have heq : declarationOf? (parseSources sources).parsed n name =
      (filesOf (parseSources sources).parsed n).findSome? (File.declaration? · name) := by
    rw [← hrun.find?_declarationsOf]
    exact List.find?_flatMap
  rw [heq]
  have hfound {o : Object} (ho : (filesOf (parseSources sources).parsed n).findSome?
      (File.declaration? · name) = some o) : ∃ s ρ x, (s, ρ) ∈ seats sources ∧ s.package = n ∧
        s.alone.file.declaration? name = some x ∧ o = x.placed ρ := by
    obtain ⟨f, hf, ho⟩ := List.exists_of_findSome?_eq_some ho
    obtain ⟨hf, hn⟩ := mem_filesOf.1 hf
    obtain ⟨s, ρ, hs, rfl⟩ := mem_parsed hf
    rw [File.declaration?_placed] at ho
    obtain ⟨x, hx, rfl⟩ := Option.map_eq_some_iff.1 ho
    exact ⟨s, ρ, x, hs, hn, hx, rfl⟩
  refine ⟨hfound, ?_⟩
  rintro ⟨s, ρ, x, hs, hn, hx, rfl⟩
  have hmem : s.alone.file.placed ρ ∈ filesOf (parseSources sources).parsed n :=
    mem_filesOf.2 ⟨mem_parsed_of_seat hs, hn⟩
  have hsome : (s.alone.file.placed ρ).declaration? name = some (x.placed ρ) := by
    rw [File.declaration?_placed, hx]
    rfl
  cases hfind : (filesOf (parseSources sources).parsed n).findSome? (File.declaration? · name) with
  | none =>
    have hnone := List.findSome?_eq_none_iff.1 hfind _ hmem
    rw [hsome] at hnone
    cases hnone
  | some o =>
    -- what is found is found in this source, for no other one declares the name
    obtain ⟨s', ρ', x', hs', hn', hx', rfl⟩ := hfound hfind
    by_cases heq : s = s'
    · subst heq
      have hunique : (s, ρ') = (s, ρ) :=
        List.inj_on_of_nodup_map (h.map_fst_seats.symm ▸ h.nodup) hs' hs rfl
      rw [(Prod.mk.inj hunique).2, Option.some.inj (hx'.symm.trans hx)]
    · have hsymm : Std.Symm Source.Apart := ⟨fun _ _ => Source.Apart.symm⟩
      have hapart := h.apart.forall (mem_of_seat hs) (mem_of_seat hs') heq
      exact absurd hx' (hapart.declaration? (hn.trans hn'.symm) hx)

end Interchangeable

/-! ### Two orders -/

/-- Options that are there both or not at all, and whose values are related. -/
theorem rel_of_some {α β : Type} {R : α → β → Prop} {o : Option α} {o' : Option β}
    (h : ∀ a, o = some a → ∃ b, o' = some b ∧ R a b)
    (h' : ∀ b, o' = some b → ∃ a, o = some a) : Option.Rel R o o' := by
  cases o with
  | none =>
    cases o' with
    | none => exact .none
    | some b =>
      obtain ⟨a, ha⟩ := h' b rfl
      cases ha
  | some a =>
    obtain ⟨b, hb, hab⟩ := h a rfl
    exact hb ▸ .some hab

theorem rel_isNone {α β : Type} {R : α → β → Prop} {o : Option α} {o' : Option β}
    (h : Option.Rel R o o') : o.isNone = o'.isNone := by
  cases h <;> rfl

theorem rel_or {α β : Type} {R : α → β → Prop} {o p : Option α} {o' p' : Option β}
    (h : Option.Rel R o o') (h' : Option.Rel R p p') : Option.Rel R (o.or p) (o'.or p') := by
  cases h with
  | none => exact h'
  | some hab => exact .some hab

theorem rel_findSome? {α β γ : Type} {R : β → γ → Prop} {f : α → Option β} {g : α → Option γ}
    {xs : List α} (h : ∀ x ∈ xs, Option.Rel R (f x) (g x)) :
    Option.Rel R (xs.findSome? f) (xs.findSome? g) := by
  induction xs with
  | nil => exact .none
  | cons x xs ih =>
    rw [List.findSome?_cons, List.findSome?_cons]
    have hx := h x List.mem_cons_self
    generalize f x = o at hx
    generalize g x = o' at hx
    cases hx with
    | none => exact ih fun y hy => h y (List.mem_cons_of_mem x hy)
    | some hab => exact .some hab

/-- One declaration, where its source sits in two orders. -/
def Twins (sources sources' : List Source) (o o' : Object) : Prop :=
  ∃ s ρ ρ' x, (s, ρ) ∈ seats sources ∧ (s, ρ') ∈ seats sources' ∧
    x ∈ s.alone.file.declarations ∧ o = x.placed ρ ∧ o' = x.placed ρ'

theorem ImportSpec.package?_placed (ρ : Placement) (fs : List File) (spec : ImportSpec) :
    (spec.placed ρ).package? fs = spec.package? fs := rfl

theorem ImportSpec.isDotted_placed (ρ : Placement) (spec : ImportSpec) :
    (spec.placed ρ).isDotted = spec.isDotted := by
  unfold isDotted placed
  cases spec.localName <;> rfl

theorem ImportSpec.binds?_placed (ρ : Placement) (spec : ImportSpec) :
    (spec.placed ρ).binds? = spec.binds? := by
  obtain ⟨doc, localName, path, comment⟩ := spec
  cases localName with
  | none => rfl
  | some i => by_cases h : i.name = "." <;> by_cases hb : i.isBlank <;>
      simp [placed, binds?, local?, Option.filter, h, hb]

/-- What a qualifier stands for does not depend on where its file stands. -/
theorem File.imported?_placed (ρ : Placement) (fs : List File) (f : File) (name : String) :
    (f.placed ρ).imported? fs name = f.imported? fs name := by
  unfold imported?
  rw [f.imports_placed, ← List.map_reverse, List.findSome?_map]
  refine findSome?_congr fun spec _ => ?_
  show (if (spec.placed ρ).binds? = some name then _ else _) = _
  rw [spec.binds?_placed]
  rfl

namespace Interchangeable

variable {sources sources' : List Source} (h : Interchangeable sources)
  (hperm : sources.Perm sources')
include h hperm

/-- In both orders an import finds the same package. -/
theorem package?_eq (spec : ImportSpec) : spec.package? (parseSources sources').parsed =
    spec.package? (parseSources sources).parsed := by
  unfold ImportSpec.package?
  have hany (n : String) : (parseSources sources').parsed.any (·.name.name = n) =
      (parseSources sources).parsed.any (·.name.name = n) := by
    rw [(h.perm hperm).any_package, h.any_package, hperm.any_eq]
  simp only [hany]

theorem imported?_eq (f : File) (name : String) : f.imported? (parseSources sources').parsed name =
    f.imported? (parseSources sources).parsed name := by
  unfold File.imported?
  simp only [h.package?_eq hperm]

/-- In both orders a name of a package stands for the same declaration. -/
theorem declarationOf?_twins (n name : String) : Option.Rel (Twins sources sources')
    (declarationOf? (parseSources sources).parsed n name)
    (declarationOf? (parseSources sources').parsed n name) := by
  have h' := h.perm hperm
  refine rel_of_some (fun o ho => ?_) fun o ho => ?_
  · obtain ⟨s, ρ, x, hs, hn, hx, rfl⟩ := h.declarationOf?_eq_some.1 ho
    obtain ⟨ρ', hs'⟩ := h'.exists_seat (hperm.subset (mem_of_seat hs))
    exact ⟨x.placed ρ', h'.declarationOf?_eq_some.2 ⟨s, ρ', x, hs', hn, hx, rfl⟩,
      s, ρ, ρ', x, hs, hs', List.mem_of_find?_eq_some hx, rfl, rfl⟩
  · obtain ⟨s, ρ', x, hs', hn, hx, rfl⟩ := h'.declarationOf?_eq_some.1 ho
    obtain ⟨ρ, hs⟩ := h.exists_seat (hperm.symm.subset (mem_of_seat hs'))
    exact ⟨x.placed ρ, h.declarationOf?_eq_some.2 ⟨s, ρ, x, hs, hn, hx, rfl⟩⟩

/-- In both orders a name of a source stands for the same declaration. -/
theorem meaning?_twins {s : Source} {ρ ρ' : Placement} (hs : (s, ρ) ∈ seats sources)
    (hs' : (s, ρ') ∈ seats sources') (name : String) : Option.Rel (Twins sources sources')
      ((s.alone.file.placed ρ).meaning? (parseSources sources).parsed name)
      ((s.alone.file.placed ρ').meaning? (parseSources sources').parsed name) := by
  unfold File.meaning?
  refine rel_or ?_ (rel_or (h.declarationOf?_twins hperm _ _) ?_)
  · rw [File.declaration?_placed, File.declaration?_placed]
    cases hx : s.alone.file.declaration? name with
    | none => exact .none
    | some x => exact .some ⟨s, ρ, ρ', x, hs, hs', List.mem_of_find?_eq_some hx, rfl, rfl⟩
  · rw [File.imports_placed, File.imports_placed, List.findSome?_map, List.findSome?_map]
    refine rel_findSome? fun spec _ => ?_
    simp only [Function.comp_apply, ImportSpec.isDotted_placed, ImportSpec.package?_placed,
      h.package?_eq hperm]
    split
    · cases spec.package? (parseSources sources).parsed with
      | none => exact .none
      | some id => exact h.declarationOf?_twins hperm id name
    · exact .none

end Interchangeable

end Idl
