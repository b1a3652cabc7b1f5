/-
Idl/Proofs/Order.lean

Declarations in the order of their places.

The files of a run stand one behind the other, and so do the declarations in each of them.  So of
the declarations of a name, the first one in the order of files and lines is the one at the smallest
position (`argmin_eq_find?`), in whatever order they are looked at.
-/
import Idl.Proofs.Parsed
import Mathlib.Data.List.MinMax

namespace Idl

/-! ### Places of a source -/

/-- A position of a source lies between its ends. -/
theorem Source.owns_bounds {s : Source} {p : Pos} (h : s.alone.source.Owns p) :
    p ≠ 0 ∧ p ≤ 1 + s.text.utf8ByteSize := by
  obtain ⟨hne, hin⟩ := SourceFile.owns_iff.1 h
  obtain ⟨-, hbase, hsize⟩ := s.alone_source
  rw [hbase, hsize] at hin
  exact ⟨hne, hin.2⟩

/-- Positions of one source come before those of another one behind it. -/
theorem Placement.Precedes.pos_lt {s s' : Source} {ρ ρ' : Placement} (h : Placement.Precedes s ρ ρ')
    {p q : Pos} (hp : s.alone.source.Owns p) (hq : s'.alone.source.Owns q) : ρ.pos p < ρ'.pos q := by
  obtain ⟨hpne, hple⟩ := Source.owns_bounds hp
  obtain ⟨hqne, -⟩ := Source.owns_bounds hq
  have hlt := h.pos
  rw [ρ.pos_of_ne hpne, ρ'.pos_of_ne hqne]
  unfold Pos at *
  omega

namespace Source

variable (s : Source)

theorem ident_owned {i : Ident} (hi : i ∈ s.account.idents) : s.alone.source.Owns i.pos :=
  s.reading.covers i.pos ⟨.inl ⟨i, hi, rfl⟩⟩

theorem declaration_owned {o : Object} (ho : o ∈ s.alone.file.declarations) :
    s.alone.source.Owns o.pos := by
  have hspot : o.spot ∈ s.alone.file.declared.map Ident.spot := by
    rw [← s.alone.file.spot_declarations]
    exact List.mem_map_of_mem ho
  obtain ⟨i, hi, heq⟩ := List.mem_map.1 hspot
  have hpos : i.pos = o.pos := (Prod.mk.inj heq).2
  exact hpos ▸ s.ident_owned (s.declared_sublist.subset hi)

end Source

/-! ### Names that are declared twice -/

/-- Two names come in order: the second one stands behind the first one, or both are missing. -/
def Spot.Behind (x y : Spot) : Prop := x.2 ≤ y.2 ∧ (x.2 = y.2 → x.key = none ∧ y.key = none)

theorem Spot.Behind.lt {x y : Spot} (h : x.Behind y) (hne : x.key ≠ none) : x.2 < y.2 :=
  Nat.lt_of_le_of_ne h.1 fun heq => hne (h.2 heq).1

/-- Two declarations come in order. -/
def Object.Behind (o o' : Object) : Prop := Spot.Behind o.spot o'.spot

/-- Identifiers of a source come in order. -/
theorem Source.behind (s : Source) {is : List Ident} (h : is.Sublist s.account.idents) :
    (is.map Ident.spot).Pairwise Spot.Behind := by
  refine List.pairwise_map.2 ((s.reading.ordered.sublist h).imp fun {i j} hij => ?_)
  exact ⟨hij.1, fun heq => ⟨if_pos (hij.2 heq).1.1, if_pos (hij.2 heq).2.1⟩⟩

theorem Source.declarations_behind (s : Source) :
    s.alone.file.declarations.Pairwise Object.Behind := by
  have h := s.behind s.declared_sublist
  rw [← s.alone.file.spot_declarations, List.pairwise_map] at h
  exact h

/-- Placing moves names, but keeps them in order. -/
theorem Spot.Behind.placed {x y : Spot} (h : x.Behind y) (ρ : Placement) :
    Spot.Behind (x.1, ρ.pos x.2) (y.1, ρ.pos y.2) :=
  ⟨ρ.pos_le_pos.2 h.1, fun heq => h.2 (ρ.pos_inj.1 heq)⟩

/-- All declarations of a run come in order. -/
theorem declarations_behind (sources : List Source) :
    ((parseSources sources).parsed.flatMap File.declarations).Pairwise Object.Behind := by
  have hpos (ρ : Placement) (o : Object) : (o.placed ρ).pos = ρ.pos o.pos := rfl
  rw [parseSources_eq]
  show (((seated _).map fun x => x.1.alone.file.placed x.2).flatMap _).Pairwise _
  rw [List.pairwise_flatMap]
  refine ⟨fun f hf => ?_, List.pairwise_map.2 ?_⟩
  · obtain ⟨⟨s, ρ⟩, -, rfl⟩ := List.mem_map.1 hf
    rw [File.declarations_placed]
    refine List.pairwise_map.2 (s.declarations_behind.imp fun {o o'} h => ?_)
    exact h.placed ρ
  · refine (Board.layout_pairwise Nat.one_ne_zero sources).imp ?_
    rintro ⟨s, ρ⟩ ⟨s', ρ'⟩ h o ho o' ho'
    rw [File.declarations_placed] at ho ho'
    obtain ⟨x, hx, rfl⟩ := List.mem_map.1 ho
    obtain ⟨y, hy, rfl⟩ := List.mem_map.1 ho'
    have hlt := h.pos_lt (s.declaration_owned hx) (s'.declaration_owned hy)
    exact ⟨Nat.le_of_lt hlt, fun heq => absurd heq (Nat.ne_of_lt hlt)⟩

/-- The first declaration of a name is the one at the smallest position. -/
theorem argmin_eq_find? {os os' : List Object} (h : os.Pairwise Object.Behind) (hperm : os'.Perm os)
    (name : String) : (os'.filter (·.key = some name)).argmin (·.pos) =
      os.find? (·.key = some name) := by
  have hmem {o : Object} : o ∈ os'.filter (·.key = some name) ↔ o ∈ os ∧ o.key = some name := by
    rw [List.mem_filter, hperm.mem_iff, decide_eq_true_eq]
  cases hfind : os.find? fun o => decide (o.key = some name) with
  | none =>
    rw [List.argmin_eq_none, List.eq_nil_iff_forall_not_mem]
    intro o ho
    obtain ⟨ho, hkey⟩ := hmem.1 ho
    exact List.find?_eq_none.1 hfind o ho (decide_eq_true hkey)
  | some o =>
    obtain ⟨hkey, as, bs, rfl, has⟩ := List.find?_eq_some_iff_append.1 hfind
    have hkey := of_decide_eq_true hkey
    have hleast {x : Object} (hx : x ∈ os'.filter (·.key = some name)) : x = o ∨ o.pos < x.pos := by
      obtain ⟨hx, hxkey⟩ := hmem.1 hx
      rcases List.mem_append.1 hx with hx | hx
      · have hno := has x hx
        rw [decide_eq_true hxkey] at hno
        cases hno
      · rcases List.mem_cons.1 hx with rfl | hx
        · exact .inl rfl
        · have hbehind := (List.pairwise_cons.1 (List.pairwise_append.1 h).2.1).1 x hx
          exact .inr (hbehind.lt (show o.key ≠ none by simp [hkey]))
    refine List.mem_argmin_iff.2 ⟨?_, fun x hx => ?_, fun x hx hle => ?_⟩
    · exact hmem.2 ⟨List.mem_append_right _ List.mem_cons_self, hkey⟩
    · exact (hleast hx).elim (fun heq => heq ▸ Nat.le_refl _) Nat.le_of_lt
    · rcases hleast hx with rfl | hlt
      · exact Nat.le_refl _
      · exact absurd hlt (Nat.not_lt.2 hle)

end Idl
