/-
Idl/Proofs/Placement/Layout.lean

Where the sources of a run stand, and what stays there.

Sources are laid out one behind the other: in positions, in numbers of files, and in numbers of
scopes and objects (`layout_pairwise`).  What a source brought with it is still there when all
sources are read (`Board.seats_after`), so a position, a scope or an object of one source means
in the end what it meant when the source was read.
-/
import Idl.Proofs.Placement.Source

namespace Idl

/-! ### Tables that grow -/

/-- The second table holds everything that the first one holds, at the same numbers. -/
structure SymbolTable.Within (t t' : SymbolTable) : Prop where
  scopes : ∀ {i : ScopeId} {s : Scope}, t.scopes[i]? = some s → t'.scopes[i]? = some s
  objects : ∀ {i : ObjectId} {o : Object}, t.objects[i]? = some o → t'.objects[i]? = some o

namespace SymbolTable

variable {t t' t'' : SymbolTable}

theorem Within.refl (t : SymbolTable) : t.Within t := ⟨id, id⟩

theorem Within.trans (h : t.Within t') (h' : t'.Within t'') : t.Within t'' :=
  ⟨h'.scopes ∘ h.scopes, h'.objects ∘ h.objects⟩

theorem Within.lookup? (h : t.Within t') {i : ScopeId} (hi : i < t.scopes.size) (name : String) :
    t'.lookup? i name = t.lookup? i name := by
  have hs : t.scopes[i]? = some t.scopes[i] := Array.getElem?_eq_getElem hi
  unfold SymbolTable.lookup?
  rw [hs, h.scopes hs]

theorem Within.scopes_size (h : t.Within t') : t.scopes.size ≤ t'.scopes.size := by
  by_contra hlt
  have hs := h.scopes (Array.getElem?_eq_getElem (Nat.not_le.1 hlt))
  rw [Array.getElem?_eq_none (Nat.le_refl _)] at hs
  cases hs

theorem Within.posOf (h : t.Within t') {i : ObjectId} (hi : i < t.objects.size) :
    t'.posOf i = t.posOf i := by
  have ho : t.objects[i]? = some t.objects[i] := Array.getElem?_eq_getElem hi
  unfold SymbolTable.posOf
  rw [ho, h.objects ho]

/-- A placed table holds what was there before. -/
theorem within_placed (ρ : Placement) (t : SymbolTable) : ρ.before.Within (t.placed ρ) where
  scopes h := by
    have hi : _ < ρ.before.scopes.size := (Array.getElem?_eq_some_iff.1 h).1
    exact (Array.getElem?_append_left hi).trans h
  objects h := by
    have hi : _ < ρ.before.objects.size := (Array.getElem?_eq_some_iff.1 h).1
    exact (Array.getElem?_append_left hi).trans h

end SymbolTable

/-! ### Files side by side -/

/-- A placed file owns what the file owned. -/
theorem SourceFile.Owns.placed {f : SourceFile} {p : Pos} (h : f.Owns p) (ρ : Placement) :
    (f.placed ρ).Owns (ρ.pos p) :=
  ⟨fun h0 => h.1 (ρ.pos_eq_zero.1 h0), (SourceFile.contains_placed ρ f h.1).trans h.2⟩

/-- The ranges of files come one behind the other. -/
structure FileSet.Ordered (fs : FileSet) : Prop where
  apart : ∀ {i j : FileId} {f g : SourceFile}, fs.files[i]? = some f → fs.files[j]? = some g →
    i < j → f.base + f.size < g.base
  below : ∀ {i : FileId} {f : SourceFile}, fs.files[i]? = some f → f.base + f.size < fs.next

namespace FileSet

variable {fs : FileSet} {id : FileId} {f : SourceFile}

/-- A position belongs to the file that owns it. -/
theorem Ordered.fileIdAt? (h : fs.Ordered) (hf : fs.files[id]? = some f) {p : Pos}
    (hp : f.Owns p) : fs.fileIdAt? p = some id := by
  obtain ⟨-, hin⟩ := SourceFile.owns_iff.1 hp
  obtain ⟨hvalid, hcontains⟩ := hp
  have hsize : id < fs.files.size := (Array.getElem?_eq_some_iff.1 hf).1
  have hsplits : SplitsAt (fun f : SourceFile => decide (f.base ≤ p)) fs.files (id + 1) := by
    refine ⟨hsize, fun i hi => ?_⟩
    have hg : fs.files[i]? = some fs.files[i] := Array.getElem?_eq_getElem hi
    rw [decide_eq_true_iff]
    constructor
    · intro hle
      rcases Nat.lt_or_ge i (id + 1) with hlt | hge
      · exact hlt
      · have := h.apart hf hg hge
        unfold Pos at *
        omega
    · intro hlt
      rcases Nat.lt_succ_iff_lt_or_eq.1 hlt with hlt | rfl
      · have := h.apart hg hf hlt
        unfold Pos at *
        omega
      · have hfg : f = fs.files[i] := Option.some.inj (hf.symm.trans hg)
        exact hfg ▸ hin.1
  unfold FileSet.fileIdAt?
  rw [bisect_eq hsplits]
  have hv : Pos.isValid p = true := bne_iff_ne.2 hvalid
  simp only [Nat.add_sub_cancel, hf, hv, hcontains, Bool.and_self, if_true]

theorem Ordered.fileAt? (h : fs.Ordered) (hf : fs.files[id]? = some f) {p : Pos} (hp : f.Owns p) :
    fs.fileAt? p = some f := by
  unfold FileSet.fileAt?
  rw [h.fileIdAt? hf hp]
  exact hf

theorem Ordered.position (h : fs.Ordered) (hf : fs.files[id]? = some f) {p : Pos}
    (hp : f.Owns p) : fs.position p = f.position p := by
  unfold FileSet.position
  rw [h.fileAt? hf hp]

theorem empty_ordered : FileSet.Ordered {} :=
  ⟨fun h => by simp at h, fun h => by simp at h⟩

/-- A file may be registered behind all others. -/
theorem Ordered.push (h : fs.Ordered) (hbase : fs.next ≤ f.base) :
    FileSet.Ordered { next := f.base + f.size + 1, files := fs.files.push f } := by
  have hcases {i : FileId} {g : SourceFile} (hi : (fs.files.push f)[i]? = some g) :
      fs.files[i]? = some g ∧ i < fs.files.size ∨ i = fs.files.size ∧ g = f := by
    rw [Array.getElem?_push] at hi
    split at hi
    · exact .inr ⟨by assumption, (Option.some.inj hi).symm⟩
    · exact .inl ⟨hi, (Array.getElem?_eq_some_iff.1 hi).1⟩
  constructor
  · intro i j g g' hi hj hij
    rcases hcases hi with ⟨hold, -⟩ | ⟨rfl, rfl⟩
    · rcases hcases hj with ⟨hold', -⟩ | ⟨rfl, rfl⟩
      · exact h.apart hold hold' hij
      · exact Nat.lt_of_lt_of_le (h.below hold) hbase
    · rcases hcases hj with ⟨-, hlt⟩ | ⟨rfl, -⟩
      · exact absurd (Nat.lt_trans hij hlt) (Nat.lt_irrefl _)
      · exact absurd hij (Nat.lt_irrefl _)
  · intro i g hi
    rcases hcases hi with ⟨hold, -⟩ | ⟨-, rfl⟩
    · have hbelow := h.below hold
      show g.base + g.size < f.base + f.size + 1
      unfold Pos at *
      omega
    · exact Nat.lt_succ_self _

end FileSet

/-! ### Boards -/

/-- The source stands on the board where the placement says. -/
structure Board.Seats (b : Board) (s : Source) (ρ : Placement) : Prop where
  file : b.files.files[ρ.fileId]? = some (s.alone.source.placed ρ)
  symbols : (s.alone.symbols.placed ρ).Within b.symbols

/-- The first source stands before the second one. -/
structure Placement.Precedes (s : Source) (ρ ρ' : Placement) : Prop where
  pos : ρ.shift + s.text.utf8ByteSize < ρ'.shift
  fileId : ρ.fileId < ρ'.fileId

namespace Board

variable {b : Board} {s s' : Source} {ρ : Placement}

theorem empty_ordered : Board.empty.files.Ordered := FileSet.empty_ordered

theorem shift_placement (hnext : b.files.next ≠ 0) : 1 + b.placement.shift = b.files.next := by
  show 1 + (b.files.next - 1) = b.files.next
  unfold Pos at *
  omega

theorem put_ordered (h : b.files.Ordered) (hnext : b.files.next ≠ 0) :
    (b.put s).files.Ordered := by
  obtain ⟨-, hbase, hsize⟩ := s.alone_source
  have hnew : (s.alone.source.placed b.placement).base = b.files.next := by
    show s.alone.source.base + b.placement.shift = b.files.next
    rw [hbase, shift_placement hnext]
  have hput : (b.put s).files =
      { next := (s.alone.source.placed b.placement).base +
          (s.alone.source.placed b.placement).size + 1
        files := b.files.files.push (s.alone.source.placed b.placement) } := by
    rw [hnew, show (s.alone.source.placed b.placement).size = s.text.utf8ByteSize from hsize]
    rfl
  rw [hput]
  exact h.push (Nat.le_of_eq hnew.symm)

/-- A source that is put on the board stands there. -/
theorem seats_put (b : Board) (s : Source) : (b.put s).Seats s b.placement :=
  ⟨Array.getElem?_push_size, .refl _⟩

/-- A source stays where it is when another one is put on the board. -/
theorem Seats.put (h : b.Seats s ρ) : (b.put s').Seats s ρ where
  file := by
    have hlt : ρ.fileId < b.files.files.size := (Array.getElem?_eq_some_iff.1 h.file).1
    show (b.files.files.push _)[ρ.fileId]? = _
    rw [Array.getElem?_push, if_neg (Nat.ne_of_lt hlt)]
    exact h.file
  symbols := h.symbols.trans (SymbolTable.within_placed b.placement _)

theorem Seats.after (h : b.Seats s ρ) (ss : List Source) : (b.after ss).Seats s ρ := by
  induction ss generalizing b with
  | nil => exact h
  | cons s' ss ih =>
    cases hfit : b.fits s' with
    | true => rw [b.after_cons_of_fits s' ss hfit]; exact ih h.put
    | false => rw [b.after_cons_of_not_fits s' ss hfit]; exact ih h

theorem after_ordered (h : b.files.Ordered) (hnext : b.files.next ≠ 0) (ss : List Source) :
    (b.after ss).files.Ordered := by
  induction ss generalizing b with
  | nil => exact h
  | cons s ss ih =>
    cases hfit : b.fits s with
    | true =>
      rw [b.after_cons_of_fits s ss hfit]
      exact ih (put_ordered h hnext) (b.put_next_ne s)
    | false => rw [b.after_cons_of_not_fits s ss hfit]; exact ih h hnext

/-- What is laid out stands behind what was there. -/
theorem le_of_mem_layout (hnext : b.files.next ≠ 0) {ss : List Source}
    (h : (s, ρ) ∈ seated (b.layout ss)) :
    b.files.next ≤ 1 + ρ.shift ∧ b.files.files.size ≤ ρ.fileId := by
  induction ss generalizing b with
  | nil => simp [layout, seated] at h
  | cons s' ss ih =>
    cases hfit : b.fits s' with
    | true =>
      rw [b.layout_cons_of_fits s' ss hfit] at h
      rcases List.mem_cons.1 h with h | h
      · obtain ⟨rfl, rfl⟩ := Prod.mk.inj h
        exact ⟨Nat.le_of_eq (shift_placement hnext).symm, Nat.le_refl _⟩
      · obtain ⟨hpos, hid⟩ := ih (b.put_next_ne s') h
        have hid : (b.files.files.push _).size ≤ ρ.fileId := hid
        have hpos : b.files.next + s'.text.utf8ByteSize + 1 ≤ 1 + ρ.shift := hpos
        rw [Array.size_push] at hid
        unfold Pos at *
        exact ⟨by omega, by omega⟩
    | false =>
      rw [b.layout_cons_of_not_fits s' ss hfit] at h
      exact ih hnext h

/-- Sources stand one behind the other. -/
theorem layout_pairwise (hnext : b.files.next ≠ 0) (ss : List Source) :
    (seated (b.layout ss)).Pairwise fun x y => Placement.Precedes x.1 x.2 y.2 := by
  induction ss generalizing b with
  | nil => exact .nil
  | cons s ss ih =>
    cases hfit : b.fits s with
    | true =>
      rw [b.layout_cons_of_fits s ss hfit]
      refine List.pairwise_cons.2 ⟨fun y hy => ?_, ih (b.put_next_ne s)⟩
      obtain ⟨hpos, hid⟩ := le_of_mem_layout (b.put_next_ne s) hy
      have hpos : b.files.next + s.text.utf8ByteSize + 1 ≤ 1 + y.2.shift := hpos
      have hid : (b.files.files.push _).size ≤ y.2.fileId := hid
      have hshift := shift_placement hnext
      rw [Array.size_push] at hid
      unfold Pos at *
      exact ⟨by dsimp only; omega, hid⟩
    | false =>
      rw [b.layout_cons_of_not_fits s ss hfit]
      exact ih hnext

/-- What is laid out is there in the end. -/
theorem seats_after (ss : List Source) (h : (s, ρ) ∈ seated (b.layout ss)) :
    (b.after ss).Seats s ρ := by
  induction ss generalizing b with
  | nil => simp [layout, seated] at h
  | cons s' ss ih =>
    cases hfit : b.fits s' with
    | true =>
      rw [b.layout_cons_of_fits s' ss hfit] at h
      rw [b.after_cons_of_fits s' ss hfit]
      rcases List.mem_cons.1 h with h | h
      · obtain ⟨rfl, rfl⟩ := Prod.mk.inj h
        exact (b.seats_put s).after ss
      · exact ih h
    | false =>
      rw [b.layout_cons_of_not_fits s' ss hfit] at h
      rw [b.after_cons_of_not_fits s' ss hfit]
      exact ih h

end Board

end Idl
