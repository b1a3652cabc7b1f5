/-
Idl/Proofs/Ir/SizeWarnings.lean

One warning for each size that is unknown.

The warnings about the sizes of arrays are told from all other reports by their message.  A size that is
lowered to no number is warned about where it stands, and no other size stands there: not in its file,
where sizes stand behind one another, and not in another one, since files do not overlap.

Main result: a size that is a name is lowered to the number at the end of its chain of constants, and
where there is no such chain, exactly one warning starts at the name (`named_sizes`).
-/
import Idl.Proofs.Ir.ConstChains
import Idl.Proofs.Ir.Sizes
import Idl.Proofs.ReportPlaces

namespace Idl

/-! ### Warnings about sizes -/

/-- Whether a report is a warning about the size of an array. -/
def Diagnostic.isSizeWarning (d : Diagnostic) : Bool :=
  !d.isError && "array size \x60".toList.isPrefixOf d.message.toList

/-- How many warnings about sizes start at a place. -/
def Compilation.sizeWarningsAt (c : Compilation) (p : Pos) : Nat :=
  (c.diagnostics.filter Diagnostic.isSizeWarning).countP (·.span.start = p)

section Lowering

variable (env : LowerEnv) (f : File)

theorem sizeWarning_isSizeWarning (text : String) (span : Span) :
    (Diagnostic.warning ("array size \x60" ++ text ++ "\x60 is not an integer constant")
      span).isSizeWarning = true := by
  unfold Diagnostic.isSizeWarning
  rw [Bool.and_eq_true]
  refine ⟨rfl, ?_⟩
  -- the text of the size is not known, so the prefix is compared by lists and not by running
  show List.isPrefixOf _ ("array size \x60" ++ text ++ _).toList = true
  rw [String.toList_append, String.toList_append, List.append_assoc, List.isPrefixOf_iff_prefix]
  exact List.prefix_append ..

theorem filter_sizeWarnings (v : Value) :
    (sizeWarnings env f v).filter Diagnostic.isSizeWarning = sizeWarnings env f v := by
  refine List.filter_eq_self.2 fun d hd => ?_
  unfold sizeWarnings at hd
  cases v with
  | bad p => cases hd
  | _ =>
    dsimp only at hd
    split at hd
    · cases hd
    · rw [List.mem_singleton.1 hd]
      exact sizeWarning_isSizeWarning ..

/-- A size that is no number is warned about where it stands. -/
theorem map_start_sizeWarnings (v : Value) : (sizeWarnings env f v).map (·.span.start) =
    if (lowerSize env f v).length?.isSome then [] else v.place?.toList := by
  unfold sizeWarnings
  cases v with
  | bad p => rfl
  | _ =>
    dsimp only
    split
    · rfl
    · rfl

theorem mem_place_of_sizeWarnings {vs : List Value} {p : Pos}
    (hp : p ∈ (vs.flatMap (sizeWarnings env f)).map (·.span.start)) :
    p ∈ vs.filterMap Value.place? := by
  rw [List.map_flatMap] at hp
  obtain ⟨v, hv, hp⟩ := List.mem_flatMap.1 hp
  rw [map_start_sizeWarnings] at hp
  split at hp
  · cases hp
  · exact List.mem_filterMap.2 ⟨v, hv, Option.mem_toList.1 hp⟩

/-- What is malformed is warned about in other words. -/
theorem malformed_isSizeWarning (text : String) (span : Span) :
    (Diagnostic.warning ("malformed " ++ text) span).isSizeWarning = false := by
  unfold Diagnostic.isSizeWarning
  show (true && List.isPrefixOf _ ("malformed " ++ text).toList) = false
  rw [String.toList_append]
  rfl

theorem eq_of_mem_tagWarnings {l : Option Lit} {d : Diagnostic} (h : d ∈ tagWarnings l) :
    ∃ span, d = .warning "malformed tag literal ignored" span := by
  cases l with
  | none => cases h
  | some l =>
    unfold tagWarnings at h
    dsimp only at h
    split at h
    · cases h
    · exact ⟨l.span, List.mem_singleton.1 h⟩

theorem filter_tagWarnings (l : Option Lit) :
    (tagWarnings l).filter Diagnostic.isSizeWarning = [] := by
  refine List.filter_eq_nil_iff.2 fun d hd => ?_
  obtain ⟨span, rfl⟩ := eq_of_mem_tagWarnings hd
  exact Bool.eq_false_iff.1 (malformed_isSizeWarning "tag literal ignored" span)

theorem filter_badNodeWarnings (ns : List Node) :
    (ns.filterMap badNodeWarning?).filter Diagnostic.isSizeWarning = [] := by
  refine List.filter_eq_nil_iff.2 fun d hd => ?_
  obtain ⟨n, -, hn⟩ := List.mem_filterMap.1 hd
  cases n with
  | bad what span =>
    rw [← Option.some.inj hn, String.append_assoc]
    exact Bool.eq_false_iff.1 (malformed_isSizeWarning ..)
  | _ => cases hn

/-- The warnings about beans are about sizes or about tags. -/
theorem File.filter_beanWarnings {p : Diagnostic → Bool}
    (hsizes : ∀ v, (sizeWarnings env f v).filter p = sizeWarnings env f v)
    (htags : ∀ l, (tagWarnings l).filter p = []) :
    ((f.decls.filterMap Decl.bean?).flatMap (Bean.warnings env f)).filter p =
      f.sizes.flatMap (sizeWarnings env f) := by
  have htype (t : TypeExpr) : (t.warnings env f).filter p = t.sizes.flatMap (sizeWarnings env f) := by
    rw [t.warnings_eq, List.filter_flatMap]
    exact List.flatMap_congr fun v _ => hsizes v
  have hmember (b : Bean) (m : Member) : (b.memberWarnings env f m).filter p =
      (m.types.flatMap TypeExpr.sizes).flatMap (sizeWarnings env f) := by
    -- the warning about a tag is not counted, and the rest is about the type
    have htag : (if b.isExtension m then [] else tagWarnings m.tag).filter p = [] := by
      split
      · rfl
      · exact htags m.tag
    unfold Bean.memberWarnings Member.types
    rw [List.filter_append, htag, List.append_nil]
    cases m.type with
    | none => rfl
    | some t =>
      show (t.warnings env f).filter _ = (([t].flatMap _).flatMap _).flatMap _
      rw [t.warnings_eq, List.filter_flatMap, List.flatMap_singleton, List.flatMap_assoc]
      exact List.flatMap_congr fun t _ => htype t
  have hbean (b : Bean) : (b.warnings env f).filter p =
      (b.types.flatMap TypeExpr.sizes).flatMap (sizeWarnings env f) := by
    unfold Bean.warnings Bean.types
    rw [List.filter_append, htags, List.append_nil, List.filter_flatMap, List.flatMap_assoc,
      List.flatMap_assoc]
    refine List.flatMap_congr fun m _ => ?_
    rw [hmember, List.flatMap_assoc]
  unfold sizes
  rw [List.filter_flatMap, List.flatMap_assoc]
  exact List.flatMap_congr fun b _ => hbean b

/-- The warnings about sizes in a file are those about each of them. -/
theorem File.filter_warnings : (f.warnings env).filter Diagnostic.isSizeWarning =
    f.sizes.flatMap (sizeWarnings env f) := by
  unfold warnings
  rw [List.filter_append, filter_badNodeWarnings, List.nil_append]
  exact f.filter_beanWarnings env (filter_sizeWarnings env f) filter_tagWarnings

end Lowering

/-- Where sizes stand apart, a place is warned about once if the size that stands there is unknown, and
not at all if it is known. -/
theorem count_sizeWarnings (env : LowerEnv) (f : File) {vs : List Value}
    (h : (vs.filterMap Value.place?).Nodup) {v : Value} (hv : v ∈ vs) {p : Pos}
    (hp : v.place? = some p) : ((vs.flatMap (sizeWarnings env f)).map (·.span.start)).count p =
      if (lowerSize env f v).length?.isSome then 0 else 1 := by
  induction vs with
  | nil => cases hv
  | cons w ws ih =>
    have hnodup : (w.place?.toList ++ ws.filterMap Value.place?).Nodup := by
      cases hw : w.place? with
      | none => rwa [List.filterMap_cons_none hw] at h
      | some q => rwa [List.filterMap_cons_some hw] at h
    obtain ⟨-, hws, hapart⟩ := List.nodup_append.1 hnodup
    rw [List.flatMap_cons, List.map_append, List.count_append, map_start_sizeWarnings]
    rcases List.mem_cons.1 hv with rfl | hv
    · -- no other size stands here
      have hnone : p ∉ (ws.flatMap (sizeWarnings env f)).map (·.span.start) := by
        intro hq
        exact hapart p (Option.mem_toList.2 hp) p (mem_place_of_sizeWarnings env f hq) rfl
      rw [List.count_eq_zero.2 hnone, hp]
      split
      · rfl
      · exact List.count_singleton_self
    · have hnone : p ∉ if (lowerSize env f w).length?.isSome then [] else w.place?.toList := by
        intro hq
        split at hq
        · cases hq
        · exact hapart p hq p (List.mem_filterMap.2 ⟨v, hv, hp⟩) rfl
      rw [List.count_eq_zero.2 hnone, Nat.zero_add]
      exact ih hws hv

/-! ### Sizes of a compilation -/

section Placed

variable (ρ : Placement)

theorem TypeExpr.sizes_placed (t : TypeExpr) :
    (t.placed ρ).sizes = t.sizes.map (Value.placed ρ) := by
  induction t with
  | array p elem size closing ih => simp [placed, sizes, ih]
  | vector p elem closing ih => exact ih
  | map p key value closing ihk ihv => simp [placed, sizes, ihk, ihv]
  | _ => rfl

theorem Value.place?_placed (v : Value) : (v.placed ρ).place? = v.place?.map ρ.pos := by
  cases v <;> rfl

theorem File.sizePlaces_placed (f : File) : (f.placed ρ).sizes.filterMap Value.place? =
    (f.sizes.filterMap Value.place?).map ρ.pos := by
  have hsizes : (f.placed ρ).sizes = f.sizes.map (Value.placed ρ) := by
    have hbeans : (f.placed ρ).decls.filterMap Decl.bean? =
        (f.decls.filterMap Decl.bean?).map (Bean.placed ρ) := Decl.filterMap_bean?_placed ρ f.decls
    unfold sizes
    rw [hbeans, List.flatMap_map, List.map_flatMap]
    refine List.flatMap_congr fun b _ => ?_
    rw [b.types_placed, List.flatMap_map, List.map_flatMap]
    exact List.flatMap_congr fun t _ => t.sizes_placed ρ
  rw [hsizes, List.filterMap_map, List.map_filterMap]
  exact List.filterMap_congr fun v _ => v.place?_placed ρ

end Placed

section Compiled

variable {sources : List Source}

/-- The sizes of a linked file are those of the source at its number, and stand in this source, one behind
the other. -/
theorem exists_seat_of_sizes {f : File} (hf : f ∈ (compile sources).env.files) :
    ∃ x ∈ seats sources, f.id = x.2.fileId ∧ (f.sizes.filterMap Value.place?).Nodup ∧
      ∀ p ∈ f.sizes.filterMap Value.place?, ∃ q, x.1.alone.source.Owns q ∧ p = x.2.pos q := by
  obtain ⟨p, hp, hf⟩ := List.mem_flatMap.1 hf
  obtain ⟨f₀, hf₀, -, _, _, rfl⟩ := exists_parsed hp hf
  obtain ⟨s, ρ, hs, rfl⟩ := mem_parsed hf₀
  obtain ⟨hbehind, howned⟩ := s.sizePlaces
  have hplaces := s.alone.file.sizePlaces_placed ρ
  refine ⟨(s, ρ), hs, rfl, ?_, fun p hp => ?_⟩
  · show ((s.alone.file.placed ρ).sizes.filterMap Value.place?).Nodup
    rw [hplaces]
    refine List.pairwise_map.2 (hbehind.imp fun hlt => ?_)
    exact Nat.ne_of_lt (ρ.pos_lt_pos.2 hlt)
  · change p ∈ (s.alone.file.placed ρ).sizes.filterMap Value.place? at hp
    rw [hplaces] at hp
    obtain ⟨q, hq, rfl⟩ := List.mem_map.1 hp
    exact ⟨q, howned q hq, rfl⟩

/-- Only lowering warns about sizes. -/
theorem sizeWarningsAt_eq (p : Pos) : (compile sources).sizeWarningsAt p =
    ((compile sources).env.files.flatMap fun f =>
      (f.sizes.flatMap (sizeWarnings (compile sources).env f)).map (·.span.start)).count p := by
  -- parsing and linking report errors, and warnings are none
  have herrors : ∀ d ∈ (parseSources sources).diagnostics ++ (linkSources sources).diagnostics,
      d.isSizeWarning = false := by
    intro d hd
    have herror : d.isError = true := by
      rcases List.mem_append.1 hd with hd | hd
      · exact isError_of_parsed hd
      · exact isError_of_linked hd
    unfold Diagnostic.isSizeWarning
    rw [herror]
    rfl
  have hnone : ((parseSources sources).diagnostics ++ (linkSources sources).diagnostics).filter
      Diagnostic.isSizeWarning = [] := List.filter_eq_nil_iff.2 fun d hd =>
    Bool.eq_false_iff.1 (herrors d hd)
  -- counting does not look at the order in which the warnings are sorted
  have hperm : (compile sources).diagnostics.Perm ((parseSources sources).diagnostics ++
      (linkSources sources).diagnostics ++
      (compile sources).env.files.flatMap (File.warnings (compile sources).env)) := by
    refine (sortDiagnostics_perm ..).trans (.append_left _ (.of_eq ?_))
    exact List.flatMap_assoc.symm
  have hcount := (hperm.filter Diagnostic.isSizeWarning).countP_eq fun d => decide (d.span.start = p)
  unfold Compilation.sizeWarningsAt
  rw [hcount, List.filter_append, hnone, List.nil_append, List.filter_flatMap, ← List.map_flatMap,
    List.count_eq_countP, List.countP_map]
  simp only [File.filter_warnings]
  rfl

/-- A size of a compilation is warned about once if it is unknown, and not at all if it is known. -/
theorem sizeWarningsAt_place {f : File} (hf : f ∈ (compile sources).env.files) {v : Value}
    (hv : v ∈ f.sizes) {p : Pos} (hp : v.place? = some p) : (compile sources).sizeWarningsAt p =
      if (lowerSize (compile sources).env f v).length?.isSome then 0 else 1 := by
  obtain ⟨x, hx, hid, hnodup, hplaces⟩ := exists_seat_of_sizes hf
  obtain ⟨q, hq, rfl⟩ := hplaces p (List.mem_filterMap.2 ⟨v, hv, hp⟩)
  -- another file sits elsewhere, so it warns about nothing here
  have hfile : ∀ g ∈ (compile sources).env.files, x.2.pos q ∈ ((g.sizes.flatMap
      (sizeWarnings (compile sources).env g)).map (·.span.start)) → g.id = f.id := by
    intro g hg hmem
    obtain ⟨y, hy, hgid, -, hgplaces⟩ := exists_seat_of_sizes hg
    obtain ⟨r, hr, heq⟩ := hgplaces _ (mem_place_of_sizeWarnings _ g hmem)
    rw [hid, hgid, seat_of_place hx hy hq hr heq]
  have hids : ((compile sources).env.files.map (·.id)).Nodup := loweringEnv_files_nodup
  rw [sizeWarningsAt_eq, count_flatMap_of_key hids hf hfile]
  exact count_sizeWarnings _ f hnodup hv hp

end Compiled

/-! ### Names as sizes -/

/-- A name of a linked file that is the size of an array is one that the file uses. -/
theorem File.reference_of_size {f : File} {i : Ident} (hi : .ident i ∈ f.sizes) :
    i ∈ f.references := by
  obtain ⟨b, hb, hi⟩ := List.mem_flatMap.1 hi
  obtain ⟨t, ht, hi⟩ := List.mem_flatMap.1 hi
  refine List.mem_flatMap.2 ⟨_, Decl.mem_filterMap_bean?.1 hb, ?_⟩
  exact List.mem_flatMap.2 ⟨t, ht, t.reference_of_size hi⟩

/-- Sizes follow constants: an array whose size is a name is lowered to one with this name as its size, and
with the number at the end of a chain of at most 16 constants that starts with the one that the name stands
for.  If there is no such chain, the size has no number, and exactly one warning about sizes starts at the
name. -/
theorem named_sizes (sources : List Source) (h : DistinctNames (parseSources sources).parsed)
    {p : Package} (hp : p ∈ (compile sources).packages.values) {f : File} (hf : f ∈ p.files.values)
    {i : Ident} (hi : .ident i ∈ f.sizes) :
    ∃ value : Option UInt64,
      (∀ start elem closing, (TypeExpr.array start elem (.ident i) closing).lower
        (compile sources).env f = .array (elem.lower (compile sources).env f) (.const i.name value)) ∧
      (∀ v, value = some v ↔ ∃ k, 1 ≤ k ∧ k ≤ 16 ∧ (compile sources).env.ConstChain v.toNat k f i) ∧
      (compile sources).sizeWarningsAt i.pos = if value.isNone then 1 else 0 := by
  have hfile : f ∈ (compile sources).env.files := List.mem_flatMap.2 ⟨p, hp, hf⟩
  have htraceable := compile_traceable sources h
  refine ⟨(compile sources).env.constValue? LowerEnv.maxConstChain f i, fun _ _ _ => rfl, ?_, ?_⟩
  · intro v
    rw [htraceable.constValue?_eq_some _ hfile (File.reference_of_size hi)]
    constructor
    · rintro ⟨k, hk, hchain⟩
      exact ⟨k, hchain.pos, hk, hchain⟩
    · rintro ⟨k, -, hk, hchain⟩
      exact ⟨k, hk, hchain⟩
  · have hlength : (lowerSize (compile sources).env f (.ident i)).length? =
        (compile sources).env.constValue? LowerEnv.maxConstChain f i := rfl
    rw [sizeWarningsAt_place hfile hi rfl, hlength]
    cases (compile sources).env.constValue? LowerEnv.maxConstChain f i <;> rfl

/-- A size that follows constants through two packages, the first of which has the value of the one
before it, and a size that follows constants in a circle. -/
def chained : List Source := [
  ⟨"a.mid", "package p\nstruct S \x7b\n  array<int32, N> ns\n  array<int32, L> ls\n\x7d\n"⟩,
  ⟨"b.mid", "package p\nimport . \"q\"\nconst (\n  _ = M\n  N\n)\n"⟩,
  ⟨"c.mid", "package p\nconst L = K\n"⟩, ⟨"d.mid", "package p\nconst K = L\n"⟩,
  ⟨"e.mid", "package q\nconst M = H\n"⟩, ⟨"f.mid", "package q\nconst H = 0x1F\n"⟩]

theorem named_sizes_chained : DistinctNames (parseSources chained).parsed ∧
    ∃ p ∈ (compile chained).packages.values, ∃ f ∈ p.files.values,
      f.sizes.map (lowerSize (compile chained).env f) = [.const "N" (some 31), .const "L" none] ∧
      ∀ i, .ident i ∈ f.sizes → ∃ value : Option UInt64,
        (∀ start elem closing, (TypeExpr.array start elem (.ident i) closing).lower
          (compile chained).env f = .array (elem.lower (compile chained).env f) (.const i.name value)) ∧
        (∀ v, value = some v ↔
          ∃ k, 1 ≤ k ∧ k ≤ 16 ∧ (compile chained).env.ConstChain v.toNat k f i) ∧
        (compile chained).sizeWarningsAt i.pos = if value.isNone then 1 else 0 := by
  have hdistinct : DistinctNames (parseSources chained).parsed := by decide +kernel
  have hsizes : ∃ p ∈ (compile chained).packages.values, ∃ f ∈ p.files.values,
      f.sizes.map (lowerSize (compile chained).env f) =
        [.const "N" (some 31), .const "L" none] := by decide +kernel
  obtain ⟨p, hp, f, hf, hvalues⟩ := hsizes
  exact ⟨hdistinct, p, hp, f, hf, hvalues, fun i hi => named_sizes chained hdistinct hp hf hi⟩

end Idl
