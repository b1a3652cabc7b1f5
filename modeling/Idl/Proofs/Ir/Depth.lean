/-
Idl/Proofs/Ir/Depth.lean

How deep the JSON of a compiled schema nests.

A lowered type takes two levels more than it has containers (`TypeExpr.depth_lower`); what stands
around types takes a fixed number of levels.  So the bound on the containers of a type, which the
parser keeps, bounds the JSON of every compiled schema, and no id of a bean adds a level to it.

Main result: what compiling gives can be read back, whatever ids its beans get
(`readable_compile`).
-/
import Idl.Compilation
import Idl.Proofs.Ir.RoundTrip
import Idl.Proofs.Syntax.Nesting

namespace Idl

open Ir

/-! ### The depth of records -/

/-- A record takes one level more than its slots. -/
theorem Json.depth_present_le {slots : List (String × Option Json)} {n : Nat} :
    (Json.ofFields (present slots)).depth ≤ n + 1 ↔ ∀ s ∈ slots, ∀ j ∈ s.2, j.depth ≤ n := by
  rw [Json.depth_ofFields_le]
  constructor
  · intro h s hs j hj
    exact h (s.1, j) (mem_present.2 (hj ▸ hs))
  · intro h f hf
    exact h (f.1, some f.2) (mem_present.1 hf) f.2 rfl

theorem depth_textSlot (t : String) (n : Nat) : ∀ j ∈ textSlot t, j.depth ≤ n := by
  unfold textSlot
  split
  · simp
  · simp [Json.depth, Json.ofString]

theorem depth_listSlot {items : List Json} {n : Nat} (h : ∀ j ∈ items, j.depth ≤ n) :
    ∀ j ∈ listSlot items, j.depth ≤ n + 1 := by
  unfold listSlot
  split
  · simp
  · simpa using Json.depth_array_le.2 h

theorem depth_texts (ts : List String) (n : Nat) :
    ∀ j ∈ listSlot (ts.map Json.ofString), j.depth ≤ n + 1 :=
  depth_listSlot (List.forall_mem_map.2 fun _ _ => Nat.zero_le n)

/-! ### Types and members -/

theorem Ir.ArraySize.depth_toJson (s : ArraySize) : s.toJson.depth ≤ 2 := by
  cases s with
  | literal n => exact Nat.le_succ 1
  | const name value =>
    cases value <;> exact Nat.le_refl 2
  | invalid => exact Nat.zero_le 2

/-- The slots of a type but its kind, which adds nothing. -/
theorem Ir.Ty.depth_toJson {t : Ty} {n : Nat} (h : ∀ s ∈ t.kindSlots.2, ∀ j ∈ s.2, j.depth ≤ n) :
    t.toJson.depth ≤ n + 1 := by
  rw [t.toJson_eq]
  refine Json.depth_ofFields_le.2 (List.forall_mem_cons.2 ⟨Nat.zero_le n, fun f hf => ?_⟩)
  exact h (f.1, some f.2) (mem_present.1 hf) f.2 rfl

section Lower

variable (env : LowerEnv) (f : Idl.File)

/-- A container takes a level, and the size of an array at most two. -/
theorem TypeExpr.depth_lower (t : TypeExpr) : (t.lower env f).toJson.depth ≤ t.nesting + 2 := by
  induction t with
  | bad pos => exact Ty.depth_toJson (by simp [lower, Ty.kindSlots])
  | basic name b =>
    exact Ty.depth_toJson (by simp [lower, Ty.kindSlots, Json.ofString, Json.depth])
  | named qualifier name =>
    refine Ty.depth_toJson (List.forall_mem_cons.2 ⟨depth_textSlot _ _, ?_⟩)
    simp [Json.ofString, Json.depth]
  | array pos elem size closing ih =>
    have hsize : (lowerSize env f size).toJson.depth ≤ elem.nesting + 2 :=
      Nat.le_trans (ArraySize.depth_toJson _) (Nat.le_add_left ..)
    exact Ty.depth_toJson (by simpa [lower, Ty.kindSlots] using ⟨ih, hsize⟩)
  | vector pos elem closing ih => exact Ty.depth_toJson (by simpa [lower, Ty.kindSlots, nesting] using ih)
  | map pos key value closing ihk ihv =>
    have hkey := Nat.le_trans ihk (Nat.add_le_add_right (Nat.le_max_left _ value.nesting) 2)
    have hvalue := Nat.le_trans ihv (Nat.add_le_add_right (Nat.le_max_right key.nesting _) 2)
    exact Ty.depth_toJson (by simpa [lower, Ty.kindSlots] using ⟨hkey, hvalue⟩)

theorem TypeExpr.Shallow.depth_lower {t : TypeExpr} (h : t.Shallow) :
    (t.lower env f).toJson.depth ≤ maxTypeNesting + 2 :=
  Nat.le_trans (t.depth_lower env f) (Nat.add_le_add_right h 2)

theorem Param.depth_lower {p : Param} (h : p.type.Shallow) :
    (p.lower env f).toJson.depth ≤ maxTypeNesting + 3 := by
  rw [Field.toJson_eq]
  refine Json.depth_present_le.2 ?_
  have htype := h.depth_lower env f
  simp only [Field.slots, Param.lower, List.forall_mem_cons]
  refine ⟨depth_textSlot _ _, depth_texts [] _, ?_, depth_texts _ _, ?_, depth_textSlot _ _,
    depth_textSlot _ _, List.forall_mem_nil _⟩
  · simpa using htype
  · simp

theorem MemberType.depth_lower {t : MemberType} (h : ∀ u ∈ t.types, u.Shallow) :
    (t.lower env f).toJson.depth ≤ maxTypeNesting + 5 := by
  cases t with
  | plain t =>
    have ht := (h t List.mem_cons_self).depth_lower env f
    exact Nat.le_trans ht (Nat.add_le_add_left (by decide) _)
  | func sig =>
    obtain ⟨hparams, hresult⟩ := List.forall_mem_append.1 h
    refine Ty.depth_toJson ?_
    simp only [lower, Ty.kindSlots, List.forall_mem_cons]
    refine ⟨?_, fun j hj => ?_, List.forall_mem_nil _⟩
    · rintro j ⟨⟩
      refine Json.depth_array_le.2 (List.forall_mem_map.2 (List.forall_mem_map.2 fun p hp => ?_))
      exact Param.depth_lower env f (hparams _ (List.mem_map_of_mem hp))
    · obtain ⟨_, hlower, rfl⟩ := Option.map_eq_some_iff.1 hj
      obtain ⟨t, ht, rfl⟩ := Option.map_eq_some_iff.1 hlower
      have ht := (hresult t (Option.mem_toList.2 ht)).depth_lower env f
      exact Nat.le_trans ht (Nat.add_le_add_left (by decide) _)

theorem Value.depth_lower (v : Value) : v.lower.toJson.depth ≤ 2 := by
  cases v with
  | bad pos => exact Nat.zero_le 2
  | ident i => exact Nat.le_succ 1
  | lit l => exact Nat.le_refl 2

theorem Member.Shallow.depth_lower {m : Member} (h : m.Shallow) :
    (m.lower env f).toJson.depth ≤ maxTypeNesting + 6 := by
  rw [Field.toJson_eq]
  refine Json.depth_present_le.2 ?_
  simp only [Field.slots, Member.lower, List.forall_mem_cons]
  refine ⟨depth_textSlot _ _, depth_texts _ _, fun j hj => ?_, depth_texts _ _, fun j hj => ?_,
    depth_textSlot _ _, depth_textSlot _ _, List.forall_mem_nil _⟩
  · obtain ⟨_, hlower, rfl⟩ := Option.map_eq_some_iff.1 hj
    obtain ⟨t, ht, rfl⟩ := Option.map_eq_some_iff.1 hlower
    refine MemberType.depth_lower env f fun u hu => h u ?_
    exact List.mem_flatMap.2 ⟨t, Option.mem_toList.2 ht, hu⟩
  · obtain ⟨e, he, rfl⟩ := Option.map_eq_some_iff.1 hj
    obtain ⟨v, -, rfl⟩ := Option.map_eq_some_iff.1 he
    exact Nat.le_trans v.depth_lower (Nat.le_add_left _ _)

/-! ### Declarations -/

theorem Bean.Shallow.depth_lower {b : Bean} (h : b.Shallow) :
    (b.lower env f).toJson.depth ≤ maxTypeNesting + 8 := by
  rw [Bean.toJson_eq]
  refine Json.depth_present_le.2 ?_
  simp only [Bean.slots, Bean.lower, List.forall_mem_cons]
  refine ⟨?_, ?_, depth_textSlot _ _, ?_, depth_listSlot (List.forall_mem_map.2 fun t ht => ?_),
    depth_textSlot _ _, ?_, depth_textSlot _ _, List.forall_mem_nil _⟩
  · simp
  · simp [Json.ofString, Json.depth]
  · simp [Json.ofString, Json.depth]
  · obtain ⟨m, hm, ht⟩ := List.mem_filterMap.1 ht
    obtain ⟨u, hu, rfl⟩ := Option.map_eq_some_iff.1 ht
    have hshallow := h m (List.mem_filter.1 hm).1
    refine Nat.le_succ_of_le (MemberType.depth_lower env f fun v hv => hshallow v ?_)
    exact List.mem_flatMap.2 ⟨u, Option.mem_toList.2 hu, hv⟩
  · rintro j ⟨⟩
    refine Json.depth_array_le.2 (List.forall_mem_map.2 (List.forall_mem_map.2 fun m hm => ?_))
    exact (h m (List.mem_filter.1 hm).1).depth_lower env f

theorem ImportSpec.depth_lower (s : Idl.ImportSpec) : s.lower.toJson.depth ≤ 1 := by
  rw [Ir.ImportSpec.toJson_eq]
  refine Json.depth_present_le.2 ?_
  simp only [ImportSpec.slots, ImportSpec.lower, List.forall_mem_cons]
  refine ⟨depth_textSlot _ _, depth_textSlot _ _, ?_, depth_textSlot _ _, List.forall_mem_nil _⟩
  simp [Json.ofString, Json.depth]

theorem ConstSpec.depth_lower (s : Idl.ConstSpec) : s.lower.toJson.depth ≤ 3 := by
  rw [Ir.ConstSpec.toJson_eq]
  refine Json.depth_present_le.2 ?_
  have hvalue : ((s.value.map Value.lower).getD .invalid).toJson.depth ≤ 2 := by
    cases s.value with
    | none => exact Nat.zero_le 2
    | some v => exact v.depth_lower
  simp only [ConstSpec.slots, ConstSpec.lower, List.forall_mem_cons]
  refine ⟨depth_textSlot _ _, ?_, ?_, depth_textSlot _ _, List.forall_mem_nil _⟩
  · simp [Json.ofString, Json.depth]
  · simpa using hvalue

theorem Decl.depth_lowerGroup? {d : Decl} {g : GenDecl} (h : d.lowerGroup? = some g) :
    g.toJson.depth ≤ 5 := by
  have hslots {imports : List Ir.ImportSpec} {consts : List Ir.ConstSpec} (doc : String)
      (hi : ∀ s ∈ imports, s.toJson.depth ≤ 3) (hc : ∀ s ∈ consts, s.toJson.depth ≤ 3) :
      (GenDecl.toJson ⟨doc, imports, consts⟩).depth ≤ 5 := by
    rw [GenDecl.toJson_eq]
    refine Json.depth_present_le.2 ?_
    simp only [GenDecl.slots, List.forall_mem_cons]
    exact ⟨depth_textSlot _ _, depth_listSlot (List.forall_mem_map.2 hi),
      depth_listSlot (List.forall_mem_map.2 hc), List.forall_mem_nil _⟩
  cases d with
  | imports g =>
    rw [← Option.some.inj h]
    refine hslots _ (List.forall_mem_map.2 fun s _ => ?_) (List.forall_mem_nil _)
    exact Nat.le_trans (ImportSpec.depth_lower s) (by decide)
  | consts g =>
    rw [← Option.some.inj h]
    exact hslots _ (List.forall_mem_nil _) (List.forall_mem_map.2 fun s _ => ConstSpec.depth_lower s)
  | _ => cases h

end Lower

/-! ### Ids of beans -/

namespace Ir

/-- The beans and declarations of all files take at most `n` levels. -/
def Within (n : Nat) (ir : Ir) : Prop :=
  ∀ p ∈ ir.packages, ∀ f ∈ p.files,
    (∀ b ∈ f.beans, b.toJson.depth ≤ n) ∧ ∀ d ∈ f.decls, d.toJson.depth ≤ n

/-- Around beans and declarations there are six levels. -/
theorem Within.depth {ir : Ir} {n : Nat} (h : ir.Within n) : ir.toJson.depth ≤ n + 6 := by
  refine Json.depth_ofFields_le.2 (List.forall_mem_singleton.2 ?_)
  refine Json.depth_array_le.2 (List.forall_mem_map.2 fun p hp => ?_)
  rw [Package.toJson_eq]
  refine Json.depth_present_le.2 ?_
  simp only [Package.slots, List.forall_mem_cons]
  refine ⟨?_, fun j hj => ?_, ?_, List.forall_mem_nil _⟩
  · simp [Json.ofString, Json.depth]
  · split at hj
    · cases hj
    · rw [← Option.some.inj hj]
      refine Json.depth_ofFields_le.2 (List.forall_mem_map.2 fun e _ => Nat.zero_le _)
  · rintro j ⟨⟩
    refine Json.depth_array_le.2 (List.forall_mem_map.2 fun f hf => ?_)
    obtain ⟨hbeans, hdecls⟩ := h p hp f hf
    rw [File.toJson_eq]
    refine Json.depth_present_le.2 ?_
    simp only [File.slots, List.forall_mem_cons]
    refine ⟨?_, depth_textSlot _ _, ?_, depth_listSlot (List.forall_mem_map.2 hbeans),
      depth_listSlot (List.forall_mem_map.2 hdecls), depth_texts _ _, List.forall_mem_nil _⟩
    · simp [Json.ofString, Json.depth]
    · simp [Json.ofString, Json.depth]

/-- An id takes no level of its own. -/
theorem Bean.depth_withId (b : Bean) (id : Option UInt32) {n : Nat} (h : b.toJson.depth ≤ n) :
    ({ b with id } : Bean).toJson.depth ≤ n := by
  rw [Bean.toJson_eq] at h ⊢
  obtain ⟨k, rfl⟩ := exists_succ_of_depth h
  obtain ⟨-, hrest⟩ := List.forall_mem_cons.1 (Json.depth_present_le.1 h)
  refine Json.depth_present_le.2 (List.forall_mem_cons.2 ⟨fun j hj => ?_, hrest⟩)
  obtain ⟨n, -, rfl⟩ := Option.map_eq_some_iff.1 hj
  exact Nat.zero_le k

/-- Gives the beans ids, by the indices of package, file and bean. -/
def withBeanIds (ids : Nat → Nat → Nat → Option UInt32) (ir : Ir) : Ir where
  packages := ir.packages.mapIdx fun i p =>
    { p with files := p.files.mapIdx fun j f =>
      { f with beans := f.beans.mapIdx fun k b => { b with id := ids i j k } } }

theorem Within.withBeanIds {ir : Ir} {n : Nat} (h : ir.Within n)
    (ids : Nat → Nat → Nat → Option UInt32) : (ir.withBeanIds ids).Within n := by
  intro p hp f hf
  obtain ⟨i, hi, rfl⟩ := List.mem_mapIdx.1 hp
  obtain ⟨j, hj, rfl⟩ := List.mem_mapIdx.1 hf
  obtain ⟨hbeans, hdecls⟩ := h _ (List.getElem_mem hi) _ (List.getElem_mem hj)
  refine ⟨fun b hb => ?_, hdecls⟩
  obtain ⟨k, hk, rfl⟩ := List.mem_mapIdx.1 hb
  exact Bean.depth_withId _ _ (hbeans _ (List.getElem_mem hk))

/-- What a step makes of each item comes from that item. -/
theorem mem_mapM {σ α β : Type} {step : α → StateM σ β} {xs : List α} {s : σ} {y : β}
    (h : y ∈ (xs.mapM step s).1) : ∃ x ∈ xs, ∃ t, y = (step x t).1 := by
  induction xs generalizing s with
  | nil => exact absurd h List.not_mem_nil
  | cons x xs ih =>
    rw [List.mapM_cons] at h
    rcases List.mem_cons.1 h with rfl | h
    · exact ⟨x, List.mem_cons_self, s, rfl⟩
    · obtain ⟨z, hz, t, rfl⟩ := ih h
      exact ⟨z, List.mem_cons_of_mem _ hz, t, rfl⟩

theorem Within.assignBeanIds {σ : Type} {ir : Ir} {n : Nat} (h : ir.Within n)
    (allocate : String → StateM σ UInt32) (s : σ) : (ir.assignBeanIds allocate s).1.Within n := by
  intro p hp f hf
  obtain ⟨p, hmem, t, rfl⟩ := mem_mapM hp
  obtain ⟨f, hfile, t', rfl⟩ := mem_mapM hf
  obtain ⟨hbeans, hdecls⟩ := h p hmem f hfile
  refine ⟨fun b hb => ?_, hdecls⟩
  obtain ⟨b, hbean, t'', rfl⟩ := mem_mapM hb
  exact Bean.depth_withId _ _ (hbeans b hbean)

/-- What is written can be read back, and nests no deeper than a reader allows. -/
structure Readable (ir : Ir) : Prop where
  depth : ir.toJson.depth ≤ maxNesting
  decoded : decode? ir.encode = some ir

theorem Within.readable {ir : Ir} {n : Nat} (h : ir.Within n) (hn : n + 6 ≤ maxNesting) :
    ir.Readable where
  depth := Nat.le_trans h.depth hn
  decoded := by
    rw [decode?, encode, Json.parse?_pretty ir.written, Option.bind_some]
    exact ir.ofJson?_root (Nat.le_trans h.depth hn)

end Ir

/-! ### Compiled schemas -/

theorem File.Shallow.depth_lower {env : LowerEnv} {f : Idl.File} (h : f.Shallow) :
    (∀ b ∈ (f.lower env).beans, b.toJson.depth ≤ maxTypeNesting + 8) ∧
      ∀ d ∈ (f.lower env).decls, d.toJson.depth ≤ maxTypeNesting + 8 := by
  refine ⟨List.forall_mem_map.2 fun b hb => ?_, fun g hg => ?_⟩
  · obtain ⟨d, hd, hbean⟩ := List.mem_filterMap.1 hb
    cases d with
    | bean b' => exact Option.some.inj hbean ▸ (h _ hd b' rfl).depth_lower env f
    | _ => cases hbean
  · obtain ⟨d, -, hd⟩ := List.mem_filterMap.1 hg
    exact Nat.le_trans (Decl.depth_lowerGroup? hd) (by decide)

/-- Everything around the types of a compiled schema takes a fixed number of levels. -/
theorem within_compile (sources : List Source) : (compile sources).ir.Within (maxTypeNesting + 8) := by
  intro p hp f hf
  obtain ⟨q, hq, rfl⟩ := List.mem_map.1 hp
  obtain ⟨g, hg, rfl⟩ := List.mem_map.1 hf
  exact (linkSources_shallow sources q hq g hg).depth_lower

/-- What compiling gives can be read back, whatever ids its beans get. -/
theorem readable_compile (sources : List Source) :
    (compile sources).ir.Readable ∧
      (∀ ids, ((compile sources).ir.withBeanIds ids).Readable) ∧
      ∀ (σ : Type) (allocate : String → StateM σ UInt32) (s : σ),
        ((compile sources).ir.assignBeanIds allocate s).1.Readable :=
  have hn : maxTypeNesting + 8 + 6 ≤ maxNesting := by decide
  ⟨(within_compile sources).readable hn,
    fun ids => ((within_compile sources).withBeanIds ids).readable hn,
    fun _ allocate s => ((within_compile sources).assignBeanIds allocate s).readable hn⟩

end Idl
