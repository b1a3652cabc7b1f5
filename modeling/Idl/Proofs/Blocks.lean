/-
Idl/Proofs/Blocks.lean

The blocks that declare names.

A package is one block, whichever files declare its constants and beans, and each bean is one, with
its members.  While a source is read, each of its declarations is made for some scope of the source;
scopes and blocks correspond (`Source.block_outer`, `Source.block_inner`, `Source.block_bean`), and no
name that is not missing stands in two blocks (`Block.unique`).
-/
import Idl.Proofs.Order

namespace Idl

/-- The names that one block declares, with their places. -/
inductive Block (fs : List File) : List Spot → Prop
  | package (name : String) :
    Block fs (((filesOf fs name).flatMap File.declared).map Ident.spot)
  | bean {f : File} {b : Bean} (hf : f ∈ fs) (hb : b ∈ f.beans) :
    Block fs (b.declared.map Ident.spot)

/-! ### Declarations of a source -/

/-- A declaration as far as its scope, its name and its place go. -/
abbrev Entrance := ScopeId × Spot

/-- The name in its scope. -/
def Entrance.key (x : Entrance) : Option (ScopeId × String) := x.2.key.map (x.1, ·)

theorem Entrance.key_eq_some {x : Entrance} {i : ScopeId} {name : String} :
    x.key = some (i, name) ↔ x.1 = i ∧ x.2.key = some name := by
  unfold key
  cases x.2.key with
  | none => simp
  | some k => simp

theorem spot_declarationsIn (es : List NameEvent) :
    (declarations es).map (·.2.spot) = (declaredIn es).map Ident.spot := by
  unfold declarations declaredIn
  rw [List.map_filterMap, List.map_filterMap]
  refine List.filterMap_congr fun e _ => ?_
  cases e <;> rfl

namespace Source

variable (s : Source) (ρ : Placement)

/-- The declarations of a source, where it is placed. -/
def entrances : List Entrance :=
  (declarations s.events).map fun d => (d.1, d.2.name, ρ.pos d.2.pos)

theorem spot_placed (is : List Ident) : (is.map (Ident.placed ρ)).map Ident.spot =
    (is.map Ident.spot).map fun x => (x.1, ρ.pos x.2) := by
  rw [List.map_map, List.map_map]
  rfl

/-- The declarations for one scope. -/
theorem filter_entrances (i : ScopeId) : ((s.entrances ρ).filter (·.1 = i)).map (·.2) =
    (((declarations s.events).filter fun d => d.1 = i).map (·.2.spot)).map
      fun x => (x.1, ρ.pos x.2) := by
  unfold entrances
  rw [List.filter_map, List.map_map, List.map_map]
  rfl

/-- For the scope of the file, its constants and beans are declared. -/
theorem block_outer : ((s.entrances ρ).filter (·.1 = 0)).map (·.2) =
    (s.alone.file.placed ρ).declared.map Ident.spot := by
  rw [filter_entrances, outer_declarations, File.declared_placed, spot_placed,
    ← s.alone.file.spot_declarations, List.map_map (f := (0, ·))]
  rfl

theorem mem_beans {f : File} {b : Bean} : b ∈ f.beans ↔ Decl.bean b ∈ f.decls := by
  unfold File.beans
  rw [List.mem_filterMap]
  constructor
  · rintro ⟨d, hd, h⟩
    cases d with
    | bean b' => exact Option.some.inj h ▸ hd
    | _ => cases h
  · exact fun h => ⟨_, h, rfl⟩

theorem spot_members (b : Bean) (decl : Nat) (i : ScopeId) :
    (((b.memberObjects s.alone.file.id decl).map (i, ·) : List Declaration).map (·.2.spot)).map
      (fun x => (x.1, ρ.pos x.2)) = (b.placed ρ).declared.map Ident.spot := by
  rw [List.map_map (f := (i, ·)), Bean.declared_placed, spot_placed, ← Bean.spot_memberObjects]
  rfl

/-- For any other scope, the members of one bean are declared. -/
theorem block_inner {i : ScopeId} (hi : i ≠ 0) :
    ((s.entrances ρ).filter (·.1 = i)).map (·.2) = [] ∨
      ∃ b ∈ (s.alone.file.placed ρ).beans,
        ((s.entrances ρ).filter (·.1 = i)).map (·.2) = b.declared.map Ident.spot := by
  rw [filter_entrances, s.events_eq, File.beans_placed]
  rcases filter_declarations_inner s.alone.file.scope s.alone.file.id 1 0
    s.alone.file.decls (s.reading.scope ▸ hi) with h | ⟨b, decl, hb, h⟩
  · rw [h]
    exact .inl rfl
  · rw [h]
    exact .inr ⟨b.placed ρ, List.mem_map_of_mem (mem_beans.2 hb), s.spot_members ρ b decl i⟩

/-- Each bean has a scope for its members. -/
theorem block_bean {b : Bean} (hb : b ∈ (s.alone.file.placed ρ).beans) :
    ∃ i, i ≠ 0 ∧ ((s.entrances ρ).filter (·.1 = i)).map (·.2) = b.declared.map Ident.spot := by
  rw [File.beans_placed] at hb
  obtain ⟨b, hmem, rfl⟩ := List.mem_map.1 hb
  obtain ⟨i, decl, hi, h⟩ := exists_scope_of_bean s.alone.file.scope s.alone.file.id 1
    (s.reading.scope ▸ Nat.one_pos) 0 s.alone.file.decls (mem_beans.1 hmem)
  refine ⟨i, Nat.ne_of_gt hi, ?_⟩
  rw [filter_entrances, s.events_eq, h]
  exact s.spot_members ρ b decl i

/-! ### Places of declarations -/

/-- What is declared is an identifier of the source. -/
theorem exists_declared {d : Declaration} (hd : d ∈ declarations s.events) :
    ∃ i ∈ s.account.idents, i.name = d.2.name ∧ i.pos = d.2.pos := by
  have hspot := List.mem_map_of_mem (f := fun d : Declaration => d.2.spot) hd
  rw [spot_declarationsIn] at hspot
  obtain ⟨i, hi, heq⟩ := List.mem_map.1 hspot
  exact ⟨i, s.mem_idents (List.mem_append_left _ hi), Prod.mk.inj heq⟩

theorem mem_entrances {x : Entrance} (hx : x ∈ s.entrances ρ) :
    ∃ i ∈ s.account.idents, x.2 = (i.name, ρ.pos i.pos) := by
  obtain ⟨d, hd, rfl⟩ := List.mem_map.1 hx
  obtain ⟨i, hi, hname, hpos⟩ := s.exists_declared hd
  refine ⟨i, hi, ?_⟩
  show (d.2.name, ρ.pos d.2.pos) = _
  rw [hname, hpos]

/-- Declarations that are not missing have places of their own. -/
theorem entrances_apart : (s.entrances ρ).Pairwise fun x y =>
    x.2.key ≠ none → x.2.2 ≠ y.2.2 := by
  have hids : (declaredIn s.events).Pairwise fun i j => i.id ≠ j.id := by
    have h := s.mentioned_nodup
    rw [List.map_append, List.map_append, List.nodup_append, List.nodup_append] at h
    exact List.pairwise_map.1 h.2.1.1
  have hmem {i : Ident} (hi : i ∈ declaredIn s.events) : i ∈ s.account.idents :=
    s.mem_idents (List.mem_append_left _ hi)
  have hspots : ((declaredIn s.events).map Ident.spot).Pairwise fun x y : Spot =>
      x.key ≠ none → ρ.pos x.2 ≠ ρ.pos y.2 := by
    refine List.pairwise_map.2 (hids.imp_of_mem fun {i j} hi hj hid hne heq => ?_)
    have hb : i.isBlank = false := decide_eq_false fun h => hne (if_pos h)
    exact s.pos_ne (hmem hi) (hmem hj) hid hb (ρ.pos_inj.1 heq)
  rw [← spot_declarationsIn, List.pairwise_map] at hspots
  exact List.pairwise_map.2 hspots

end Source

/-! ### Blocks of a run -/

section Run

variable {sources : List Source}

/-- Where a name of a block is declared: the scope and the source. -/
theorem Block.entrance {B : List Spot} (h : Block (parseSources sources).parsed B) {x : Spot}
    (hx : x ∈ B) : ∃ s ρ i, (s, ρ) ∈ seated (Board.empty.layout sources) ∧
      (i, x) ∈ s.entrances ρ ∧
      B = if i = 0 then ((filesOf (parseSources sources).parsed
          (s.alone.file.placed ρ).name.name).flatMap File.declared).map Ident.spot
        else ((s.entrances ρ).filter (·.1 = i)).map (·.2) := by
  have hscope {s : Source} {ρ : Placement} {i : ScopeId}
      (hmem : x ∈ ((s.entrances ρ).filter (·.1 = i)).map (·.2)) : (i, x) ∈ s.entrances ρ := by
    obtain ⟨⟨j, y⟩, hy, rfl⟩ := List.mem_map.1 hmem
    obtain ⟨hy, hj⟩ := List.mem_filter.1 hy
    exact of_decide_eq_true hj ▸ hy
  cases h with
  | package name =>
    rw [List.map_flatMap] at hx
    obtain ⟨f, hf, hxf⟩ := List.mem_flatMap.1 hx
    obtain ⟨hparsed, rfl⟩ := mem_filesOf.1 hf
    obtain ⟨s, ρ, hs, rfl⟩ := mem_parsed hparsed
    rw [← s.block_outer ρ] at hxf
    exact ⟨s, ρ, 0, hs, hscope hxf, (if_pos rfl).symm⟩
  | bean hf hb =>
    obtain ⟨s, ρ, hs, rfl⟩ := mem_parsed hf
    obtain ⟨i, hi, heq⟩ := s.block_bean ρ hb
    rw [← heq] at hx ⊢
    exact ⟨s, ρ, i, hs, hscope hx, (if_neg hi).symm⟩

/-- Names of different sources have different places. -/
theorem seated_unique {s s' : Source} {ρ ρ' : Placement}
    (h : (s, ρ) ∈ seated (Board.empty.layout sources))
    (h' : (s', ρ') ∈ seated (Board.empty.layout sources)) {x y : Entrance}
    (hx : x ∈ s.entrances ρ) (hy : y ∈ s'.entrances ρ') (heq : x.2.2 = y.2.2) :
    s = s' ∧ ρ = ρ' := by
  obtain ⟨i, hi, hxi⟩ := s.mem_entrances ρ hx
  obtain ⟨j, hj, hyj⟩ := s'.mem_entrances ρ' hy
  rw [hxi, hyj] at heq
  let R (a b : Source × Placement) : Prop :=
    a = b ∨ Placement.Precedes a.1 a.2 b.2 ∨ Placement.Precedes b.1 b.2 a.2
  have hpairs := Board.layout_pairwise (b := .empty) Nat.one_ne_zero sources
  have hall : ∀ ⦃a⦄, a ∈ seated (Board.empty.layout sources) →
      ∀ ⦃b⦄, b ∈ seated (Board.empty.layout sources) → R a b :=
    List.Pairwise.forall_of_forall_of_flip (fun _ _ => .inl rfl)
      (hpairs.imp fun h => .inr (.inl h)) (hpairs.imp fun h => .inr (.inr h))
  rcases hall h h' with hsame | hlt | hlt
  · exact Prod.mk.inj hsame
  · exact absurd heq (Nat.ne_of_lt (hlt.pos_lt (s.ident_owned hi) (s'.ident_owned hj)))
  · exact absurd heq (Nat.ne_of_gt (hlt.pos_lt (s'.ident_owned hj) (s.ident_owned hi)))

/-- A name that is not missing stands in one block only. -/
theorem Block.unique {B B' : List Spot} (h : Block (parseSources sources).parsed B)
    (h' : Block (parseSources sources).parsed B') {x : Spot} (hx : x ∈ B) (hx' : x ∈ B')
    (hkey : x.key ≠ none) : B = B' := by
  obtain ⟨s, ρ, i, hs, hi, rfl⟩ := h.entrance hx
  obtain ⟨s', ρ', i', hs', hi', rfl⟩ := h'.entrance hx'
  obtain ⟨rfl, rfl⟩ := seated_unique hs hs' hi hi' rfl
  let R (a b : Entrance) : Prop := a.2 = b.2 → a.2.key ≠ none → a = b
  have hall : ∀ ⦃a⦄, a ∈ s.entrances ρ → ∀ ⦃b⦄, b ∈ s.entrances ρ → R a b :=
    List.Pairwise.forall_of_forall_of_flip (fun _ _ _ _ => rfl)
      ((s.entrances_apart ρ).imp fun h heq hne => absurd (congrArg Prod.snd heq) (h hne))
      ((s.entrances_apart ρ).imp fun h heq hne =>
        absurd (congrArg Prod.snd heq).symm (h (by rwa [heq] at hne)))
  obtain ⟨rfl, -⟩ := Prod.mk.inj (hall hi hi' rfl hkey)
  rfl

/-- The names of a block stand in order. -/
theorem Block.behind {B : List Spot} (h : Block (parseSources sources).parsed B) :
    B.Pairwise Spot.Behind := by
  cases h with
  | package name =>
    have hspots : ((filesOf (parseSources sources).parsed name).flatMap File.declared).map Ident.spot =
        ((filesOf (parseSources sources).parsed name).flatMap File.declarations).map Object.spot := by
      rw [List.map_flatMap, List.map_flatMap]
      exact List.flatMap_congr fun f _ => f.spot_declarations.symm
    rw [hspots, List.pairwise_map]
    exact (declarations_behind sources).sublist (flatMap_filesOf_sublist ..)
  | bean hf hb =>
    obtain ⟨s, ρ, -, rfl⟩ := mem_parsed hf
    rw [File.beans_placed] at hb
    obtain ⟨b, hmem, rfl⟩ := List.mem_map.1 hb
    have hsub : b.declared.Sublist s.account.idents :=
      (declared_sublist_bean _ _ _ _ _ (Source.mem_beans.1 hmem)).trans (List.sublist_cons_self ..)
    rw [Bean.declared_placed, Source.spot_placed]
    exact List.pairwise_map.2 ((s.behind hsub).imp fun h => h.placed ρ)

end Run

end Idl
