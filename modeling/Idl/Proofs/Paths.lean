/-
Idl/Proofs/Paths.lean

Paths, their components and their order.

What a path means is read off its pieces one by one, so a path behind another one has the components of
both (`Path.components_join`), and the rest of a path behind a shorter one has the components that are
left (`Path.components_relativeTo?`).

The components decide in which order paths come, and which of them sorting takes for the same one
(`Path.pairwise_sortDistinct`).
-/
import Idl.Path
import Mathlib.Data.List.Basic
import Mathlib.Data.String.Basic

namespace Idl

/-! ### Pieces -/

section Pieces

open String (ofList utf8Len)

/-- Splitting at slashes goes through the characters once. -/
theorem splitOnAux_slash (l m r : List Char) (acc : List String) :
    String.splitOnAux (ofList (l ++ m ++ r)) "/" ⟨utf8Len l⟩ ⟨utf8Len l + utf8Len m⟩ 0 acc =
      acc.reverse ++ (List.splitOnPPrepend (· == '/') r m.reverse).map ofList := by
  induction r generalizing l m acc with
  | nil =>
    have hend := String.atEnd_of_valid (l ++ m) []
    rw [String.utf8Len_append] at hend
    rw [String.splitOnAux, if_pos (hend.2 rfl)]
    simpa using String.extract_of_valid l m []
  | cons c r ih =>
    have hend := String.atEnd_of_valid (l ++ m) (c :: r)
    have hget : String.Pos.Raw.get (ofList (l ++ m ++ c :: r)) ⟨utf8Len (l ++ m)⟩ = c :=
      String.get_of_valid (l ++ m) (c :: r)
    have hslash : String.Pos.Raw.get "/" 0 = '/' := by decide
    have hnext := String.next_of_valid (l ++ m) c r
    rw [String.utf8Len_append] at hend hget hnext
    rw [String.splitOnAux, if_neg fun h => nomatch hend.1 h]
    simp only [hget, hslash]
    by_cases hc : c = '/'
    · -- the piece `m` ends here
      subst hc
      simp only [hnext, beq_self_eq_true, if_true]
      have hwidth : String.Pos.Raw.next "/" 0 = ⟨'/'.utf8Size⟩ := by decide
      have hback : String.Pos.Raw.unoffsetBy ⟨utf8Len l + utf8Len m + '/'.utf8Size⟩ ⟨'/'.utf8Size⟩ =
          ⟨utf8Len l + utf8Len m⟩ := congrArg String.Pos.Raw.mk (Nat.add_sub_cancel ..)
      rw [if_pos (by decide), hwidth, hback, String.extract_of_valid]
      have hrest := ih (l ++ m ++ ['/']) [] (ofList m :: acc)
      simpa [List.splitOnPPrepend_cons_eq_if, Nat.add_assoc, -String.ofList_append] using hrest
    · have hstay : String.Pos.Raw.unoffsetBy ⟨utf8Len l + utf8Len m⟩ 0 =
          ⟨utf8Len l + utf8Len m⟩ := rfl
      rw [if_neg (by simpa using hc), hstay, hnext]
      have hrest := ih l (m ++ [c]) acc
      simpa [List.splitOnPPrepend_cons_eq_if, hc, Nat.add_assoc, -String.ofList_append] using hrest

theorem splitOn_slash (s : String) : s.splitOn "/" = (s.toList.splitOn '/').map ofList := by
  have h := splitOnAux_slash [] [] s.toList []
  simp only [List.nil_append, String.ofList_toList] at h
  exact h

/-- There is no slash between slashes. -/
theorem slash_notMem_splitOn {cs xs : List Char} (h : cs ∈ xs.splitOn '/') : '/' ∉ cs := by
  induction xs generalizing cs with
  | nil =>
    rw [List.splitOn_nil] at h
    rw [List.mem_singleton.1 h]
    exact List.not_mem_nil
  | cons x xs ih =>
    rw [List.splitOn_cons_eq_if_modifyHead] at h
    by_cases hx : x = '/'
    · rw [if_pos (beq_iff_eq.2 hx)] at h
      rcases List.mem_cons.1 h with rfl | h
      · exact List.not_mem_nil
      · exact ih h
    · rw [if_neg (by simpa using hx)] at h
      obtain ⟨y, ys, hsplit⟩ := List.exists_cons_of_ne_nil (List.splitOn_ne_nil '/' xs)
      rw [hsplit] at h ih
      rcases List.mem_cons.1 h with rfl | h
      · exact List.not_mem_cons_of_ne_of_not_mem (Ne.symm hx) (ih List.mem_cons_self)
      · exact ih (List.mem_cons_of_mem _ h)

end Pieces

/-- There is no slash in a text. -/
def Slashless (s : String) : Prop := '/' ∉ s.toList

namespace Path

theorem ofText_eq (s : String) : ofText s = ⟨(s.toList.splitOn '/').map String.ofList⟩ :=
  congrArg mk (splitOn_slash s)

theorem ofText_pieces_ne_nil (s : String) : (ofText s).pieces ≠ [] := by
  rw [ofText_eq]
  exact fun h => List.splitOn_ne_nil _ _ (List.map_eq_nil_iff.1 h)

theorem slashless_ofText {s piece : String} (h : piece ∈ (ofText s).pieces) : Slashless piece := by
  rw [ofText_eq] at h
  obtain ⟨cs, hcs, rfl⟩ := List.mem_map.1 h
  unfold Slashless
  rw [String.toList_ofList]
  exact slash_notMem_splitOn hcs

/-- A path of pieces without slashes is read as it is written. -/
theorem ofText_text {p : Path} (hne : p.pieces ≠ []) (h : ∀ piece ∈ p.pieces, Slashless piece) :
    ofText p.text = p := by
  have hslashless : ∀ cs ∈ p.pieces.map String.toList, '/' ∉ cs := by
    intro cs hcs
    obtain ⟨s, hs, rfl⟩ := List.mem_map.1 hcs
    exact h s hs
  have hsplit := List.splitOn_intercalate '/' hslashless
    fun hnil => hne (List.map_eq_nil_iff.1 hnil)
  have hslash : "/".toList = ['/'] := by decide
  unfold text
  rw [ofText_eq, String.toList_intercalate, hslash, hsplit, List.map_map]
  congr
  exact (List.map_congr_left fun s _ => String.ofList_toList).trans (List.map_id _)

/-! ### Components -/

/-- There is nothing in a path: no piece, or none but an empty one. -/
def IsEmpty (p : Path) : Prop := p.pieces = [] ∨ p.pieces = [""]

/-- A path does not start over and does not lead upwards. -/
def StaysBelow (p : Path) : Prop := p.isAbsolute = false ∧ ".." ∉ p.pieces

/-- The component that the first of some pieces stands for, if it means anything. -/
def firstMeaning (first : String) (rest : List String) : Option PathComponent :=
  if first = "" then if rest = [] then none else some .root
  else if first = "." then some .current
  else PathComponent.ofPiece? first

theorem components_eq {p : Path} {first : String} {rest : List String}
    (h : p.pieces = first :: rest) :
    p.components = (firstMeaning first rest).toList ++ rest.filterMap PathComponent.ofPiece? := by
  unfold components meanings
  rw [h]
  show ((first, firstMeaning first rest) :: _).filterMap _ = _
  rw [List.filterMap_cons, List.filterMap_map]
  cases firstMeaning first rest <;> rfl

/-- What the first piece stands for depends only on whether more follows. -/
theorem firstMeaning_congr {first : String} {rest rest' : List String}
    (h : first = "" → (rest = [] ↔ rest' = [])) :
    firstMeaning first rest = firstMeaning first rest' := by
  unfold firstMeaning
  by_cases hfirst : first = ""
  · simp only [if_pos hfirst, h hfirst]
  · rw [if_neg hfirst, if_neg hfirst]

/-- A path that is not empty means something. -/
theorem components_ne_nil {p : Path} (hp : ¬ p.IsEmpty) : p.components ≠ [] := by
  obtain ⟨pieces⟩ := p
  cases pieces with
  | nil => exact absurd (.inl rfl) hp
  | cons first rest =>
    have hmeaning : firstMeaning first rest ≠ none := by
      unfold firstMeaning PathComponent.ofPiece?
      by_cases h : first = ""
      · have hrest : rest ≠ [] := fun hnil => hp (.inr (by rw [h, hnil]))
        simp [h, hrest]
      · by_cases hdot : first = "." <;> by_cases hup : first = ".." <;> simp [h, hdot, hup]
    obtain ⟨c, hc⟩ := Option.ne_none_iff_exists'.1 hmeaning
    rw [components_eq rfl, hc]
    exact List.cons_ne_nil _ _

/-- A path behind another one that is not empty comes behind its pieces, of which an empty one at the
end is left out.  The first piece stays what it is. -/
theorem join_pieces {p q : Path} (hp : ¬ p.IsEmpty) (hq : q.isAbsolute = false) :
    ∃ first rest tail, p.pieces = first :: (rest ++ tail) ∧ (tail = [] ∨ tail = [""]) ∧
      (p.join q).pieces = first :: (rest ++ q.pieces) ∧ (first = "" → rest ++ tail ≠ []) := by
  unfold join
  rw [if_neg (by simp [hq])]
  obtain ⟨pieces⟩ := p
  cases pieces with
  | nil => exact absurd (.inl rfl) hp
  | cons first rest =>
    have hrest (h : first = "") : rest ≠ [] := fun hnil => hp (.inr (by rw [h, hnil]))
    by_cases hlast : (first :: rest).getLast? = some ""
    · rw [if_pos hlast]
      rcases List.eq_nil_or_concat rest with rfl | ⟨front, last, rfl⟩
      · exact absurd rfl (hrest (Option.some.inj hlast))
      · rw [List.concat_eq_append] at hlast hrest ⊢
        rw [← List.cons_append, List.getLast?_concat] at hlast
        obtain rfl := Option.some.inj hlast
        refine ⟨first, front, [""], rfl, .inr rfl, ?_, hrest⟩
        show (first :: (front ++ [""])).dropLast ++ q.pieces = _
        rw [← List.cons_append, List.dropLast_concat, List.cons_append]
    · rw [if_neg hlast]
      exact ⟨first, rest, [], by rw [List.append_nil], .inl rfl, rfl, by rwa [List.append_nil]⟩

section Join

variable {p q : Path} (hp : ¬ p.IsEmpty) (hq : q.isAbsolute = false) (hne : q.pieces ≠ [])

include hp hq hne

theorem components_join :
    (p.join q).components = p.components ++ q.pieces.filterMap PathComponent.ofPiece? := by
  obtain ⟨first, rest, tail, hpieces, htail, hjoin, hfirst⟩ := join_pieces hp hq
  have hnone : tail.filterMap PathComponent.ofPiece? = [] := by
    rcases htail with rfl | rfl <;> rfl
  have hmeaning : firstMeaning first (rest ++ q.pieces) = firstMeaning first (rest ++ tail) :=
    firstMeaning_congr fun h => iff_of_false (by simp [hne]) (hfirst h)
  rw [components_eq hjoin, components_eq hpieces, hmeaning, List.filterMap_append,
    List.filterMap_append, hnone, List.append_nil, List.append_assoc]

theorem not_isEmpty_join : ¬ (p.join q).IsEmpty := by
  obtain ⟨first, rest, tail, -, -, hjoin, -⟩ := join_pieces hp hq
  unfold IsEmpty
  rw [hjoin]
  simp [hne]

theorem isAbsolute_join : (p.join q).isAbsolute = p.isAbsolute := by
  obtain ⟨first, rest, tail, hpieces, -, hjoin, hfirst⟩ := join_pieces hp hq
  unfold isAbsolute
  rw [hjoin, hpieces]
  have hlength := List.length_pos_iff.2 hne
  by_cases h : first = ""
  · have hlength' := List.length_pos_iff.2 (hfirst h)
    have hlong : 1 < (first :: (rest ++ q.pieces)).length := by
      rw [List.length_cons, List.length_append]
      omega
    have hlong' : 1 < (first :: (rest ++ tail)).length := by
      rw [List.length_cons]
      omega
    rw [decide_eq_true hlong, decide_eq_true hlong']
    rfl
  · have hno : (first == "") = false := beq_false_of_ne h
    simp [hno]

end Join

/-! ### The rest of a path -/

theorem dropComponents_filterMap (n : Nat) (ms : List (String × Option PathComponent)) :
    (dropComponents n ms).filterMap (·.2) = (ms.filterMap (·.2)).drop n := by
  fun_induction dropComponents n ms with
  | case1 n => simp
  | case2 n s r ih => simpa using ih
  | case3 s c r => simp
  | case4 n s c r ih => simpa using ih

/-- What is left begins with a piece that means something. -/
theorem dropComponents_sublist (n : Nat) (ms : List (String × Option PathComponent)) :
    (dropComponents n ms).Sublist ms ∧ ∀ m ∈ (dropComponents n ms).head?, m.2.isSome := by
  fun_induction dropComponents n ms with
  | case1 n => exact ⟨.refl _, nofun⟩
  | case2 n s r ih => exact ⟨ih.1.cons _, ih.2⟩
  | case3 ms _ hfirst =>
    refine ⟨.refl _, fun m hm => ?_⟩
    obtain ⟨r, rfl⟩ := List.head?_eq_some_iff.1 hm
    exact Option.isSome_iff_ne_none.2 fun hnone => hfirst m.1 r (by rw [← hnone])
  | case4 n s c r ih => exact ⟨ih.1.cons _, ih.2⟩

theorem components_of_isSome {p : Path} {first : String} {rest : List String}
    (h : p.pieces = first :: rest) (hsome : (PathComponent.ofPiece? first).isSome) :
    p.components = p.pieces.filterMap PathComponent.ofPiece? := by
  have hmeaning : firstMeaning first rest = PathComponent.ofPiece? first := by
    unfold PathComponent.ofPiece? at hsome
    unfold firstMeaning
    by_cases hempty : first = "" ∨ first = "."
    · rw [if_pos hempty] at hsome
      cases hsome
    · rw [if_neg fun h => hempty (.inl h), if_neg fun h => hempty (.inr h)]
  rw [components_eq h, hmeaning, h, List.filterMap_cons]
  cases PathComponent.ofPiece? first <;> rfl

/-- Behind the first component there are pieces that stand for themselves. -/
theorem dropComponents_meanings {p : Path} {n : Nat} (hn : n ≠ 0) :
    ∃ ps : List String, ps.Sublist p.pieces ∧
      dropComponents n p.meanings = ps.map fun piece => (piece, PathComponent.ofPiece? piece) := by
  unfold meanings
  obtain ⟨n, rfl⟩ := Nat.exists_eq_succ_of_ne_zero hn
  cases p.pieces with
  | nil => exact ⟨[], .refl _, rfl⟩
  | cons first rest =>
    have hrest (k : Nat) : ∃ ps : List String, ps.Sublist (first :: rest) ∧
        dropComponents k (rest.map fun piece => (piece, PathComponent.ofPiece? piece)) =
          ps.map fun piece => (piece, PathComponent.ofPiece? piece) := by
      obtain ⟨ps, hps, heq⟩ := List.sublist_map_iff.1 (dropComponents_sublist k
        (rest.map fun piece => (piece, PathComponent.ofPiece? piece))).1
      exact ⟨ps, hps.cons _, heq⟩
    show ∃ ps : List String, _ ∧ dropComponents (n + 1) ((first, firstMeaning first rest) :: _) = _
    cases firstMeaning first rest with
    | none => exact hrest (n + 1)
    | some c => exact hrest n

/-- The rest of a path behind one that is not empty has the components that are left. -/
theorem components_relativeTo? {p base q : Path} (hbase : base.components ≠ [])
    (h : p.relativeTo? base = some q) :
    p.components = base.components ++ q.components ∧ q.pieces.Sublist p.pieces := by
  unfold relativeTo? at h
  by_cases hprefix : base.components.isPrefixOf p.components = true
  · rw [if_pos hprefix] at h
    obtain ⟨cs, hcs⟩ := List.isPrefixOf_iff_prefix.1 hprefix
    obtain ⟨ps, hsub, hps⟩ := dropComponents_meanings (p := p)
      (mt List.length_eq_zero_iff.1 hbase)
    have hleft := dropComponents_filterMap base.components.length p.meanings
    have hhead := (dropComponents_sublist base.components.length p.meanings).2
    rw [hps] at h hleft hhead
    have hq : q.pieces = ps := by
      rw [← Option.some.inj h]
      show (ps.map _).map _ = ps
      rw [List.map_map]
      exact List.map_id _
    have hdrop : ps.filterMap PathComponent.ofPiece? = cs := by
      rw [List.filterMap_map] at hleft
      refine hleft.trans ?_
      show p.components.drop _ = cs
      rw [← hcs, List.drop_left]
    refine ⟨?_, hq ▸ hsub⟩
    rw [← hcs, ← hdrop, List.append_cancel_left_eq]
    cases ps with
    | nil => 
      unfold components meanings
      rw [hq]
      rfl
    | cons first rest => rw [components_of_isSome hq (hhead _ rfl), hq]
  · rw [if_neg hprefix] at h
    cases h

end Path

/-! ### Order -/

namespace PathComponent

theorem lt_iff {a b : PathComponent} : a < b ↔ a.rank < b.rank ∨ a.rank = b.rank ∧ a.text < b.text :=
  Iff.rfl

instance : Std.Irrefl (α := PathComponent) (· < ·) where
  irrefl a h := by
    rcases lt_iff.1 h with h | ⟨-, h⟩
    · exact Nat.lt_irrefl _ h
    · exact String.lt_irrefl _ h

instance : Trans (α := PathComponent) (· < ·) (· < ·) (· < ·) where
  trans {a b c} h h' := by
    rw [lt_iff] at *
    rcases h with h | ⟨heq, h⟩
    · rcases h' with h' | ⟨heq', -⟩ <;> exact .inl (by omega)
    · rcases h' with h' | ⟨heq', h'⟩
      · exact .inl (by omega)
      · exact .inr ⟨heq.trans heq', String.lt_trans h h'⟩

instance : Std.Asymm (α := PathComponent) (· < ·) where
  asymm a _ h h' := Std.Irrefl.irrefl a (Trans.trans h h')

instance : Std.Trichotomous (α := PathComponent) (· < ·) where
  trichotomous a b h h' := by
    rw [lt_iff] at h h'
    have hrank : a.rank = b.rank := by omega
    have htext : a.text = b.text :=
      String.le_antisymm (String.not_lt.1 fun hlt => h' (.inr ⟨hrank.symm, hlt⟩))
        (String.not_lt.1 fun hlt => h (.inr ⟨hrank, hlt⟩))
    cases a <;> cases b <;> first | rfl | exact congrArg name htext | cases hrank

end PathComponent

namespace Path

theorem le_iff {p q : Path} : p.le q = true ↔ p.components ≤ q.components := by
  unfold le
  rw [Bool.not_eq_true', decide_eq_false_iff_not, List.not_lt]

theorem le_trans (p q r : Path) (h : p.le q = true) (h' : q.le r = true) : p.le r = true := by
  rw [le_iff, List.le_iff_lt_or_eq] at *
  rcases h with h | h
  · rcases h' with h' | h'
    · exact .inl (List.lt_trans h h')
    · exact .inl (h' ▸ h)
  · exact h ▸ h'

theorem le_total (p q : Path) : (p.le q || q.le p) = true := by
  rw [Bool.or_eq_true, le_iff, le_iff]
  exact List.le_total ..

/-- Of paths in order, one of each is kept, and they stay in order. -/
theorem pairwise_distinct {ps : List Path} (h : ps.Pairwise fun p q => p.le q = true) :
    (distinct ps).Pairwise (fun p q => p.components < q.components) ∧ (distinct ps).Sublist ps ∧
      ∀ p ∈ ps, ∃ q ∈ distinct ps, q.components = p.components := by
  fun_induction distinct ps with
  | case1 => exact ⟨.nil, .refl _, nofun⟩
  | case2 p => exact ⟨List.pairwise_singleton .., .refl _, fun q hq => ⟨q, hq, rfl⟩⟩
  | case3 p q r heq ih =>
    obtain ⟨hp, hqr⟩ := List.pairwise_cons.1 h
    obtain ⟨-, hr⟩ := List.pairwise_cons.1 hqr
    obtain ⟨hsorted, hsub, hall⟩ := ih (List.pairwise_cons.2
      ⟨fun x hx => hp x (List.mem_cons_of_mem _ hx), hr⟩)
    refine ⟨hsorted, hsub.trans (List.Sublist.cons_cons p (List.sublist_cons_self q r)), ?_⟩
    intro x hx
    rcases List.mem_cons.1 hx with rfl | hx
    · exact hall x List.mem_cons_self
    · rcases List.mem_cons.1 hx with rfl | hx
      · exact heq ▸ hall p List.mem_cons_self
      · exact hall x (List.mem_cons_of_mem _ hx)
  | case4 p q r hne ih =>
    obtain ⟨hp, hqr⟩ := List.pairwise_cons.1 h
    obtain ⟨hq, -⟩ := List.pairwise_cons.1 hqr
    obtain ⟨hsorted, hsub, hall⟩ := ih hqr
    refine ⟨List.pairwise_cons.2 ⟨fun x hx => ?_, hsorted⟩, hsub.cons_cons p, fun x hx => ?_⟩
    · -- `p` comes before `q`, and nothing in the rest comes before `q`
      have hpq := (List.le_iff_lt_or_eq.1 (le_iff.1 (hp q List.mem_cons_self))).resolve_right hne
      rcases List.mem_cons.1 (hsub.subset hx) with rfl | hx
      · exact hpq
      · rcases List.le_iff_lt_or_eq.1 (le_iff.1 (hq x hx)) with hlt | heq
        · exact List.lt_trans hpq hlt
        · exact heq ▸ hpq
    · rcases List.mem_cons.1 hx with rfl | hx
      · exact ⟨x, List.mem_cons_self, rfl⟩
      · obtain ⟨y, hy, heq⟩ := hall x hx
        exact ⟨y, List.mem_cons_of_mem _ hy, heq⟩

/-- Sorted paths come in increasing order, and there is one of each. -/
theorem pairwise_sortDistinct (ps : List Path) :
    (sortDistinct ps).Pairwise (fun p q => p.components < q.components) ∧
      (∀ p ∈ sortDistinct ps, p ∈ ps) ∧
      ∀ p ∈ ps, ∃ q ∈ sortDistinct ps, q.components = p.components := by
  obtain ⟨hsorted, hsub, hall⟩ :=
    pairwise_distinct (List.pairwise_mergeSort le_trans le_total ps)
  exact ⟨hsorted, fun p hp => List.mem_mergeSort.1 (hsub.subset hp),
    fun p hp => hall p (List.mem_mergeSort.2 hp)⟩

end Path

end Idl
