/-
Idl/Proofs/Repeats.lean

First and repeated occurrences of names.

A list of declarations is read from the left.  The first one of a name counts (`firsts`), every
further one is an error (`repeats`), and what has no name is neither.  Reading may start with some
names already seen, which is how a list is cut into pieces: what a piece repeats is what it repeats
on its own, and those of its firsts that were seen before (`repeats_perm`).  So errors found piece
by piece, first inside each piece and then between the pieces, are those of the whole.
-/
import Mathlib.Data.List.Perm.Basic
import Mathlib.Data.List.Nodup

namespace Idl

variable {α β κ : Type} [DecidableEq κ]

/-- The elements whose name was not seen before. -/
def firsts (φ : α → Option κ) (seen : List κ) : List α → List α
  | [] => []
  | x :: xs =>
    match φ x with
    | none => firsts φ seen xs
    | some k => if k ∈ seen then firsts φ seen xs else x :: firsts φ (k :: seen) xs

/-- The elements whose name was seen before. -/
def repeats (φ : α → Option κ) (seen : List κ) : List α → List α
  | [] => []
  | x :: xs =>
    match φ x with
    | none => repeats φ seen xs
    | some k => if k ∈ seen then x :: repeats φ seen xs else repeats φ (k :: seen) xs

variable {φ : α → Option κ} {seen seen' : List κ} {x : α} {k : κ}

/-! ### One element after the other -/

theorem firsts_cons_none (h : φ x = none) (xs : List α) :
    firsts φ seen (x :: xs) = firsts φ seen xs := by
  rw [firsts, h]

theorem firsts_cons_seen (h : φ x = some k) (hk : k ∈ seen) (xs : List α) :
    firsts φ seen (x :: xs) = firsts φ seen xs := by
  rw [firsts, h]
  exact if_pos hk

theorem firsts_cons_new (h : φ x = some k) (hk : k ∉ seen) (xs : List α) :
    firsts φ seen (x :: xs) = x :: firsts φ (k :: seen) xs := by
  rw [firsts, h]
  exact if_neg hk

theorem repeats_cons_none (h : φ x = none) (xs : List α) :
    repeats φ seen (x :: xs) = repeats φ seen xs := by
  rw [repeats, h]

theorem repeats_cons_seen (h : φ x = some k) (hk : k ∈ seen) (xs : List α) :
    repeats φ seen (x :: xs) = x :: repeats φ seen xs := by
  rw [repeats, h]
  exact if_pos hk

theorem repeats_cons_new (h : φ x = some k) (hk : k ∉ seen) (xs : List α) :
    repeats φ seen (x :: xs) = repeats φ (k :: seen) xs := by
  rw [repeats, h]
  exact if_neg hk

/-- Only which names were seen matters. -/
theorem firsts_congr_of_mem {xs : List α}
    (h : ∀ x ∈ xs, ∀ k, φ x = some k → (k ∈ seen ↔ k ∈ seen')) :
    firsts φ seen xs = firsts φ seen' xs := by
  induction xs generalizing seen seen' with
  | nil => rfl
  | cons x xs ih =>
    have htail (y : α) (hy : y ∈ xs) := h y (List.mem_cons_of_mem x hy)
    cases hx : φ x with
    | none => rw [firsts_cons_none hx, firsts_cons_none hx, ih htail]
    | some k =>
      have hiff := h x List.mem_cons_self k hx
      by_cases hk : k ∈ seen
      · rw [firsts_cons_seen hx hk, firsts_cons_seen hx (hiff.1 hk), ih htail]
      · have hcons (y : α) (hy : y ∈ xs) (j : κ) (hj : φ y = some j) :
            j ∈ k :: seen ↔ j ∈ k :: seen' := by
          rw [List.mem_cons, List.mem_cons, htail y hy j hj]
        rw [firsts_cons_new hx hk, firsts_cons_new hx (mt hiff.2 hk), ih hcons]

theorem firsts_congr (h : ∀ k, k ∈ seen ↔ k ∈ seen') (xs : List α) :
    firsts φ seen xs = firsts φ seen' xs :=
  firsts_congr_of_mem fun _ _ k _ => h k

theorem repeats_congr_of_mem {xs : List α}
    (h : ∀ x ∈ xs, ∀ k, φ x = some k → (k ∈ seen ↔ k ∈ seen')) :
    repeats φ seen xs = repeats φ seen' xs := by
  induction xs generalizing seen seen' with
  | nil => rfl
  | cons x xs ih =>
    have htail (y : α) (hy : y ∈ xs) := h y (List.mem_cons_of_mem x hy)
    cases hx : φ x with
    | none => rw [repeats_cons_none hx, repeats_cons_none hx, ih htail]
    | some k =>
      have hiff := h x List.mem_cons_self k hx
      by_cases hk : k ∈ seen
      · rw [repeats_cons_seen hx hk, repeats_cons_seen hx (hiff.1 hk), ih htail]
      · have hcons (y : α) (hy : y ∈ xs) (j : κ) (hj : φ y = some j) :
            j ∈ k :: seen ↔ j ∈ k :: seen' := by
          rw [List.mem_cons, List.mem_cons, htail y hy j hj]
        rw [repeats_cons_new hx hk, repeats_cons_new hx (mt hiff.2 hk), ih hcons]

theorem repeats_congr (h : ∀ k, k ∈ seen ↔ k ∈ seen') (xs : List α) :
    repeats φ seen xs = repeats φ seen' xs :=
  repeats_congr_of_mem fun _ _ k _ => h k

/-! ### One list after the other -/

theorem firsts_append (xs ys : List α) :
    firsts φ seen (xs ++ ys) = firsts φ seen xs ++ firsts φ (seen ++ xs.filterMap φ) ys := by
  induction xs generalizing seen with
  | nil => simp [firsts]
  | cons x xs ih =>
    rw [List.cons_append]
    cases hx : φ x with
    | none => rw [firsts_cons_none hx, firsts_cons_none hx, ih, List.filterMap_cons_none hx]
    | some k =>
      have hseen (s : List κ) (hs : ∀ j, j ∈ s ↔ j = k ∨ j ∈ seen) :
          firsts φ (s ++ xs.filterMap φ) ys =
            firsts φ (seen ++ (x :: xs).filterMap φ) ys := by
        refine firsts_congr (fun j => ?_) ys
        rw [List.filterMap_cons_some hx, List.mem_append, List.mem_append, List.mem_cons, hs]
        tauto
      by_cases hk : k ∈ seen
      · rw [firsts_cons_seen hx hk, firsts_cons_seen hx hk, ih, hseen]
        exact fun j => ⟨.inr, fun hj => hj.elim (fun h => h ▸ hk) id⟩
      · rw [firsts_cons_new hx hk, firsts_cons_new hx hk, ih, hseen _ fun _ => List.mem_cons]
        rfl

theorem repeats_append (xs ys : List α) :
    repeats φ seen (xs ++ ys) =
      repeats φ seen xs ++ repeats φ (seen ++ xs.filterMap φ) ys := by
  induction xs generalizing seen with
  | nil => simp [repeats]
  | cons x xs ih =>
    rw [List.cons_append]
    cases hx : φ x with
    | none => rw [repeats_cons_none hx, repeats_cons_none hx, ih, List.filterMap_cons_none hx]
    | some k =>
      have hseen (s : List κ) (hs : ∀ j, j ∈ s ↔ j = k ∨ j ∈ seen) :
          repeats φ (s ++ xs.filterMap φ) ys =
            repeats φ (seen ++ (x :: xs).filterMap φ) ys := by
        refine repeats_congr (fun j => ?_) ys
        rw [List.filterMap_cons_some hx, List.mem_append, List.mem_append, List.mem_cons, hs]
        tauto
      by_cases hk : k ∈ seen
      · rw [repeats_cons_seen hx hk, repeats_cons_seen hx hk, ih, hseen]
        · rfl
        · exact fun j => ⟨.inr, fun hj => hj.elim (fun h => h ▸ hk) id⟩
      · rw [repeats_cons_new hx hk, repeats_cons_new hx hk, ih, hseen _ fun _ => List.mem_cons]

/-! ### Finding what there is only one of -/

theorem find?_eq_some_of_unique {p : α → Bool} {xs : List α} (hx : x ∈ xs) (hp : p x = true)
    (h : ∀ y ∈ xs, p y = true → y = x) : xs.find? p = some x := by
  cases hfind : xs.find? p with
  | none => exact absurd hp (List.find?_eq_none.1 hfind x hx)
  | some y => rw [h y (List.mem_of_find?_eq_some hfind) (List.find?_some hfind)]

/-- What there is only one of is found in any order. -/
theorem find?_eq_of_perm {p : α → Bool} {xs ys : List α} (h : xs.Perm ys)
    (hone : ∀ x ∈ xs, ∀ y ∈ xs, p x = true → p y = true → y = x) : xs.find? p = ys.find? p := by
  cases hfind : xs.find? p with
  | none =>
    refine (List.find?_eq_none.2 fun y hy => ?_).symm
    exact List.find?_eq_none.1 hfind y (h.mem_iff.2 hy)
  | some x =>
    have hx := List.mem_of_find?_eq_some hfind
    have hp := List.find?_some hfind
    exact (find?_eq_some_of_unique (h.mem_iff.1 hx) hp fun y hy hpy =>
      hone x hx y (h.mem_iff.2 hy) hp hpy).symm

/-! ### Parts of a list -/

theorem firsts_sublist (seen : List κ) (xs : List α) : (firsts φ seen xs).Sublist xs := by
  induction xs generalizing seen with
  | nil => exact .slnil
  | cons x xs ih =>
    cases hx : φ x with
    | none => rw [firsts_cons_none hx]; exact (ih seen).cons x
    | some k =>
      by_cases hk : k ∈ seen
      · rw [firsts_cons_seen hx hk]; exact (ih seen).cons x
      · rw [firsts_cons_new hx hk]; exact (ih _).cons_cons x

theorem repeats_sublist (seen : List κ) (xs : List α) : (repeats φ seen xs).Sublist xs := by
  induction xs generalizing seen with
  | nil => exact .slnil
  | cons x xs ih =>
    cases hx : φ x with
    | none => rw [repeats_cons_none hx]; exact (ih seen).cons x
    | some k =>
      by_cases hk : k ∈ seen
      · rw [repeats_cons_seen hx hk]; exact (ih seen).cons_cons x
      · rw [repeats_cons_new hx hk]; exact (ih _).cons x

/-- The firsts have names that were not seen, and no name twice. -/
theorem firsts_keys (seen : List κ) (xs : List α) :
    ((firsts φ seen xs).filterMap φ).Nodup ∧
      ∀ x ∈ firsts φ seen xs, ∃ k, φ x = some k ∧ k ∉ seen := by
  induction xs generalizing seen with
  | nil => simp [firsts]
  | cons x xs ih =>
    cases hx : φ x with
    | none => rw [firsts_cons_none hx]; exact ih seen
    | some k =>
      by_cases hk : k ∈ seen
      · rw [firsts_cons_seen hx hk]; exact ih seen
      · rw [firsts_cons_new hx hk]
        obtain ⟨hnodup, hnew⟩ := ih (k :: seen)
        constructor
        · rw [List.filterMap_cons_some hx]
          refine List.nodup_cons.2 ⟨fun hmem => ?_, hnodup⟩
          obtain ⟨y, hy, hyk⟩ := List.mem_filterMap.1 hmem
          obtain ⟨j, hj, hjseen⟩ := hnew y hy
          exact hjseen (List.mem_cons.2 (.inl (Option.some.inj (hj.symm.trans hyk))))
        · intro y hy
          rcases List.mem_cons.1 hy with rfl | hy
          · exact ⟨k, hx, hk⟩
          · obtain ⟨j, hj, hjseen⟩ := hnew y hy
            exact ⟨j, hj, fun h => hjseen (List.mem_cons_of_mem _ h)⟩

/-- Among the firsts, no two have one name. -/
theorem firsts_unique {xs : List α} {y : α} (hx : x ∈ firsts φ seen xs)
    (hy : y ∈ firsts φ seen xs) (h : φ x = φ y) : y = x := by
  obtain ⟨hnodup, hnamed⟩ := firsts_keys (φ := φ) seen xs
  generalize firsts φ seen xs = zs at hnodup hnamed hx hy
  induction zs with
  | nil => cases hx
  | cons z zs ih =>
    obtain ⟨k, hk, -⟩ := hnamed z List.mem_cons_self
    rw [List.filterMap_cons_some hk, List.nodup_cons] at hnodup
    have hfresh {w : α} (hw : w ∈ zs) : φ w ≠ some k := fun hwk =>
      hnodup.1 (List.mem_filterMap.2 ⟨w, hw, hwk⟩)
    rcases List.mem_cons.1 hx with hxz | hxs
    · rcases List.mem_cons.1 hy with hyz | hys
      · exact hyz.trans hxz.symm
      · exact absurd (h.symm.trans (hxz ▸ hk)) (hfresh hys)
    · rcases List.mem_cons.1 hy with hyz | hys
      · exact absurd (h.trans (hyz ▸ hk)) (hfresh hxs)
      · exact ih hnodup.2 (fun w hw => hnamed w (List.mem_cons_of_mem _ hw)) hxs hys

/-- Among the firsts, a name that was not seen is found where it is found in the list. -/
theorem find?_firsts (hk : k ∉ seen) (xs : List α) :
    (firsts φ seen xs).find? (φ · = some k) = xs.find? (φ · = some k) := by
  induction xs generalizing seen with
  | nil => rfl
  | cons x xs ih =>
    cases hx : φ x with
    | none =>
      have hne : ¬ (decide (φ x = some k)) = true := by simp [hx]
      rw [firsts_cons_none hx, List.find?_cons_of_neg (p := (φ · = some k)) hne, ih hk]
    | some j =>
      by_cases hj : j ∈ seen
      · have hne : ¬ (decide (φ x = some k)) = true := by
          simp only [hx, decide_eq_true_eq, Option.some.injEq]
          exact fun h => hk (h ▸ hj)
        rw [firsts_cons_seen hx hj, List.find?_cons_of_neg (p := (φ · = some k)) hne, ih hk]
      · rw [firsts_cons_new hx hj]
        by_cases hjk : j = k
        · have heq : decide (φ x = some k) = true := by simp [hx, hjk]
          rw [List.find?_cons_of_pos (p := (φ · = some k)) heq,
            List.find?_cons_of_pos (p := (φ · = some k)) heq]
        · have hne : ¬ (decide (φ x = some k)) = true := by simp [hx, hjk]
          have hk' : k ∉ j :: seen := by
            rw [List.mem_cons]
            rintro (h | h)
            · exact hjk h.symm
            · exact hk h
          rw [List.find?_cons_of_neg (p := (φ · = some k)) hne,
            List.find?_cons_of_neg (p := (φ · = some k)) hne, ih hk']

/-- A repetition has its name in front of it. -/
theorem mem_repeats {xs : List α} :
    x ∈ repeats φ seen xs ↔ ∃ as bs k, xs = as ++ x :: bs ∧ φ x = some k ∧
      (k ∈ seen ∨ ∃ y ∈ as, φ y = some k) := by
  constructor
  · intro h
    induction xs generalizing seen with
    | nil => simp [repeats] at h
    | cons y ys ih =>
      cases hy : φ y with
      | none =>
        rw [repeats_cons_none hy] at h
        obtain ⟨as, bs, k, rfl, hk, hseen⟩ := ih h
        refine ⟨y :: as, bs, k, rfl, hk, hseen.imp_right ?_⟩
        exact fun ⟨z, hz, hzk⟩ => ⟨z, List.mem_cons_of_mem _ hz, hzk⟩
      | some j =>
        by_cases hj : j ∈ seen
        · rw [repeats_cons_seen hy hj] at h
          rcases List.mem_cons.1 h with rfl | h
          · exact ⟨[], ys, j, rfl, hy, .inl hj⟩
          · obtain ⟨as, bs, k, rfl, hk, hseen⟩ := ih h
            refine ⟨y :: as, bs, k, rfl, hk, hseen.imp_right ?_⟩
            exact fun ⟨z, hz, hzk⟩ => ⟨z, List.mem_cons_of_mem _ hz, hzk⟩
        · rw [repeats_cons_new hy hj] at h
          obtain ⟨as, bs, k, rfl, hk, hseen⟩ := ih h
          refine ⟨y :: as, bs, k, rfl, hk, ?_⟩
          rcases hseen with hseen | ⟨z, hz, hzk⟩
          · rcases List.mem_cons.1 hseen with rfl | hseen
            · exact .inr ⟨y, List.mem_cons_self, hy⟩
            · exact .inl hseen
          · exact .inr ⟨z, List.mem_cons_of_mem _ hz, hzk⟩
  · rintro ⟨as, bs, k, rfl, hk, hseen⟩
    rw [repeats_append]
    refine List.mem_append_right _ ?_
    rw [repeats_cons_seen hk]
    · exact List.mem_cons_self
    · rw [List.mem_append, List.mem_filterMap]
      exact hseen

/-! ### What is said about repetitions -/

/-- What is said about each repetition, in view of the first element of its name. -/
def complaints {δ : Type} (φ : α → Option κ) (say : Option α → α → δ) (xs : List α) : List δ :=
  (repeats φ [] xs).map fun x => say (xs.find? fun y => φ y = φ x) x

/-- The first element of a name that is there stays the first one. -/
theorem find?_key_push {xs : List α} (h : ∃ y ∈ xs, φ y = φ x) (z : α) :
    (xs ++ [z]).find? (fun y => φ y = φ x) = xs.find? fun y => φ y = φ x := by
  rw [List.find?_append]
  cases hfind : xs.find? fun y => decide (φ y = φ x) with
  | some _ => rfl
  | none =>
    obtain ⟨y, hy, hkey⟩ := h
    exact absurd (decide_eq_true hkey) (List.find?_eq_none.1 hfind y hy)

theorem complaints_push_new {δ : Type} (say : Option α → α → δ) {xs : List α}
    (h : ∀ k, φ x = some k → k ∉ xs.filterMap φ) :
    complaints φ say (xs ++ [x]) = complaints φ say xs := by
  have hsame : repeats φ [] (xs ++ [x]) = repeats φ [] xs := by
    rw [repeats_append]
    cases hk : φ x with
    | none => rw [repeats_cons_none hk]; exact List.append_nil _
    | some k => rw [List.nil_append, repeats_cons_new hk (h k hk)]; exact List.append_nil _
  unfold complaints
  rw [hsame]
  refine List.map_congr_left fun y hy => ?_
  rw [find?_key_push ⟨y, (repeats_sublist [] xs).subset hy, rfl⟩]

theorem complaints_push_seen {δ : Type} (say : Option α → α → δ) {xs : List α}
    (hk : φ x = some k) (h : k ∈ xs.filterMap φ) : complaints φ say (xs ++ [x]) =
      complaints φ say xs ++ [say (xs.find? fun y => φ y = φ x) x] := by
  obtain ⟨y, hy, hkey⟩ := List.mem_filterMap.1 h
  have hlast : repeats φ ([] ++ xs.filterMap φ) [x] = [x] := repeats_cons_seen hk h []
  unfold complaints
  rw [repeats_append, hlast, List.map_append, List.map_singleton,
    find?_key_push ⟨y, hy, hkey.trans hk.symm⟩]
  congr 1
  refine List.map_congr_left fun z hz => ?_
  rw [find?_key_push ⟨z, (repeats_sublist [] xs).subset hz, rfl⟩]

/-! ### Counting -/

/-- Whatever has a name is a first or a repetition. -/
theorem firsts_append_repeats_perm (seen : List κ) (xs : List α) :
    (firsts φ seen xs ++ repeats φ seen xs).Perm
      (xs.filter fun x => (φ x).isSome) := by
  induction xs generalizing seen with
  | nil => exact .nil
  | cons x xs ih =>
    cases hx : φ x with
    | none =>
      rw [firsts_cons_none hx, repeats_cons_none hx, List.filter_cons_of_neg (by simp [hx])]
      exact ih seen
    | some k =>
      rw [List.filter_cons_of_pos (by simp [hx])]
      by_cases hk : k ∈ seen
      · rw [firsts_cons_seen hx hk, repeats_cons_seen hx hk]
        exact List.perm_middle.trans ((ih seen).cons x)
      · rw [firsts_cons_new hx hk, repeats_cons_new hx hk]
        exact (ih _).cons x

/-- Of `n` elements of one name all but one are repetitions. -/
theorem countP_repeats (k : κ) (xs : List α) :
    (repeats φ [] xs).countP (φ · = some k) = xs.countP (φ · = some k) - 1 := by
  have hperm := (firsts_append_repeats_perm (φ := φ) [] xs).countP_eq (φ · = some k)
  have hnamed : (xs.filter fun x => (φ x).isSome).countP (φ · = some k) =
      xs.countP (φ · = some k) := by
    rw [List.countP_filter]
    refine List.countP_congr fun x _ => ?_
    simp only [Bool.and_eq_true, decide_eq_true_eq]
    exact ⟨And.left, fun h => ⟨h, by rw [h]; rfl⟩⟩
  have hcount : (firsts φ [] xs).countP (φ · = some k) =
      ((firsts φ [] xs).filterMap φ).count k := by
    rw [List.count, List.countP_filterMap]
    refine List.countP_congr fun x _ => ?_
    cases φ x <;> simp
  have hone := List.nodup_iff_count_le_one.1 (firsts_keys (φ := φ) [] xs).1 k
  have hsome : 0 < xs.countP (φ · = some k) →
      0 < (firsts φ [] xs).countP (φ · = some k) := by
    rw [List.countP_pos_iff, List.countP_pos_iff]
    rintro ⟨x, hx, hxk⟩
    cases hfind : xs.find? (φ · = some k) with
    | none => exact absurd hxk (List.find?_eq_none.1 hfind x hx)
    | some y =>
      have h := (find?_firsts List.not_mem_nil xs).trans hfind
      exact ⟨y, List.mem_of_find?_eq_some h, by simpa using List.find?_some h⟩
  rw [List.countP_append, hnamed] at hperm
  omega

/-! ### Piece by piece -/

/-- What is repeated is repeated inside the piece, or it is a first of the piece that was seen
before. -/
theorem repeats_perm (seen : List κ) (xs : List α) :
    (repeats φ seen xs).Perm (repeats φ [] xs ++
      (firsts φ [] xs).filter fun x => decide (∃ k ∈ seen, φ x = some k)) := by
  suffices h : ∀ inner : List κ, (repeats φ (inner ++ seen) xs).Perm (repeats φ inner xs ++
      (firsts φ inner xs).filter fun x => decide (∃ k ∈ seen, φ x = some k)) from h []
  induction xs with
  | nil => exact fun _ => .nil
  | cons x xs ih =>
    intro inner
    cases hx : φ x with
    | none =>
      rw [repeats_cons_none hx, repeats_cons_none hx, firsts_cons_none hx]
      exact ih inner
    | some k =>
      by_cases hinner : k ∈ inner
      · rw [repeats_cons_seen hx (List.mem_append_left _ hinner), repeats_cons_seen hx hinner,
          firsts_cons_seen hx hinner]
        exact (ih inner).cons x
      · rw [repeats_cons_new hx hinner, firsts_cons_new hx hinner]
        by_cases hk : k ∈ seen
        · have hpos : decide (∃ j ∈ seen, φ x = some j) = true := decide_eq_true ⟨k, hk, hx⟩
          have hsame : repeats φ (inner ++ seen) xs = repeats φ (k :: inner ++ seen) xs := by
            refine repeats_congr (fun j => ?_) xs
            rw [List.cons_append, List.mem_cons]
            exact ⟨.inr, fun h => h.elim (fun h => h ▸ List.mem_append_right _ hk) id⟩
          rw [repeats_cons_seen hx (List.mem_append_right _ hk), List.filter_cons_of_pos
            (p := fun x => decide (∃ k ∈ seen, φ x = some k)) hpos, hsame]
          exact ((ih (k :: inner)).cons x).trans List.perm_middle.symm
        · have hneg : ¬ decide (∃ j ∈ seen, φ x = some j) = true := by
            simp only [hx, decide_eq_true_eq, Option.some.injEq]
            exact fun ⟨j, hj, hkj⟩ => hk (hkj ▸ hj)
          have hnew : k ∉ inner ++ seen := by
            rw [List.mem_append]
            exact fun h => h.elim hinner hk
          rw [repeats_cons_new hx hnew, List.filter_cons_of_neg
            (p := fun x => decide (∃ k ∈ seen, φ x = some k)) hneg]
          exact ih (k :: inner)

/-- Reading the firsts alone, nothing is repeated. -/
theorem repeats_firsts (seen : List κ) (xs : List α) :
    repeats φ seen (firsts φ seen xs) = [] := by
  induction xs generalizing seen with
  | nil => rfl
  | cons x xs ih =>
    cases hx : φ x with
    | none => rw [firsts_cons_none hx, ih]
    | some k =>
      by_cases hk : k ∈ seen
      · rw [firsts_cons_seen hx hk, ih]
      · rw [firsts_cons_new hx hk, repeats_cons_new hx hk, ih]

theorem firsts_firsts (seen : List κ) (xs : List α) :
    firsts φ seen (firsts φ seen xs) = firsts φ seen xs := by
  induction xs generalizing seen with
  | nil => rfl
  | cons x xs ih =>
    cases hx : φ x with
    | none => rw [firsts_cons_none hx, ih]
    | some k =>
      by_cases hk : k ∈ seen
      · rw [firsts_cons_seen hx hk, ih]
      · rw [firsts_cons_new hx hk, firsts_cons_new hx hk, ih]

/-- Every name has a first one. -/
theorem mem_filterMap_firsts (xs : List α) :
    k ∈ (firsts φ [] xs).filterMap φ ↔ k ∈ xs.filterMap φ := by
  have h := find?_firsts (φ := φ) (k := k) List.not_mem_nil xs
  have hfound (ys : List α) : k ∈ ys.filterMap φ ↔ (ys.find? (φ · = some k)).isSome = true := by
    rw [List.find?_isSome, List.mem_filterMap]
    simp only [decide_eq_true_eq]
  rw [hfound, hfound, h]

/-- What is repeated in many pieces is repeated inside one of them, or it is a first of its piece
that is repeated among the firsts. -/
theorem repeats_flatMap_perm (g : β → List α) (seen : List κ) (ys : List β) :
    (repeats φ seen (ys.flatMap g)).Perm ((ys.flatMap fun y => repeats φ [] (g y)) ++
      repeats φ seen (ys.flatMap fun y => firsts φ [] (g y))) := by
  induction ys generalizing seen with
  | nil => exact .nil
  | cons y ys ih =>
    have hkeys (zs : List α) : repeats φ (seen ++ (firsts φ [] (g y)).filterMap φ) zs =
        repeats φ (seen ++ (g y).filterMap φ) zs := by
      refine repeats_congr (fun k => ?_) zs
      rw [List.mem_append, List.mem_append, mem_filterMap_firsts]
    have hfirsts := repeats_perm (φ := φ) seen (firsts φ [] (g y))
    rw [repeats_firsts, firsts_firsts, List.nil_append] at hfirsts
    rw [List.flatMap_cons, List.flatMap_cons, List.flatMap_cons, repeats_append, repeats_append,
      hkeys]
    have hpiece := (repeats_perm seen (g y)).trans (hfirsts.symm.append_left _)
    refine (hpiece.append (ih _)).trans ?_
    rw [List.append_assoc, List.append_assoc]
    refine List.Perm.append_left _ ?_
    rw [← List.append_assoc, ← List.append_assoc]
    exact List.Perm.append_right _ List.perm_append_comm

/-! ### Names of one sort -/

section OneSort

variable {p : α → Bool} (hp : ∀ x y, φ x ≠ none → φ x = φ y → p x = p y)
include hp

/-- The first one of a name of some sort is the first one among those of its sort. -/
theorem filter_firsts (seen : List κ) (xs : List α) :
    (firsts φ seen xs).filter p = firsts φ seen (xs.filter p) := by
  induction xs generalizing seen with
  | nil => rfl
  | cons x xs ih =>
    cases hx : φ x with
    | none =>
      rw [firsts_cons_none hx, ih]
      cases hpx : p x with
      | true => rw [List.filter_cons_of_pos hpx, firsts_cons_none hx]
      | false => rw [List.filter_cons_of_neg (by simp [hpx])]
    | some k =>
      have hsort {y : α} (hy : φ y = some k) : p y = p x :=
        (hp x y (by simp [hx]) (hx.trans hy.symm)).symm
      by_cases hk : k ∈ seen
      · rw [firsts_cons_seen hx hk, ih]
        cases hpx : p x with
        | true => rw [List.filter_cons_of_pos hpx, firsts_cons_seen hx hk]
        | false => rw [List.filter_cons_of_neg (by simp [hpx])]
      · rw [firsts_cons_new hx hk]
        cases hpx : p x with
        | true =>
          rw [List.filter_cons_of_pos hpx, List.filter_cons_of_pos hpx, firsts_cons_new hx hk, ih]
        | false =>
          -- what was seen of another sort does not matter
          rw [List.filter_cons_of_neg (by simp [hpx]), List.filter_cons_of_neg (by simp [hpx]), ih]
          refine firsts_congr_of_mem fun y hy j hj => ?_
          have hpy := (List.mem_filter.1 hy).2
          rw [List.mem_cons]
          refine ⟨fun h => h.resolve_left ?_, .inr⟩
          rintro rfl
          rw [hsort hj, hpx] at hpy
          cases hpy

/-- Names of one sort are repeated as if there were no others. -/
theorem filter_repeats (seen : List κ) (xs : List α) :
    (repeats φ seen xs).filter p = repeats φ seen (xs.filter p) := by
  induction xs generalizing seen with
  | nil => rfl
  | cons x xs ih =>
    cases hx : φ x with
    | none =>
      rw [repeats_cons_none hx, ih]
      cases hpx : p x with
      | true => rw [List.filter_cons_of_pos hpx, repeats_cons_none hx]
      | false => rw [List.filter_cons_of_neg (by simp [hpx])]
    | some k =>
      have hsort {y : α} (hy : φ y = some k) : p y = p x :=
        (hp x y (by simp [hx]) (hx.trans hy.symm)).symm
      by_cases hk : k ∈ seen
      · rw [repeats_cons_seen hx hk]
        cases hpx : p x with
        | true =>
          rw [List.filter_cons_of_pos hpx, List.filter_cons_of_pos hpx, repeats_cons_seen hx hk, ih]
        | false => rw [List.filter_cons_of_neg (by simp [hpx]), List.filter_cons_of_neg (by simp [hpx]), ih]
      · rw [repeats_cons_new hx hk, ih]
        cases hpx : p x with
        | true => rw [List.filter_cons_of_pos hpx, repeats_cons_new hx hk]
        | false =>
          rw [List.filter_cons_of_neg (by simp [hpx])]
          refine repeats_congr_of_mem fun y hy j hj => ?_
          have hpy := (List.mem_filter.1 hy).2
          rw [List.mem_cons]
          refine ⟨fun h => h.resolve_left ?_, .inr⟩
          rintro rfl
          rw [hsort hj, hpx] at hpy
          cases hpy

end OneSort

/-! ### Lists of other things -/

theorem firsts_map (f : β → α) (seen : List κ) (xs : List β) :
    firsts φ seen (xs.map f) = (firsts (φ ∘ f) seen xs).map f := by
  induction xs generalizing seen with
  | nil => rfl
  | cons x xs ih =>
    rw [List.map_cons]
    cases hx : φ (f x) with
    | none => rw [firsts_cons_none hx, firsts_cons_none (φ := φ ∘ f) hx, ih]
    | some k =>
      by_cases hk : k ∈ seen
      · rw [firsts_cons_seen hx hk, firsts_cons_seen (φ := φ ∘ f) hx hk, ih]
      · rw [firsts_cons_new hx hk, firsts_cons_new (φ := φ ∘ f) hx hk, ih, List.map_cons]

theorem repeats_map (f : β → α) (seen : List κ) (xs : List β) :
    repeats φ seen (xs.map f) = (repeats (φ ∘ f) seen xs).map f := by
  induction xs generalizing seen with
  | nil => rfl
  | cons x xs ih =>
    rw [List.map_cons]
    cases hx : φ (f x) with
    | none => rw [repeats_cons_none hx, repeats_cons_none (φ := φ ∘ f) hx, ih]
    | some k =>
      by_cases hk : k ∈ seen
      · rw [repeats_cons_seen hx hk, repeats_cons_seen (φ := φ ∘ f) hx hk, ih, List.map_cons]
      · rw [repeats_cons_new hx hk, repeats_cons_new (φ := φ ∘ f) hx hk, ih]

/-! ### Names of another form -/

section Renamed

variable {κ' : Type} [DecidableEq κ'] {ψ : α → Option κ'} {f : κ → κ'}
  (hf : ∀ a b, f a = f b → a = b)
include hf

/-- How names are written does not matter. -/
theorem firsts_renamed (seen : List κ) {xs : List α} (h : ∀ x ∈ xs, ψ x = (φ x).map f) :
    firsts ψ (seen.map f) xs = firsts φ seen xs := by
  induction xs generalizing seen with
  | nil => rfl
  | cons x xs ih =>
    have hx := h x List.mem_cons_self
    have htail (y : α) (hy : y ∈ xs) := h y (List.mem_cons_of_mem x hy)
    cases hk : φ x with
    | none =>
      rw [hk] at hx
      rw [firsts_cons_none hx, firsts_cons_none hk, ih seen htail]
    | some k =>
      rw [hk] at hx
      by_cases hseen : k ∈ seen
      · rw [firsts_cons_seen hx (List.mem_map_of_mem hseen), firsts_cons_seen hk hseen,
          ih seen htail]
      · have hnew : f k ∉ seen.map f := fun hmem => by
          obtain ⟨j, hj, hjk⟩ := List.mem_map.1 hmem
          exact hseen (hf j k hjk ▸ hj)
        rw [firsts_cons_new hx hnew, firsts_cons_new hk hseen, ← ih (k :: seen) htail]
        rfl

theorem repeats_renamed (seen : List κ) {xs : List α} (h : ∀ x ∈ xs, ψ x = (φ x).map f) :
    repeats ψ (seen.map f) xs = repeats φ seen xs := by
  induction xs generalizing seen with
  | nil => rfl
  | cons x xs ih =>
    have hx := h x List.mem_cons_self
    have htail (y : α) (hy : y ∈ xs) := h y (List.mem_cons_of_mem x hy)
    cases hk : φ x with
    | none =>
      rw [hk] at hx
      rw [repeats_cons_none hx, repeats_cons_none hk, ih seen htail]
    | some k =>
      rw [hk] at hx
      by_cases hseen : k ∈ seen
      · rw [repeats_cons_seen hx (List.mem_map_of_mem hseen), repeats_cons_seen hk hseen,
          ih seen htail]
      · have hnew : f k ∉ seen.map f := fun hmem => by
          obtain ⟨j, hj, hjk⟩ := List.mem_map.1 hmem
          exact hseen (hf j k hjk ▸ hj)
        rw [repeats_cons_new hx hnew, repeats_cons_new hk hseen, ← ih (k :: seen) htail]
        rfl

end Renamed

end Idl
