/-
Idl/Proofs/Sorting.lean

Sorting that keeps the order of equals.

What is sorted depends only on the order in which elements of equal rank come
(`mergeSort_eq_of_filter`): two lists in which every rank has the same elements in the same order
are sorted alike, however the ranks are mixed.  Where no two elements have the same rank, only the
elements count (`mergeSort_eq_of_perm`).
-/
import Mathlib.Data.List.Perm.Basic

namespace Idl

variable {α : Type} {le : α → α → Bool}

/-- The sorted list is the only sorted one, if elements of the same rank are equal. -/
theorem mergeSort_eq_of_perm (trans : ∀ a b c, le a b = true → le b c = true → le a c = true)
    (total : ∀ a b, (le a b || le b a) = true) {xs ys : List α} (hperm : xs.Perm ys)
    (hsorted : ys.Pairwise fun a b => le a b = true)
    (antisymm : ∀ a ∈ xs, ∀ b ∈ xs, le a b = true → le b a = true → a = b) :
    xs.mergeSort le = ys := by
  have h : (xs.mergeSort le).Perm ys := (List.mergeSort_perm xs le).trans hperm
  refine h.eq_of_pairwise (fun a b ha hb hab hba => ?_) (List.pairwise_mergeSort trans total xs)
    hsorted
  exact antisymm a (List.mem_mergeSort.1 ha) b (hperm.mem_iff.2 hb) hab hba

/-- Two elements have the same rank. -/
def ranksAlike (le : α → α → Bool) (a b : α) : Bool := le a b && le b a

/-- Sorting keeps the order of elements of one rank. -/
theorem filter_mergeSort (trans : ∀ a b c, le a b = true → le b c = true → le a c = true)
    (total : ∀ a b, (le a b || le b a) = true) (a : α) (xs : List α) :
    (xs.mergeSort le).filter (ranksAlike le a) = xs.filter (ranksAlike le a) := by
  have halike : (xs.filter (ranksAlike le a)).Pairwise fun b c => le b c = true := by
    refine List.pairwise_of_forall_mem_list fun b hb c hc => ?_
    have hb := (Bool.and_eq_true_iff.1 (List.mem_filter.1 hb).2).2
    have hc := (Bool.and_eq_true_iff.1 (List.mem_filter.1 hc).2).1
    exact trans b a c hb hc
  -- the sort is stable, so those of one rank stay a sublist, and none of them is lost
  have hsub := (List.sublist_mergeSort trans total halike List.filter_sublist).filter (ranksAlike le a)
  have hlength := (List.Perm.filter (ranksAlike le a) (List.mergeSort_perm xs le)).length_eq
  rw [List.filter_filter] at hsub
  simp only [Bool.and_self] at hsub
  exact (hsub.eq_of_length hlength.symm).symm

/-- Sorted lists with the same elements at every rank are equal. -/
theorem eq_of_filter_eq (total : ∀ a b, (le a b || le b a) = true) {xs ys : List α}
    (hxs : xs.Pairwise fun a b => le a b = true) (hys : ys.Pairwise fun a b => le a b = true)
    (h : ∀ a, xs.filter (ranksAlike le a) = ys.filter (ranksAlike le a)) : xs = ys := by
  have hself (a : α) : ranksAlike le a a = true := by
    have := total a a
    rw [Bool.or_self] at this
    simp [ranksAlike, this]
  induction xs generalizing ys with
  | nil =>
    cases ys with
    | nil => rfl
    | cons y ys =>
      have hy := h y
      rw [List.filter_cons_of_pos (hself y)] at hy
      cases hy
  | cons x xs ih =>
    cases ys with
    | nil =>
      have hx := h x
      rw [List.filter_cons_of_pos (hself x)] at hx
      cases hx
    | cons y ys =>
      obtain ⟨hx, hxs'⟩ := List.pairwise_cons.1 hxs
      obtain ⟨hy, hys'⟩ := List.pairwise_cons.1 hys
      have hmem {a b : α} {as bs : List α}
          (hab : (a :: as).filter (ranksAlike le a) = (b :: bs).filter (ranksAlike le a)) :
          a ∈ b :: bs := by
        have ha : a ∈ (b :: bs).filter (ranksAlike le a) :=
          hab ▸ List.mem_filter.2 ⟨List.mem_cons_self, hself a⟩
        exact (List.mem_filter.1 ha).1
      have hle {a b : α} {bs : List α} (hb : ∀ c ∈ bs, le b c = true) (ha : a ∈ b :: bs) :
          le b a = true := by
        rcases List.mem_cons.1 ha with rfl | ha
        · exact (Bool.and_eq_true_iff.1 (hself a)).1
        · exact hb a ha
      -- each of the two first elements comes in the other list, so neither is less than the other
      have halike : ranksAlike le x y = true :=
        Bool.and_eq_true_iff.2 ⟨hle hx (hmem (h y).symm), hle hy (hmem (h x))⟩
      have hfirst := h x
      rw [List.filter_cons_of_pos (hself x), List.filter_cons_of_pos halike] at hfirst
      obtain ⟨rfl, -⟩ := List.cons.inj hfirst
      refine congrArg (x :: ·) (ih hxs' hys' fun a => ?_)
      have ha := h a
      cases hax : ranksAlike le a x with
      | true =>
        rw [List.filter_cons_of_pos hax, List.filter_cons_of_pos hax] at ha
        exact (List.cons.inj ha).2
      | false =>
        rwa [List.filter_cons_of_neg (by simp [hax]), List.filter_cons_of_neg (by simp [hax])] at ha

/-- Lists with the same elements in the same order at every rank are sorted alike. -/
theorem mergeSort_eq_of_filter (trans : ∀ a b c, le a b = true → le b c = true → le a c = true)
    (total : ∀ a b, (le a b || le b a) = true) {xs ys : List α}
    (h : ∀ a, xs.filter (ranksAlike le a) = ys.filter (ranksAlike le a)) :
    xs.mergeSort le = ys.mergeSort le := by
  refine eq_of_filter_eq total (List.pairwise_mergeSort trans total xs)
    (List.pairwise_mergeSort trans total ys) fun a => ?_
  rw [filter_mergeSort trans total, filter_mergeSort trans total, h a]

/-! ### By two numbers -/

/-- Elements in the order of one number, and of another one where that is the same. -/
def lexLe (f g : α → Nat) (a b : α) : Bool :=
  decide (f a < f b) || (decide (f a = f b) && decide (g a ≤ g b))

variable {f g : α → Nat} {a b c : α}

theorem lexLe_iff : lexLe f g a b = true ↔ f a < f b ∨ f a = f b ∧ g a ≤ g b := by
  simp [lexLe]

theorem lexLe_trans (a b c : α) (h : lexLe f g a b = true) (h' : lexLe f g b c = true) :
    lexLe f g a c = true := by
  rw [lexLe_iff] at *
  omega

theorem lexLe_total (a b : α) : (lexLe f g a b || lexLe f g b a) = true := by
  rw [Bool.or_eq_true, lexLe_iff, lexLe_iff]
  omega

theorem lexLe_antisymm (h : lexLe f g a b = true) (h' : lexLe f g b a = true) :
    f a = f b ∧ g a = g b := by
  rw [lexLe_iff] at *
  omega

end Idl
