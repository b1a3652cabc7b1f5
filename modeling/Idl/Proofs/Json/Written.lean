/-
Idl/Proofs/Json/Written.lean

JSON values that are written.

A value is `Written` if its strings are texts and its numbers natural ones of 64 bits.  How deep it
nests is bounded by what stands in it (`depth_array_le`, `depth_ofFields_le`), and a written value
is fit to be read as a whole wherever it does not nest too deep (`Written.fits`).
-/
import Idl.Proofs.Json.Digits

namespace Idl

/-! ### Written values -/

/-- A value whose strings are texts and whose numbers are natural ones of 64 bits. -/
inductive Json.Written : Json → Prop
  | null : Written .null
  | bool (b : Bool) : Written (.bool b)
  | number {n : Nat} (h : n < UInt64.size) : Written (.ofNat n)
  | text (s : String) : Written (.ofString s)
  | array {xs : List Json} (h : ∀ x ∈ xs, Written x) : Written (.array xs)
  | object {ms : List (JsonText × Json)} (hk : ∀ m ∈ ms, m.1.isSome = true)
      (h : ∀ m ∈ ms, Written m.2) : Written (.object ms)

namespace Json

variable {j : Json}

theorem Written.ofFields {fields : List (String × Json)} (h : ∀ f ∈ fields, Written f.2) :
    Written (.ofFields fields) := by
  refine .object (fun m hm => ?_) fun m hm => ?_
  · obtain ⟨f, -, rfl⟩ := List.mem_map.1 hm
    rfl
  · obtain ⟨f, hf, rfl⟩ := List.mem_map.1 hm
    exact h f hf

/-! ### Nesting -/

theorem depthItems_le {xs : List Json} {n : Nat} :
    depthItems xs ≤ n ↔ ∀ x ∈ xs, x.depth ≤ n := by
  induction xs with
  | nil => simp [depthItems]
  | cons x xs ih => rw [depthItems, Nat.max_le, ih, List.forall_mem_cons]

theorem depthMembers_le {ms : List (JsonText × Json)} {n : Nat} :
    depthMembers ms ≤ n ↔ ∀ m ∈ ms, m.2.depth ≤ n := by
  induction ms with
  | nil => simp [depthMembers]
  | cons m ms ih => rw [depthMembers, Nat.max_le, ih, List.forall_mem_cons]

/-- An array takes one level more than its items. -/
theorem depth_array_le {xs : List Json} {n : Nat} :
    (array xs).depth ≤ n + 1 ↔ ∀ x ∈ xs, x.depth ≤ n := by
  rw [depth, Nat.add_le_add_iff_right, depthItems_le]

/-- An object takes one level more than its members. -/
theorem depth_object_le {ms : List (JsonText × Json)} {n : Nat} :
    (object ms).depth ≤ n + 1 ↔ ∀ m ∈ ms, m.2.depth ≤ n := by
  rw [depth, Nat.add_le_add_iff_right, depthMembers_le]

theorem depth_ofFields_le {fields : List (String × Json)} {n : Nat} :
    (ofFields fields).depth ≤ n + 1 ↔ ∀ f ∈ fields, f.2.depth ≤ n := by
  rw [ofFields, depth_object_le]
  simp only [List.forall_mem_map]

theorem fitsItems_iff {xs : List Json} {n : Nat} :
    fitsItems n xs = true ↔ ∀ x ∈ xs, x.fits n = true := by
  induction xs with
  | nil => simp [fitsItems]
  | cons x xs ih => rw [fitsItems, Bool.and_eq_true, ih, List.forall_mem_cons]

theorem fitsMembers_iff {ms : List (JsonText × Json)} {n : Nat} :
    fitsMembers n ms = true ↔ ∀ m ∈ ms, m.1.isSome = true ∧ m.2.fits n = true := by
  induction ms with
  | nil => simp [fitsMembers]
  | cons m ms ih => rw [fitsMembers, Bool.and_eq_true, Bool.and_eq_true, ih, List.forall_mem_cons]

/-- A written value is fit to be read as a whole if it does not nest too deep. -/
theorem Written.fits (h : j.Written) {levels : Nat} (hd : j.depth ≤ levels) :
    j.fits levels = true := by
  induction h generalizing levels with
  | null => rfl
  | bool b => rfl
  | number h => exact numberFits_toString h
  | text s => rfl
  | array h ih =>
    cases levels with
    | zero => exact absurd hd (Nat.not_succ_le_zero _)
    | succ levels =>
      exact fitsItems_iff.2 fun x hx => ih x hx (depth_array_le.1 hd x hx)
  | object hk h ih =>
    cases levels with
    | zero => exact absurd hd (Nat.not_succ_le_zero _)
    | succ levels =>
      exact fitsMembers_iff.2 fun m hm => ⟨hk m hm, ih m hm (depth_object_le.1 hd m hm)⟩

end Json

end Idl
