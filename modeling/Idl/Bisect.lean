/-
Idl/Bisect.lean

Searching a sorted array by halving.

`bisect p xs` is the number of leading elements of `xs` that satisfy `p`, provided no
element that satisfies `p` stands after one that does not.  The search looks at
logarithmically many elements; `bisect_eq` says that it nevertheless answers like a scan
from the left.
-/

namespace Idl

/-! ### The search -/

/-- Narrows the answer of `bisect` down to the interval from `lo` to `hi`. -/
def bisectIn {α : Type} (p : α → Bool) (xs : Array α) (lo hi : Nat) (h : hi ≤ xs.size) : Nat :=
  if hlt : lo < hi then
    let mid := (lo + hi) / 2
    have hmid : mid < xs.size := by omega
    if p xs[mid] then bisectIn p xs (mid + 1) hi h
    else bisectIn p xs lo mid (by omega)
  else lo
termination_by hi - lo

/-- The number of leading elements that satisfy `p`. -/
def bisect {α : Type} (p : α → Bool) (xs : Array α) : Nat :=
  bisectIn p xs 0 xs.size (Nat.le_refl _)

/-! ### What it finds -/

/-- `p` holds on the elements before `k` and on none from `k` on. -/
def SplitsAt {α : Type} (p : α → Bool) (xs : Array α) (k : Nat) : Prop :=
  k ≤ xs.size ∧ ∀ i (h : i < xs.size), p xs[i] = true ↔ i < k

theorem bisectIn_eq {α : Type} {p : α → Bool} {xs : Array α} {k : Nat} (hk : SplitsAt p xs k)
    (lo hi : Nat) (h : hi ≤ xs.size) (hlo : lo ≤ k) (hhi : k ≤ hi) :
    bisectIn p xs lo hi h = k := by
  fun_induction bisectIn p xs lo hi h with
  | case1 lo hi h hlt mid hmid hp ih =>
    have := (hk.2 mid (by omega)).1 hp
    exact ih (by omega) hhi
  | case2 lo hi h hlt mid hmid hp ih =>
    have : ¬ mid < k := fun hm => hp ((hk.2 mid (by omega)).2 hm)
    exact ih hlo (by omega)
  | case3 lo hi h hlt => omega

/-- The search answers like a scan from the left. -/
theorem bisect_eq {α : Type} {p : α → Bool} {xs : Array α} {k : Nat} (hk : SplitsAt p xs k) :
    bisect p xs = k :=
  bisectIn_eq hk 0 xs.size _ (Nat.zero_le _) hk.1

theorem bisectIn_le {α : Type} (p : α → Bool) (xs : Array α) (lo hi : Nat) (h : hi ≤ xs.size)
    (hlo : lo ≤ hi) : bisectIn p xs lo hi h ≤ hi := by
  fun_induction bisectIn p xs lo hi h with
  | case1 lo hi h hlt mid hmid hp ih => exact ih (by omega)
  | case2 lo hi h hlt mid hmid hp ih => have := ih (by omega); omega
  | case3 lo hi h hlt => exact hlo

theorem bisect_le_size {α : Type} (p : α → Bool) (xs : Array α) : bisect p xs ≤ xs.size :=
  bisectIn_le p xs 0 xs.size _ (Nat.zero_le _)

end Idl
