/-
Idl/Proofs/Mirrors.lean

Steps in two states side by side.

`Mirrors f φ m n` says that the step `n`, run in the state that `f` makes of a state, does what `m` does
in the state itself: it ends in what `f` makes of the state after `m`, and answers with `φ` of the
answer of `m`.  Steps that mirror each other do so when they are put together, and when they are
repeated, as long as `f` keeps the number of tokens that are left (`Mirrors.iterate`).
-/
import Idl.Syntax.State

namespace Idl

namespace Parse

/-- `n` does in the states that `f` gives what `m` does, and answers with `φ` of its answer. -/
def Mirrors {α β : Type} (f : ParseState → ParseState) (φ : α → β) (m : Parse α) (n : Parse β) :
    Prop :=
  ∀ s, n (f s) = (φ (m s).1, f (m s).2)

namespace Mirrors

variable {f : ParseState → ParseState} {α β γ δ : Type} {φ : α → β} {ψ : γ → δ}

protected theorem pure {a : α} {b : β} (h : φ a = b) : Mirrors f φ (pure a) (pure b) := by
  subst h
  exact fun _ => rfl

protected theorem bind {m : Parse α} {n : Parse β} {k : α → Parse γ} {l : β → Parse δ}
    (hm : Mirrors f φ m n) (hk : ∀ a, Mirrors f ψ (k a) (l (φ a))) :
    Mirrors f ψ (m >>= k) (n >>= l) := by
  intro s
  show l (n (f s)).1 (n (f s)).2 = _
  rw [hm s]
  exact hk (m s).1 (m s).2

/-- The first step answers the same in both states. -/
protected theorem bind_id {m n : Parse α} {k : α → Parse γ} {l : α → Parse δ}
    (hm : Mirrors f id m n) (hk : ∀ a, Mirrors f ψ (k a) (l a)) : Mirrors f ψ (m >>= k) (n >>= l) :=
  hm.bind hk

protected theorem map {m : Parse α} {n : Parse β} {k : α → γ} {l : β → δ} (hm : Mirrors f φ m n)
    (hkl : ∀ a, l (φ a) = ψ (k a)) : Mirrors f ψ (k <$> m) (l <$> n) := by
  intro s
  show (l (n (f s)).1, (n (f s)).2) = _
  rw [hm s, hkl]
  rfl

/-- Both steps decide alike. -/
protected theorem ite {c : Prop} [Decidable c] {m m' : Parse α} {n n' : Parse β}
    (hm : Mirrors f φ m n) (hm' : Mirrors f φ m' n') :
    Mirrors f φ (if c then m else m') (if c then n else n') := by
  split
  · exact hm
  · exact hm'

/-- Both repetitions stop together, since the number of tokens left is the same. -/
protected theorem iterate {step : α → Parse (Option α)} {step' : β → Parse (Option β)}
    (hleft : ∀ s, (f s).left.length = s.left.length)
    (h : ∀ a, Mirrors f (Option.map φ) (step a) (step' (φ a))) {a : α} {b : β} (hab : φ a = b) :
    Mirrors f φ (iterate step a) (iterate step' b) := by
  subst hab
  intro s
  fun_induction iterate step a s with
  | case1 a s t hs =>
    rw [iterate, h a s, hs]
    rfl
  | case2 a s a' t hs hlt ih =>
    rw [← hleft t, ← hleft s] at hlt
    rw [iterate, h a s, hs]
    simp only [Option.map_some]
    rw [if_pos hlt, ih]
  | case3 a s a' t hs hlt =>
    rw [← hleft t, ← hleft s] at hlt
    rw [iterate, h a s, hs]
    simp only [Option.map_some]
    rw [if_neg hlt]

/-- The same step for each of several things. -/
protected theorem forM {k : α → Parse Unit} {l : β → Parse Unit}
    (h : ∀ a, Mirrors f id (k a) (l (φ a))) (as : List α) :
    Mirrors f id (as.forM k) ((as.map φ).forM l) := by
  induction as with
  | nil => exact .pure rfl
  | cons a as ih => exact (h a).bind fun _ => ih

end Mirrors

end Parse

end Idl
