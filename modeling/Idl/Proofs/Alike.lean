/-
Idl/Proofs/Alike.lean

Two runs of steps, side by side.

`Alike R S Q m n` says that the steps `m` and `n`, run in states that `R` relates, end in states that
`S` relates, with answers that `Q` relates.  Nothing is said of how one state is made from the other, so
the two runs may disagree on anything that `R` and `S` leave open.  Steps that are alike stay so when
they are put together (`Alike.bind`), and when they are repeated, as long as the related states have as
many tokens left as one another (`Alike.iterate`).
-/
import Idl.Syntax.State

namespace Idl

/-- The steps `m` and `n` lead from related states to related states and answers. -/
def Alike {σ α β : Type} (R S : σ → σ → Prop) (Q : α → β → Prop) (m : StateM σ α)
    (n : StateM σ β) : Prop :=
  ∀ s s', R s s' → Q (m s).1 (n s').1 ∧ S (m s).2 (n s').2

namespace Alike

variable {σ α β γ δ : Type} {R R' S T : σ → σ → Prop} {Q : α → β → Prop} {P : γ → δ → Prop}

protected theorem pure {a : α} {b : β} (h : Q a b) : Alike R R Q (pure a) (pure b) :=
  fun _ _ hs => ⟨h, hs⟩

protected theorem bind {m : StateM σ α} {n : StateM σ β} {k : α → StateM σ γ} {l : β → StateM σ δ}
    (hm : Alike R S Q m n) (hk : ∀ a b, Q a b → Alike S T P (k a) (l b)) :
    Alike R T P (m >>= k) (n >>= l) := by
  intro s s' hs
  obtain ⟨hanswer, hstate⟩ := hm s s' hs
  exact hk _ _ hanswer _ _ hstate

/-- The second answer is a function of the first one. -/
protected theorem next {φ : α → β} {m : StateM σ α} {n : StateM σ β} {k : α → StateM σ γ}
    {l : β → StateM σ δ} (hm : Alike R S (fun a b => b = φ a) m n)
    (hk : ∀ a, Alike S T P (k a) (l (φ a))) : Alike R T P (m >>= k) (n >>= l) := by
  refine hm.bind fun a b hb => ?_
  rw [hb]
  exact hk a

/-- Both steps answer the same. -/
protected theorem next_id {m n : StateM σ α} {k : α → StateM σ γ} {l : α → StateM σ δ}
    (hm : Alike R S (fun a b => b = id a) m n) (hk : ∀ a, Alike S T P (k a) (l a)) :
    Alike R T P (m >>= k) (n >>= l) := hm.next hk

protected theorem map {m : StateM σ α} {n : StateM σ β} {k : α → γ} {l : β → δ}
    (hm : Alike R S Q m n) (hkl : ∀ a b, Q a b → P (k a) (l b)) :
    Alike R S P (k <$> m) (l <$> n) := by
  intro s s' hs
  obtain ⟨hanswer, hstate⟩ := hm s s' hs
  exact ⟨hkl _ _ hanswer, hstate⟩

/-- Both steps decide alike. -/
protected theorem ite {c : Prop} [Decidable c] {m m' : StateM σ α} {n n' : StateM σ β}
    (hm : Alike R S Q m n) (hm' : Alike R S Q m' n') :
    Alike R S Q (if c then m else m') (if c then n else n') := by
  split
  · exact hm
  · exact hm'

/-- More may be known of the states in which the steps start. -/
protected theorem weaken {m : StateM σ α} {n : StateM σ β} (hm : Alike R S Q m n)
    (h : ∀ s s', R' s s' → R s s') : Alike R' S Q m n :=
  fun s s' hs => hm s s' (h s s' hs)

/-- The states themselves are related. -/
protected theorem get : Alike R R R get get := fun _ _ hs => ⟨hs, hs⟩

protected theorem set {s s' : σ} (h : S s s') :
    Alike R S (fun a b => b = id a) (set s) (set s') := fun _ _ _ => ⟨rfl, h⟩

protected theorem modify {f g : σ → σ} (h : ∀ s s', R s s' → S (f s) (g s')) :
    Alike R S (fun a b => b = id a) (modify f) (modify g) :=
  fun s s' hs => ⟨rfl, h s s' hs⟩

/-- The same step for each of several things. -/
protected theorem forM {k : α → StateM σ PUnit} {l : β → StateM σ PUnit} {φ : α → β}
    (h : ∀ a, Alike R R (fun a b => b = id a) (k a) (l (φ a))) (as : List α) :
    Alike R R (fun a b => b = id a) (as.forM k) ((as.map φ).forM l) := by
  induction as with
  | nil => exact .pure rfl
  | cons a as ih => exact (h a).next_id fun _ => ih

/-- The same step for each of several things, from what the ones before made. -/
protected theorem foldlM {k : γ → α → StateM σ γ} {l : δ → β → StateM σ δ} {φ : α → β}
    (h : ∀ c d, P c d → ∀ a, Alike R R P (k c a) (l d (φ a))) (as : List α) {c : γ} {d : δ}
    (hcd : P c d) : Alike R R P (as.foldlM k c) ((as.map φ).foldlM l d) := by
  induction as generalizing c d with
  | nil => exact .pure hcd
  | cons a as ih =>
    rw [List.map_cons, List.foldlM_cons, List.foldlM_cons]
    exact (h c d hcd a).bind fun _ _ hcd => ih hcd

end Alike

/-- Both repetitions stop together, since the numbers of tokens left are the same. -/
theorem Alike.iterate {α β : Type} {R : ParseState → ParseState → Prop} {φ : α → β}
    {step : α → Parse (Option α)} {step' : β → Parse (Option β)}
    (hleft : ∀ s s', R s s' → s'.left.length = s.left.length)
    (h : ∀ a, Alike R R (fun a b => b = Option.map φ a) (step a) (step' (φ a))) {a : α} {b : β}
    (hab : φ a = b) :
    Alike R R (fun a b => b = φ a) (Parse.iterate step a) (Parse.iterate step' b) := by
  subst hab
  intro s s' hs
  -- by the rounds of the first repetition: it stops, it goes on, or nothing was taken in the round
  fun_induction Parse.iterate step a s generalizing s' with
  | case1 a s t hstep =>
    obtain ⟨hanswer, hstate⟩ := h a s s' hs
    rw [hstep] at hanswer hstate
    obtain ⟨t', ht⟩ : ∃ t', step' (φ a) s' = (none, t') := ⟨_, Prod.ext hanswer rfl⟩
    rw [ht] at hstate
    rw [Parse.iterate, ht]
    exact ⟨rfl, hstate⟩
  | case2 a s a' t hstep hlt ih =>
    obtain ⟨hanswer, hstate⟩ := h a s s' hs
    rw [hstep] at hanswer hstate
    obtain ⟨t', ht⟩ : ∃ t', step' (φ a) s' = (some (φ a'), t') := ⟨_, Prod.ext hanswer rfl⟩
    rw [ht] at hstate
    -- the other repetition has taken something in this round, too
    rw [← hleft t t' hstate, ← hleft s s' hs] at hlt
    have hnext : Parse.iterate step' (φ a) s' = Parse.iterate step' (φ a') t' := by
      rw [Parse.iterate, ht]
      exact if_pos hlt
    rw [hnext]
    exact ih t' hstate
  | case3 a s a' t hstep hlt =>
    obtain ⟨hanswer, hstate⟩ := h a s s' hs
    rw [hstep] at hanswer hstate
    obtain ⟨t', ht⟩ : ∃ t', step' (φ a) s' = (some (φ a'), t') := ⟨_, Prod.ext hanswer rfl⟩
    rw [ht] at hstate
    rw [← hleft t t' hstate, ← hleft s s' hs] at hlt
    have hlast : Parse.iterate step' (φ a) s' = (φ a', t') := by
      rw [Parse.iterate, ht]
      exact if_neg hlt
    rw [hlast]
    exact ⟨rfl, hstate⟩

end Idl
