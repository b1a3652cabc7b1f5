/-
Idl/Proofs/Work.lean

Work on a project, step by step.

A step of work that fails ends the work with what has been changed so far; the next step begins where
the last one ended.
-/
import Idl.Project

namespace Idl.Project

variable {ε α β : Type} {w : ExceptT ε (StateM FileSystem) α}
  {k : α → ExceptT ε (StateM FileSystem) β} {fs fs' : FileSystem}

/-- The work fails, from a file system on. -/
def Fails (w : ExceptT ε (StateM FileSystem) α) (fs : FileSystem) : Prop :=
  ∃ e, (w.run fs).1 = .error e

theorem run_bind : (w >>= k).run fs = ExceptT.bindCont k (w.run fs).1 (w.run fs).2 := rfl

/-- What is asked of the place of the work is answered at once. -/
theorem run_ask (op : StateM FileSystem α) :
    ((liftM op : ExceptT ε (StateM FileSystem) α) >>= k).run fs = (k (op fs).1).run (op fs).2 := rfl

/-- Work in two steps is done if both are. -/
theorem run_bind_ok {b : β} : (w >>= k).run fs = (.ok b, fs') ↔
    ∃ a fs₁, w.run fs = (.ok a, fs₁) ∧ (k a).run fs₁ = (.ok b, fs') := by
  rw [run_bind]
  obtain ⟨e | a, fs₁⟩ := w.run fs
  · exact iff_of_false nofun fun ⟨_, _, h, _⟩ => nomatch h
  · refine ⟨fun h => ⟨a, fs₁, rfl, h⟩, ?_⟩
    rintro ⟨_, _, heq, h⟩
    cases heq
    exact h

/-- Work in two steps fails if the first one does, or if the second one does behind it. -/
theorem fails_bind : Fails (w >>= k) fs ↔
    Fails w fs ∨ ∃ a fs₁, w.run fs = (.ok a, fs₁) ∧ Fails (k a) fs₁ := by
  unfold Fails
  rw [run_bind]
  obtain ⟨e | a, fs₁⟩ := w.run fs
  · exact iff_of_true ⟨e, rfl⟩ (.inl ⟨e, rfl⟩)
  · refine ⟨fun h => .inr ⟨a, fs₁, rfl, h⟩, ?_⟩
    rintro (⟨_, he⟩ | ⟨_, _, heq, h⟩)
    · cases he
    · cases heq
      exact h

/-- Steps that change nothing change nothing together. -/
theorem run_mapM_keeps {f : α → ExceptT ε (StateM FileSystem) β} {xs : List α}
    (hkeep : ∀ x ∈ xs, ((f x).run fs).2 = fs) : ((xs.mapM f).run fs).2 = fs := by
  induction xs with
  | nil => rfl
  | cons x xs ih =>
    obtain ⟨hx, hxs⟩ := List.forall_mem_cons.1 hkeep
    have hrest := ih hxs
    rw [List.mapM_cons, run_bind]
    rcases hstep : (f x).run fs with ⟨e | y, fs₁⟩
    · rw [hstep] at hx
      exact hx
    · rw [hstep] at hx
      obtain rfl : fs₁ = fs := hx
      show ((xs.mapM f >>= fun ys => pure (y :: ys)).run fs₁).2 = fs₁
      rw [run_bind]
      rcases hlist : (xs.mapM f).run fs₁ with ⟨e | ys, fs₂⟩
      · rw [hlist] at hrest
        exact hrest
      · rw [hlist] at hrest
        exact hrest

/-- The first step that fails ends the work. -/
theorem run_mapM_error {f : α → ExceptT ε (StateM FileSystem) β} {x : α} {xs : List α} {e : ε}
    (h : (f x).run fs = (.error e, fs')) : ((x :: xs).mapM f).run fs = (.error e, fs') := by
  rw [List.mapM_cons, run_bind, h]
  rfl

/-- Steps of which each is done and changes nothing are all done. -/
theorem run_mapM_map {f : α → ExceptT ε (StateM FileSystem) β} {g : α → β} {xs : List α}
    (h : ∀ x ∈ xs, (f x).run fs = (.ok (g x), fs)) :
    (xs.mapM f).run fs = (.ok (xs.map g), fs) := by
  induction xs with
  | nil => rfl
  | cons x xs ih =>
    obtain ⟨hx, hxs⟩ := List.forall_mem_cons.1 h
    rw [List.mapM_cons]
    exact run_bind_ok.2 ⟨g x, fs, hx, run_bind_ok.2 ⟨xs.map g, fs, ih hxs, rfl⟩⟩

/-- Steps that change nothing are all done only if each one is. -/
theorem run_mapM_ok [Nonempty β] {f : α → ExceptT ε (StateM FileSystem) β} {xs : List α}
    {ys : List β} (hkeep : ∀ x ∈ xs, ((f x).run fs).2 = fs) :
    (xs.mapM f).run fs = (.ok ys, fs') ↔
      fs' = fs ∧ ∃ g : α → β, (∀ x ∈ xs, (f x).run fs = (.ok (g x), fs)) ∧ ys = xs.map g := by
  constructor
  · -- a step has one result at most
    let g (x : α) : β := Classical.epsilon fun y => (f x).run fs = (.ok y, fs)
    have hg {x : α} (h : ∃ y, (f x).run fs = (.ok y, fs)) : (f x).run fs = (.ok (g x), fs) :=
      Classical.epsilon_spec h
    intro hrun
    suffices hall : fs' = fs ∧ (∀ x ∈ xs, (f x).run fs = (.ok (g x), fs)) ∧ ys = xs.map g from
      ⟨hall.1, g, hall.2⟩
    induction xs generalizing ys fs' with
    | nil =>
      cases hrun
      exact ⟨rfl, List.forall_mem_nil _, rfl⟩
    | cons x xs ih =>
      obtain ⟨hx, hxs⟩ := List.forall_mem_cons.1 hkeep
      rw [List.mapM_cons] at hrun
      obtain ⟨y, fs₁, hy, hrest⟩ := run_bind_ok.1 hrun
      obtain rfl : fs₁ = fs := by rw [← hx, hy]
      obtain ⟨ys', fs₂, hys, hcons⟩ := run_bind_ok.1 hrest
      obtain ⟨rfl, hall, rfl⟩ := ih hxs hys
      cases hcons
      have hgx := hg ⟨y, hy⟩
      obtain rfl : y = g x := Except.ok.inj (congrArg Prod.fst (hy.symm.trans hgx))
      exact ⟨rfl, List.forall_mem_cons.2 ⟨hgx, hall⟩, rfl⟩
  · rintro ⟨rfl, g, hall, rfl⟩
    exact run_mapM_map hall

end Idl.Project
