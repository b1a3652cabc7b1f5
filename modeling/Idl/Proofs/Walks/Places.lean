/-
Idl/Proofs/Walks/Places.lean

The places of nodes, and the order in which a walk visits them.

The place of a node below another one is the list of the numbers of the children that lead to it.  In
the order of dictionaries a place comes before those below it, and what is below one child before what
is below the next: this is pre-order, said without any recursion.

A place is reached if no node above it is skipped (`AstNode.Reaches`).  A walk visits the nodes at the
places that are reached, each place once, in that order (`AstNode.visits_walk_listed`).
-/
import Idl.Proofs.Walks.Tours

namespace Idl

namespace AstNode

/-! ### Places -/

/-- The node at a place. -/
def at? : AstNode → List Nat → Option AstNode
  | n, [] => some n
  | n, i :: a => n.children[i]?.bind fun c => c.at? a

variable (skip : AstNode → Bool)

/-- A walk gets to a place: there is a node, and no node above it is one that `skip` holds of. -/
structure Reaches (n : AstNode) (a : List Nat) : Prop where
  present : (n.at? a).isSome = true
  above : ∀ b m, b <+: a → b ≠ a → n.at? b = some m → skip m = false

/-- `places` are the places that a walk gets to, in order, and `ns` are the nodes there. -/
structure Listed (n : AstNode) (places : List (List Nat)) (ns : List AstNode) : Prop where
  increasing : places.Pairwise (· < ·)
  mem_iff : ∀ a, a ∈ places ↔ n.Reaches skip a
  nodes : ns.map some = places.map n.at?

theorem reaches_nil (n : AstNode) : n.Reaches skip [] where
  present := rfl
  above _ _ hb hne := absurd (List.prefix_nil.1 hb) hne

/-- A place below a child is reached through the node and the child. -/
theorem reaches_cons {n : AstNode} {i : Nat} {a : List Nat} :
    n.Reaches skip (i :: a) ↔
      skip n = false ∧ ∃ c, n.children[i]? = some c ∧ c.Reaches skip a := by
  constructor
  · intro h
    have hn : skip n = false := h.above [] n (List.nil_prefix) (List.cons_ne_nil i a).symm rfl
    obtain ⟨m, hm⟩ := Option.isSome_iff_exists.1 h.present
    obtain ⟨c, hc, hca⟩ := Option.bind_eq_some_iff.1 hm
    refine ⟨hn, c, hc, Option.isSome_iff_exists.2 ⟨m, hca⟩, fun b k hb hne hk => ?_⟩
    have hplace : n.at? (i :: b) = some k := by rw [at?, hc]; exact hk
    exact h.above (i :: b) k ((List.prefix_cons_inj i).2 hb) (fun heq => hne (List.cons.inj heq).2)
      hplace
  · rintro ⟨hn, c, hc, h⟩
    refine ⟨by rw [at?, hc]; exact h.present, fun b k hb hne hk => ?_⟩
    cases b with
    | nil => exact Option.some.inj hk ▸ hn
    | cons j b =>
      obtain ⟨rfl, hbelow⟩ := List.cons_prefix_cons.1 hb
      rw [at?, hc] at hk
      exact h.above b k hbelow (fun heq => hne (heq ▸ rfl)) hk

/-! ### Nodes below -/

/-- What is visited below the children of `n` from number `k` on: the places are those that go on with
such a number. -/
theorem listed_children {n : AstNode} (hn : skip n = false) {visited : AstNode → List AstNode}
    (cs : List AstNode) (k : Nat) (hcs : n.children.drop k = cs)
    (h : ∀ c ∈ cs, ∃ places, c.Listed skip places (visited c)) :
    ∃ places : List (List Nat), places.Pairwise (· < ·) ∧
      (∀ a, a ∈ places ↔ ∃ i b, a = i :: b ∧ k ≤ i ∧ n.Reaches skip a) ∧
      (cs.flatMap visited).map some = places.map n.at? := by
  induction cs generalizing k with
  | nil =>
    refine ⟨[], .nil, fun a => ⟨fun ha => absurd ha List.not_mem_nil, ?_⟩, rfl⟩
    rintro ⟨i, b, rfl, hk, hreach⟩
    obtain ⟨-, c, hc, -⟩ := (reaches_cons skip).1 hreach
    have hlt := (List.getElem?_eq_some_iff.1 hc).1
    have hle := List.drop_eq_nil_iff.1 hcs
    omega
  | cons c cs ih =>
    obtain ⟨⟨own, hown⟩, hrest⟩ := List.forall_mem_cons.1 h
    have hc : n.children[k]? = some c := by
      rw [← List.head?_drop, hcs, List.head?_cons]
    have hdrop : n.children.drop (k + 1) = cs := by
      rw [← List.tail_drop, hcs, List.tail_cons]
    obtain ⟨others, hothers, hmem, hnodes⟩ := ih (k + 1) hdrop hrest
    refine ⟨own.map (k :: ·) ++ others, ?_, fun a => ?_, ?_⟩
    · -- below one child the order is that of the child, and all further children come later
      refine List.pairwise_append.2 ⟨List.pairwise_map.2 (hown.increasing.imp fun hlt => ?_), hothers,
        fun a ha a' ha' => ?_⟩
      · exact List.cons_lt_cons_iff.2 (.inr ⟨rfl, hlt⟩)
      · obtain ⟨b, -, rfl⟩ := List.mem_map.1 ha
        obtain ⟨i, b', rfl, hk, -⟩ := (hmem a').1 ha'
        exact List.cons_lt_cons_iff.2 (.inl hk)
    · rw [List.mem_append, hmem]
      constructor
      · rintro (ha | ⟨i, b, rfl, hk, hreach⟩)
        · obtain ⟨b, hb, rfl⟩ := List.mem_map.1 ha
          have hreach := (hown.mem_iff b).1 hb
          exact ⟨k, b, rfl, Nat.le_refl k, (reaches_cons skip).2 ⟨hn, c, hc, hreach⟩⟩
        · exact ⟨i, b, rfl, Nat.le_of_succ_le hk, hreach⟩
      · rintro ⟨i, b, rfl, hk, hreach⟩
        by_cases hi : i = k
        · subst hi
          obtain ⟨-, c', hc', hreach⟩ := (reaches_cons skip).1 hreach
          obtain rfl : c' = c := Option.some.inj (hc'.symm.trans hc)
          exact .inl (List.mem_map.2 ⟨b, (hown.mem_iff b).2 hreach, rfl⟩)
        · exact .inr ⟨i, b, rfl, by omega, hreach⟩
    · have hbelow (a : List Nat) : n.at? (k :: a) = c.at? a := by rw [at?, hc]; rfl
      rw [List.flatMap_cons, List.map_append, List.map_append, hnodes, hown.nodes, List.map_map]
      congr 1
      exact List.map_congr_left fun a _ => (hbelow a).symm

/-! ### What a walk visits -/

theorem visits_closed {n : AstNode} (h : (skip n || n.isTerminal) = true) (depth : Nat) :
    visits (n.walk skip depth) = [n] := by
  rw [walk_closed skip h]
  rfl

theorem visits_open {n : AstNode} (h : (skip n || n.isTerminal) = false) (depth : Nat) :
    visits (n.walk skip depth) =
      n :: n.children.flatMap fun c => visits (c.walk skip (depth + 1)) := by
  unfold visits
  rw [walk_open skip h, List.filterMap_cons_some (f := AstEvent.node?) (b := n) rfl,
    List.filterMap_cons_none (f := AstEvent.node?) rfl, List.filterMap_append,
    List.filterMap_flatMap]
  exact congrArg (n :: ·) (List.append_nil _)

/-- A walk visits the nodes at the places that it gets to, each place once and in order. -/
theorem visits_walk_listed (n : AstNode) (depth : Nat) :
    ∃ places, n.Listed skip places (visits (n.walk skip depth)) := by
  induction n using induct generalizing depth with
  | step n ih =>
    have halone (h : ∀ i a, ¬ n.Reaches skip (i :: a)) : n.Listed skip [[]] [n] := by
      refine ⟨List.pairwise_singleton .., fun a => ?_, rfl⟩
      cases a with
      | nil => simpa using reaches_nil skip n
      | cons i a => simpa using h i a
    cases hclosed : (skip n || n.isTerminal) with
    | true =>
      refine ⟨[[]], visits_closed skip hclosed depth ▸ halone fun i a hreach => ?_⟩
      obtain ⟨hskip, c, hc, -⟩ := (reaches_cons skip).1 hreach
      rw [hskip, Bool.false_or] at hclosed
      rw [children_of_isTerminal hclosed] at hc
      cases hc
    | false =>
      obtain ⟨hskip, -⟩ := Bool.or_eq_false_iff.1 hclosed
      obtain ⟨below, hbelow, hmem, hnodes⟩ := listed_children skip hskip n.children 0 rfl
        fun c hc => ih c hc (depth + 1)
      rw [visits_open skip hclosed]
      refine ⟨[] :: below, List.pairwise_cons.2 ⟨fun a ha => ?_, hbelow⟩, fun a => ?_, ?_⟩
      · obtain ⟨i, b, rfl, -⟩ := (hmem a).1 ha
        exact List.nil_lt_cons i b
      · rw [List.mem_cons, hmem]
        cases a with
        | nil => simpa using reaches_nil skip n
        | cons i a => simp
      · rw [List.map_cons, List.map_cons, hnodes]
        rfl

end AstNode

end Idl
