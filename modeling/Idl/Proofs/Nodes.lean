/-
Idl/Proofs/Nodes.lean

The nodes of a syntax tree.

The nodes that a walk visits do not depend on the depth at which it starts (`Tree.visits_walk`), so
those of a tree are its label and, unless that is terminal, the nodes of the trees below it
(`Tree.mem_nodes`).  What is collected from the nodes of a tree is put together likewise
(`Tree.collect_node`).
-/
import Idl.Syntax.Tree

namespace Idl

/-- The node that is visited. -/
def WalkEvent.node? : WalkEvent → Option Node
  | .visit _ n => some n
  | _ => none

namespace Tree

mutual

/-- A walk visits the same nodes at every depth. -/
theorem visits_walk (skip : Node → Bool) (d d' : Nat) (t : Tree) :
    (t.walk skip d).filterMap WalkEvent.node? = (t.walk skip d').filterMap WalkEvent.node? := by
  cases t with
  | node n children =>
    rw [walk, walk, List.filterMap_cons_some (f := WalkEvent.node?) (b := n) rfl,
      List.filterMap_cons_some (f := WalkEvent.node?) (b := n) rfl]
    congr 1
    split
    · rfl
    · have h := visits_walkAll skip (d + 1) (d' + 1) children
      rw [List.cons_append, List.cons_append, List.filterMap_cons_none (f := WalkEvent.node?) rfl,
        List.filterMap_cons_none (f := WalkEvent.node?) rfl, List.filterMap_append,
        List.filterMap_append, h]
      rfl

theorem visits_walkAll (skip : Node → Bool) (d d' : Nat) (ts : List Tree) :
    (walkAll skip d ts).filterMap WalkEvent.node? =
      (walkAll skip d' ts).filterMap WalkEvent.node? := by
  cases ts with
  | nil => rfl
  | cons t ts =>
    rw [walkAll, walkAll, List.filterMap_append, List.filterMap_append, visits_walk skip d d' t,
      visits_walkAll skip d d' ts]

end

theorem visited_eq (skip : Node → Bool) (t : Tree) :
    t.visited skip = (t.walk skip 0).filterMap WalkEvent.node? := rfl

theorem visits_walkAll_eq (skip : Node → Bool) (d : Nat) (ts : List Tree) :
    (walkAll skip d ts).filterMap WalkEvent.node? = ts.flatMap (visited skip) := by
  induction ts with
  | nil => rfl
  | cons t ts ih =>
    rw [walkAll, List.filterMap_append, ih, List.flatMap_cons, visits_walk skip d 0 t]
    rfl

/-- A walk visits a node and, if it may, the nodes below. -/
theorem visited_node (skip : Node → Bool) (n : Node) (children : List Tree) :
    (node n children).visited skip =
      n :: if skip n || n.isTerminal then [] else children.flatMap (visited skip) := by
  rw [visited_eq, walk, List.filterMap_cons_some (f := WalkEvent.node?) (b := n) rfl]
  congr 1
  split
  · rfl
  · rw [List.cons_append, List.filterMap_cons_none (f := WalkEvent.node?) rfl,
      List.filterMap_append, visits_walkAll_eq]
    exact List.append_nil _

/-- The nodes of a tree are its label and those of the trees below. -/
theorem mem_nodes {n m : Node} {children : List Tree} :
    m ∈ (node n children).nodes ↔
      m = n ∨ n.isTerminal = false ∧ ∃ t ∈ children, m ∈ t.nodes := by
  unfold nodes
  rw [visited_node, List.mem_cons, Bool.false_or]
  cases n.isTerminal with
  | true => simp
  | false => simp

/-! ### Collecting from nodes -/

variable {α : Type} {f : Node → Option α}

/-- What `f` makes of the nodes of a tree, in pre-order. -/
def collect (f : Node → Option α) (t : Tree) : List α := t.nodes.filterMap f

theorem collect_node (n : Node) (children : List Tree) :
    (node n children).collect f =
      (f n).toList ++ if n.isTerminal then [] else children.flatMap (collect f) := by
  unfold collect nodes
  rw [visited_node, Bool.false_or]
  cases hn : f n with
  | none => rw [List.filterMap_cons_none hn]; split <;> simp [List.filterMap_flatMap]
  | some a => rw [List.filterMap_cons_some hn]; split <;> simp [List.filterMap_flatMap]

theorem mem_collect {t : Tree} {a : α} : a ∈ t.collect f ↔ ∃ n ∈ t.nodes, f n = some a :=
  List.mem_filterMap

end Tree

end Idl
