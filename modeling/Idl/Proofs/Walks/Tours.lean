/-
Idl/Proofs/Walks/Tours.lean

Walks over nodes, and what is properly nested in them.

A walk decides by whole nodes where not to look below.  One that decides by labels is a walk over the
tree of the node, event for event (`AstNode.walk_tree`).

That the events of a walk are properly nested is said by a machine with a stack, the `Tour`.  It
keeps, for every node that is entered and not yet left, the children that are still to be visited, and
each of its steps takes one event: a visit of the next child; an `enter` right behind the visit of a
node that may be entered, and nowhere else; a `leave` when all children of the innermost node are
visited, and not before.  The events of a walk, and no others, take the machine from a single node to
the end (`AstNode.walk_tour`).  So entering and leaving balance (`AstNode.depthAfter_walk`).
-/
import Idl.Proofs.Walks.Nodes

namespace Idl

/-! ### Walks over nodes -/

/-- The depth behind the event, when `d` is the depth in front of it. -/
def AstEvent.depthAfter (d : Int) : AstEvent → Int
  | .visit .. => d
  | .enter _ => d + 1
  | .leave _ => d - 1

/-- The nodes that are visited, in order. -/
def visits (es : List AstEvent) : List AstNode := es.filterMap AstEvent.node?

/-- The depth behind events, when `d` is the depth in front of them. -/
def depthAfter (d : Int) (es : List AstEvent) : Int := es.foldl AstEvent.depthAfter d

namespace AstNode

variable (skip : AstNode → Bool)

/-- A walk over a node that it does not go below. -/
theorem walk_closed {n : AstNode} (h : (skip n || n.isTerminal) = true) (depth : Nat) :
    n.walk skip depth = [.visit depth n] := by
  rw [walk, if_pos h]

/-- A walk over a node that it goes below. -/
theorem walk_open {n : AstNode} (h : (skip n || n.isTerminal) = false) (depth : Nat) :
    n.walk skip depth = .visit depth n :: .enter (depth + 1) ::
      (n.children.flatMap (walk skip (depth + 1)) ++ [.leave (depth + 1)]) := by
  rw [walk, h, List.flatMap_def, List.attach_map_val, ← List.flatMap_def]
  rfl

theorem walkAll_tree {skipLabel : Node → Bool} {depth : Nat} {cs : List AstNode}
    (h : ∀ c ∈ cs, c.tree.walk skipLabel depth = (c.walk skip depth).map AstEvent.labelled) :
    Tree.walkAll skipLabel depth (cs.map tree) =
      (cs.flatMap (walk skip depth)).map AstEvent.labelled := by
  induction cs with
  | nil => rfl
  | cons c cs ih =>
    obtain ⟨hc, hcs⟩ := List.forall_mem_cons.1 h
    rw [List.map_cons, Tree.walkAll, hc, ih hcs, List.flatMap_cons, List.map_append]

/-- A walk that decides by labels is a walk over the tree. -/
theorem walk_tree {skipLabel : Node → Bool} (h : ∀ m, skip m = skipLabel m.label) (n : AstNode)
    (depth : Nat) :
    n.tree.walk skipLabel depth = (n.walk skip depth).map AstEvent.labelled := by
  induction n using induct generalizing depth with
  | step n ih =>
    have hsame : (skipLabel n.label || n.label.isTerminal) = (skip n || n.isTerminal) := by
      rw [h n, isTerminal]
    rw [n.tree_eq, Tree.walk, hsame]
    cases hopen : (skip n || n.isTerminal) with
    | true => rw [walk_closed skip hopen]; rfl
    | false =>
      rw [walk_open skip hopen, walkAll_tree skip fun c hc => ih c hc (depth + 1)]
      simp [AstEvent.labelled]

/-! ### Depths -/

theorem depthAfter_append (d : Int) (es es' : List AstEvent) :
    depthAfter d (es ++ es') = depthAfter (depthAfter d es) es' := List.foldl_append

theorem depthAfter_flatMap {events : AstNode → List AstEvent} {cs : List AstNode}
    (h : ∀ c ∈ cs, ∀ d, depthAfter d (events c) = d) (d : Int) :
    depthAfter d (cs.flatMap events) = d := by
  induction cs with
  | nil => rfl
  | cons c cs ih =>
    obtain ⟨hc, hcs⟩ := List.forall_mem_cons.1 h
    rw [List.flatMap_cons, depthAfter_append, hc, ih hcs]

/-- A walk ends at the depth at which it starts. -/
theorem depthAfter_walk (n : AstNode) (depth : Nat) (d : Int) :
    depthAfter d (n.walk skip depth) = d := by
  induction n using induct generalizing depth d with
  | step n ih =>
    cases hopen : (skip n || n.isTerminal) with
    | true => rw [walk_closed skip hopen]; rfl
    | false =>
      have hbelow := depthAfter_flatMap (fun c hc e => ih c hc (depth + 1) e) (d + 1)
      rw [walk_open skip hopen]
      show depthAfter (d + 1) (n.children.flatMap (walk skip (depth + 1)) ++ _) = d
      rw [depthAfter_append, hbelow]
      exact Int.add_sub_cancel d 1

end AstNode

/-! ### Tours -/

/-- How far a walk has come. -/
structure Tour where
  /-- The nodes that are still to be visited at each depth, the innermost first. -/
  ahead : List (List AstNode)
  /-- The node visited last, if its children are to be entered next. -/
  pending : Option AstNode

namespace Tour

/-- One event of a tour that starts at depth `base`. -/
inductive Step (skip : AstNode → Bool) (base : Nat) : Tour → AstEvent → Tour → Prop
  /-- The next node at the innermost depth is visited. -/
  | visit (n : AstNode) (ns : List AstNode) (outer : List (List AstNode)) :
    Step skip base ⟨(n :: ns) :: outer, none⟩ (.visit (base + outer.length) n)
      ⟨ns :: outer, if skip n || n.isTerminal then none else some n⟩
  /-- The node just visited is entered: its children are ahead. -/
  | enter (n : AstNode) (outer : List (List AstNode)) :
    Step skip base ⟨outer, some n⟩ (.enter (base + outer.length)) ⟨n.children :: outer, none⟩
  /-- Nothing is ahead at the innermost depth, which is left. -/
  | leave (outer : List (List AstNode)) :
    Step skip base ⟨[] :: outer, none⟩ (.leave (base + outer.length)) ⟨outer, none⟩

/-- Events in a row. -/
inductive Run (skip : AstNode → Bool) (base : Nat) : Tour → List AstEvent → Tour → Prop
  | done (t : Tour) : Run skip base t [] t
  | next {t t' t'' : Tour} {e : AstEvent} {es : List AstEvent} :
    Step skip base t e t' → Run skip base t' es t'' → Run skip base t (e :: es) t''

variable {skip : AstNode → Bool} {base : Nat}

theorem Run.append {t t' t'' : Tour} {es es' : List AstEvent} (h : Run skip base t es t')
    (h' : Run skip base t' es' t'') : Run skip base t (es ++ es') t'' := by
  induction h with
  | done t => exact h'
  | next hstep _ ih => exact .next hstep (ih h')

/-- Walks over nodes in a row, each of which is a tour of its own. -/
theorem run_flatMap {outer : List (List AstNode)} {ns : List AstNode}
    (h : ∀ n ∈ ns, ∀ ms, Run skip base ⟨(n :: ms) :: outer, none⟩
      (n.walk skip (base + outer.length)) ⟨ms :: outer, none⟩) :
    Run skip base ⟨ns :: outer, none⟩ (ns.flatMap (AstNode.walk skip (base + outer.length)))
      ⟨[] :: outer, none⟩ := by
  induction ns with
  | nil => exact .done _
  | cons n ns ih =>
    obtain ⟨hn, hns⟩ := List.forall_mem_cons.1 h
    rw [List.flatMap_cons]
    exact (hn ns).append (ih hns)

/-- A walk over the next node leaves the rest of the tour as it is. -/
theorem run_walk (n : AstNode) (ms : List AstNode) (outer : List (List AstNode)) :
    Run skip base ⟨(n :: ms) :: outer, none⟩ (n.walk skip (base + outer.length))
      ⟨ms :: outer, none⟩ := by
  induction n using AstNode.induct generalizing ms outer with
  | step n ih =>
    have hvisit : Step skip base ⟨(n :: ms) :: outer, none⟩ (.visit (base + outer.length) n)
        ⟨ms :: outer, if skip n || n.isTerminal then none else some n⟩ := .visit n ms outer
    cases hopen : (skip n || n.isTerminal) with
    | true =>
      rw [AstNode.walk_closed skip hopen]
      rw [hopen] at hvisit
      exact .next hvisit (.done _)
    | false =>
      rw [AstNode.walk_open skip hopen]
      rw [hopen] at hvisit
      have hbelow : Run skip base ⟨n.children :: ms :: outer, none⟩
          (n.children.flatMap (AstNode.walk skip (base + (ms :: outer).length)))
          ⟨[] :: ms :: outer, none⟩ :=
        run_flatMap fun c hc ns => ih c hc ns (ms :: outer)
      exact .next hvisit (.next (.enter n _) (hbelow.append (.next (.leave _) (.done _))))

/-! ### Nothing else is a tour -/

/-- How far a walk has come says which event is next. -/
theorem Step.unique {t t₁ t₂ : Tour} {e₁ e₂ : AstEvent} (h₁ : Step skip base t e₁ t₁)
    (h₂ : Step skip base t e₂ t₂) : e₁ = e₂ ∧ t₁ = t₂ := by
  cases h₁ <;> cases h₂ <;> exact ⟨rfl, rfl⟩

/-- A tour that is over does not go on. -/
theorem Run.nil_of_over {es : List AstEvent}
    (h : Run skip base ⟨[[]], none⟩ es ⟨[[]], none⟩) : es = [] := by
  cases h with
  | done => rfl
  | next hstep hrest =>
    -- leaving the outermost depth ends where no step leads on
    cases hstep
    cases hrest with
    | next hstep _ => cases hstep

/-- There is one way through a tour. -/
theorem Run.unique {t : Tour} {es es' : List AstEvent} (h : Run skip base t es ⟨[[]], none⟩)
    (h' : Run skip base t es' ⟨[[]], none⟩) : es = es' := by
  generalize hend : (⟨[[]], none⟩ : Tour) = u at h
  induction h generalizing es' with
  | done t =>
    subst hend
    exact h'.nil_of_over.symm
  | next hstep hrest ih =>
    cases h' with
    | done => exact (Run.next hstep (hend ▸ hrest)).nil_of_over
    | next hstep' hrest' =>
      obtain ⟨rfl, rfl⟩ := hstep.unique hstep'
      rw [ih hrest' hend]

end Tour

/-- A walk is the tour over its node. -/
theorem AstNode.walk_tour (skip : AstNode → Bool) (n : AstNode) (depth : Nat)
    (es : List AstEvent) :
    Tour.Run skip depth ⟨[[n]], none⟩ es ⟨[[]], none⟩ ↔ es = n.walk skip depth := by
  have hwalk : Tour.Run skip depth ⟨[[n]], none⟩ (n.walk skip depth) ⟨[[]], none⟩ :=
    Tour.run_walk n [] []
  exact ⟨fun h => h.unique hwalk, fun h => h ▸ hwalk⟩

end Idl
