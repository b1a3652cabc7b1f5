/-
Idl/Path.lean

Paths as they are written, and the components that they stand for.

A path is the list of pieces between its slashes.  Empty pieces and dots mean nothing, save a
dot at the start and the empty piece before a slash at the start; what is left are its
components.  Paths are compared by their components and shown as they were written.
-/

namespace Idl

/-- A component of a path. -/
inductive PathComponent where
  | root
  | current
  | parent
  | name (s : String)
  deriving DecidableEq, Repr

namespace PathComponent

/-- The place of the kind of a component in the order of components. -/
def rank : PathComponent → Nat
  | .root => 0
  | .current => 1
  | .parent => 2
  | .name _ => 3

/-- The name, which is empty for components that have none. -/
def text : PathComponent → String
  | .name s => s
  | _ => ""

/-- Components are in order by kind, and names by their characters. -/
instance : LT PathComponent := ⟨fun a b => a.rank < b.rank ∨ (a.rank = b.rank ∧ a.text < b.text)⟩

instance : DecidableRel (α := PathComponent) (· < ·) := fun a b =>
  inferInstanceAs (Decidable (a.rank < b.rank ∨ (a.rank = b.rank ∧ a.text < b.text)))

/-- The component that a piece stands for which is not the first. -/
def ofPiece? (piece : String) : Option PathComponent :=
  if piece = "" ∨ piece = "." then none
  else if piece = ".." then some .parent
  else some (.name piece)

end PathComponent

/-- A path, as the pieces between its slashes. -/
structure Path where
  pieces : List String
  deriving DecidableEq, Repr

namespace Path

/-- The path that is written so. -/
def ofText (text : String) : Path := ⟨text.splitOn "/"⟩

/-- How the path is written. -/
def text (p : Path) : String := "/".intercalate p.pieces

/-! ### Components -/

/-- Whether the path starts with a slash. -/
def isAbsolute (p : Path) : Bool := p.pieces.head? == some "" && 1 < p.pieces.length

/-- The pieces, each with the component that it stands for, if it means anything. -/
def meanings (p : Path) : List (String × Option PathComponent) :=
  match p.pieces with
  | [] => []
  | first :: rest =>
    let head :=
      if first = "" then if rest = [] then none else some .root
      else if first = "." then some .current
      else PathComponent.ofPiece? first
    (first, head) :: rest.map fun piece => (piece, PathComponent.ofPiece? piece)

/-- The components. -/
def components (p : Path) : List PathComponent := p.meanings.filterMap (·.2)

/-- The name at the end of a path, unless it ends in a component that is none. -/
def fileName? (p : Path) : Option String :=
  match p.components.getLast? with
  | some (.name s) => some s
  | _ => none

/-- What follows the last dot of a name, unless there is only one at its start. -/
def extensionOf? (name : String) : Option String :=
  let front := (name.toList.reverse.dropWhile (· ≠ '.')).drop 1
  if front.isEmpty then none else some (String.ofList (name.toList.drop (front.length + 1)))

/-- The extension of the name at the end of a path. -/
def extension? (p : Path) : Option String := p.fileName?.bind extensionOf?

/-! ### Joining and parting -/

/-- The path `q` as seen from `p`: behind it, unless `q` is absolute. -/
def join (p q : Path) : Path :=
  if q.isAbsolute then q
  else if p.pieces.getLast? = some "" then ⟨p.pieces.dropLast ++ q.pieces⟩
  else ⟨p.pieces ++ q.pieces⟩

/-- The bytes of the pieces, without the slashes between them. -/
def pieceBytes (p : Path) : Nat := (String.join p.pieces).utf8ByteSize

/-- What is written are the pieces, and a slash between any two. -/
theorem utf8ByteSize_text {p : Path} (h : p.pieces ≠ []) :
    p.text.utf8ByteSize + 1 = p.pieceBytes + p.pieces.length := by
  unfold pieceBytes text
  revert h
  induction p.pieces with
  | nil => exact absurd rfl
  | cons piece pieces ih =>
    intro
    rw [String.join_cons, String.utf8ByteSize_append, List.length_cons]
    cases pieces with
    | nil => rw [String.intercalate_singleton]; rfl
    | cons next pieces =>
      have ih := ih (List.cons_ne_nil _ _)
      have hslash : "/".utf8ByteSize = 1 := rfl
      rw [String.intercalate_cons_cons, String.utf8ByteSize_append, String.utf8ByteSize_append]
      omega

theorem pieceBytes_le (p : Path) : p.pieceBytes ≤ p.text.utf8ByteSize := by
  by_cases h : p.pieces = []
  · unfold pieceBytes
    rw [h]
    exact Nat.zero_le _
  · have hsize := utf8ByteSize_text h
    have hpos := List.length_pos_iff.2 h
    omega

/-- A name behind a path adds its bytes. -/
theorem pieceBytes_join (p : Path) (name : String) :
    (p.join ⟨[name]⟩).pieceBytes = p.pieceBytes + name.utf8ByteSize := by
  have hrelative : isAbsolute ⟨[name]⟩ = false := by simp [isAbsolute]
  unfold join
  rw [if_neg (by rw [hrelative]; exact Bool.false_ne_true)]
  split
  · next hlast =>
    obtain ⟨front, hpieces⟩ := List.getLast?_eq_some_iff.1 hlast
    unfold pieceBytes
    dsimp only
    rw [hpieces, List.dropLast_concat]
    simp [String.join_append, String.join_cons]
  · unfold pieceBytes
    simp [String.join_append, String.join_cons]

/-- Drops the pieces at the end that mean nothing, but never the first. -/
def trimEnd (p : Path) : Path :=
  ⟨p.pieces.take 1 ++
    ((p.pieces.drop 1).reverse.dropWhile fun s => (PathComponent.ofPiece? s).isNone).reverse⟩

/-- The path without its last component, if it has one that is not the root. -/
def parent? (p : Path) : Option Path :=
  match p.trimEnd.pieces with
  | [] => none
  | [first] => if first = "" then none else some ⟨[""]⟩
  | pieces =>
    let q := trimEnd ⟨pieces.dropLast⟩
    some (if q.pieces = [""] then ⟨["", ""]⟩ else q)

/-- Drops `n` components, and the pieces that mean nothing up to the next. -/
def dropComponents : Nat → List (String × Option PathComponent) →
    List (String × Option PathComponent)
  | _, [] => []
  | n, (_, none) :: r => dropComponents n r
  | 0, r => r
  | n + 1, (_, some _) :: r => dropComponents n r

/-- The rest of a path behind `base`, if its components start with those of `base`. -/
def relativeTo? (p base : Path) : Option Path :=
  if base.components.isPrefixOf p.components then
    some ⟨(dropComponents base.components.length p.meanings).map (·.1)⟩
  else none

/-! ### Sorting -/

/-- Whether `p` does not come after `q`. -/
def le (p q : Path) : Bool := !decide (q.components < p.components)

/-- Keeps the first of any neighbours that have the same components. -/
def distinct : List Path → List Path
  | [] => []
  | [p] => [p]
  | p :: q :: r =>
    if p.components = q.components then distinct (p :: r) else p :: distinct (q :: r)
termination_by ps => ps.length

/-- Sorts paths, and keeps the first of those that have the same components. -/
def sortDistinct (ps : List Path) : List Path := distinct (ps.mergeSort le)

end Path

end Idl
