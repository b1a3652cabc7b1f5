/-
Idl/Proofs/Comments/Parse.lean

Parsing without comments.

To be without comments is to be sifted by what holds of none of them, so what sifting leaves as it is
stays as it is without comments, too.

Main result: parsing a file from tokens without comments gives the tree that parsing it with them
gives, bare (`file_bare`).
-/
import Idl.Proofs.Comments.Sifting

namespace Idl

/-! ### Without comments -/

/-- A token without the comments around it. -/
def SignificantToken.bare (t : SignificantToken) : SignificantToken := ⟨t.token, none, none, []⟩

/-- A state of parsing without comments. -/
def ParseState.bare (s : ParseState) : ParseState :=
  { s with left := s.left.map .bare, eof := s.eof.bare, lead := none }

/-- A member without comments. -/
def Member.bare (m : Member) : Member := { m with doc := none, comment := none }

/-- A bean without comments. -/
def Bean.bare (b : Bean) : Bean :=
  { b with doc := none, body := { b.body with members := b.body.members.map .bare } }

/-- An import without comments. -/
def ImportSpec.bare (s : ImportSpec) : ImportSpec := { s with doc := none, comment := none }

/-- A constant without comments. -/
def ConstSpec.bare (s : ConstSpec) : ConstSpec := { s with doc := none, comment := none }

/-- A group of specifications without comments. -/
def SpecGroup.bare {α : Type} (spec : α → α) (g : SpecGroup α) : SpecGroup α :=
  { g with doc := none, specs := g.specs.map spec }

/-- A declaration without comments. -/
def Decl.bare : Decl → Decl
  | .bad span => .bad span
  | .imports g => .imports (g.bare .bare)
  | .consts g => .consts (g.bare .bare)
  | .bean b => .bean b.bare

/-- A file without comments. -/
def File.bare (f : File) : File :=
  { f with doc := none, decls := f.decls.map .bare, comments := [] }

/-! ### Sifting out everything -/

theorem filter_none {α : Type} (o : Option α) : o.filter (fun _ => false) = none := by
  cases o <;> rfl

theorem filter_nothing {α : Type} (xs : List α) : xs.filter (fun _ => false) = [] :=
  List.filter_eq_nil_iff.2 fun _ _ => Bool.false_ne_true

theorem SignificantToken.sifted_none : SignificantToken.sifted (fun _ => false) = bare := by
  funext t
  unfold sifted bare
  rw [filter_none, filter_none, filter_nothing]

theorem ParseState.sifted_none : ParseState.sifted (fun _ => false) = bare := by
  funext s
  unfold sifted bare
  rw [filter_none, SignificantToken.sifted_none]

theorem Member.sifted_none : Member.sifted (fun _ => false) = bare := by
  funext m
  unfold sifted bare
  rw [filter_none, filter_none]

theorem Bean.sifted_none : Bean.sifted (fun _ => false) = bare := by
  funext b
  unfold sifted bare
  rw [filter_none, Member.sifted_none]

theorem ImportSpec.sifted_none : ImportSpec.sifted (fun _ => false) = bare := by
  funext s
  unfold sifted bare
  rw [filter_none, filter_none]

theorem ConstSpec.sifted_none : ConstSpec.sifted (fun _ => false) = bare := by
  funext s
  unfold sifted bare
  rw [filter_none, filter_none]

theorem SpecGroup.sifted_none {α : Type} (spec : α → α) :
    SpecGroup.sifted (fun _ => false) spec = bare spec := by
  funext g
  unfold sifted bare
  rw [filter_none]

theorem Decl.sifted_none : Decl.sifted (fun _ => false) = bare := by
  funext d
  cases d with
  | bad span => rfl
  | imports g => rw [sifted, bare, SpecGroup.sifted_none, ImportSpec.sifted_none]
  | consts g => rw [sifted, bare, SpecGroup.sifted_none, ConstSpec.sifted_none]
  | bean b => rw [sifted, bare, Bean.sifted_none]

theorem File.sifted_none : File.sifted (fun _ => false) = bare := by
  funext f
  unfold sifted bare
  rw [filter_none, Decl.sifted_none, filter_nothing]

namespace Parse

/-- A file that is parsed without comments gives the tree that it gives with them, bare. -/
theorem file_bare (comments : List CommentGroup) :
    Mirrors ParseState.bare File.bare (file comments) (file []) := by
  have hsifted : Mirrors (ParseState.sifted fun _ => false) (File.sifted fun _ => false)
      (file comments) (file (comments.filter fun _ => false)) := file_sifted _ comments
  rwa [ParseState.sifted_none, File.sifted_none, filter_nothing] at hsifted

end Parse

end Idl
