/-
Idl/Proofs/Placement.lean

Where a file stands among the files of a run.

A file that is parsed alone starts at position 1, has the number 0, and owns the whole symbol
table.  A file that is parsed after others starts further up, has another number, and finds their
scopes and objects in the table.  A `Placement` says how far up, which number, and what is in the
table before.  Everything that parsing handles can be placed: positions move up, scopes and
objects are numbered behind those that are there, and nothing else changes.  The position 0 of
nothing stays where it is.

This module defines what it means to place a thing.  The laws below are those that reading needs:
a placed file counts lines like the file itself (`SourceFile.lineOf_placed`), and looking a name up
in a placed table does not see what was there before (`SymbolTable.lookup?_placed`,
`SymbolTable.resolve?_placed`).
-/
import Idl.Syntax.File

namespace Idl

/-- Where a file stands among the files of a run. -/
structure Placement where
  /-- How far its positions move up. -/
  shift : Nat
  /-- Its number. -/
  fileId : FileId
  /-- The scopes and objects of the files before it. -/
  before : SymbolTable

/-! ### Positions, spans and texts -/

namespace Placement

variable (ρ : Placement)

/-- A position in the placed file. -/
def pos (p : Pos) : Pos := if p = 0 then 0 else p + ρ.shift

/-- The number of a scope of the placed file. -/
def scope (i : ScopeId) : ScopeId := ρ.before.scopes.size + i

/-- The number of an object of the placed file. -/
def object (i : ObjectId) : ObjectId := ρ.before.objects.size + i

@[simp] theorem pos_zero : ρ.pos 0 = 0 := if_pos rfl

theorem pos_of_ne {p : Pos} (h : p ≠ 0) : ρ.pos p = p + ρ.shift := if_neg h

@[simp] theorem pos_eq_zero {p : Pos} : ρ.pos p = 0 ↔ p = 0 := by
  unfold pos
  split <;> simp_all

@[simp] theorem isValid_pos (p : Pos) : (ρ.pos p).isValid = p.isValid := by
  unfold Pos.isValid
  rw [Bool.eq_iff_iff, bne_iff_ne, bne_iff_ne, ne_eq, pos_eq_zero]

theorem pos_lt_pos {p q : Pos} : ρ.pos p < ρ.pos q ↔ p < q := by
  unfold pos Pos at *
  split <;> split <;> omega

theorem pos_le_pos {p q : Pos} : ρ.pos p ≤ ρ.pos q ↔ p ≤ q := by
  unfold pos Pos at *
  split <;> split <;> omega

theorem pos_inj {p q : Pos} : ρ.pos p = ρ.pos q ↔ p = q := by
  unfold pos Pos at *
  split <;> split <;> omega

@[simp] theorem scope_inj {i j : ScopeId} : ρ.scope i = ρ.scope j ↔ i = j := Nat.add_left_cancel_iff

theorem scope_lt_scope {i j : ScopeId} : ρ.scope i < ρ.scope j ↔ i < j := Nat.add_lt_add_iff_left

@[simp] theorem object_inj {i j : ObjectId} : ρ.object i = ρ.object j ↔ i = j :=
  Nat.add_left_cancel_iff

theorem object_le_object {i j : ObjectId} : ρ.object i ≤ ρ.object j ↔ i ≤ j :=
  Nat.add_le_add_iff_left

end Placement

variable (ρ : Placement)

/-- A span of the placed file; the span at the position of nothing stays. -/
def Span.placed (s : Span) : Span :=
  if s.start = 0 then s else ⟨s.start + ρ.shift, s.stop + ρ.shift⟩

@[simp] theorem Span.placed_start (s : Span) : (s.placed ρ).start = ρ.pos s.start := by
  unfold Span.placed Placement.pos
  split
  · assumption
  · rfl

@[simp] theorem Span.ofWidth_placed (p : Pos) (w : Nat) :
    (Span.ofWidth p w).placed ρ = .ofWidth (ρ.pos p) w := by
  unfold Span.placed Span.ofWidth Placement.pos
  by_cases h : p = 0
  · rw [if_pos h, if_pos h, h]
  · rw [if_neg h, if_neg h, Nat.add_right_comm]

/-- A diagnostic about the placed file. -/
def Diagnostic.placed (d : Diagnostic) : Diagnostic := { d with span := d.span.placed ρ }

@[simp] theorem Diagnostic.placed_error (m : String) (s : Span) :
    (Diagnostic.error m s).placed ρ = .error m (s.placed ρ) := rfl

/-- A token of the placed file. -/
def Token.placed (t : Token) : Token := { t with span := t.span.placed ρ }

@[simp] theorem Token.placed_kind (t : Token) : (t.placed ρ).kind = t.kind := rfl
@[simp] theorem Token.placed_text (t : Token) : (t.placed ρ).text = t.text := rfl
@[simp] theorem Token.placed_span (t : Token) : (t.placed ρ).span = t.span.placed ρ := rfl
@[simp] theorem Token.placed_display (t : Token) : (t.placed ρ).display = t.display := rfl
@[simp] theorem Token.placed_foundName (t : Token) : (t.placed ρ).foundName = t.foundName := rfl

@[simp] theorem Token.placed_pos (t : Token) : (t.placed ρ).pos = ρ.pos t.pos :=
  Span.placed_start ρ t.span

/-- A comment in the placed file. -/
def Comment.placed (c : Comment) : Comment := { c with slash := ρ.pos c.slash }

/-- A comment group in the placed file. -/
def CommentGroup.placed (g : CommentGroup) : CommentGroup := ⟨g.comments.map (Comment.placed ρ)⟩

@[simp] theorem CommentGroup.placed_text (g : CommentGroup) : (g.placed ρ).text = g.text := by
  simp [CommentGroup.text, CommentGroup.placed, Comment.placed, Function.comp_def]

/-- A significant token of the placed file. -/
def SignificantToken.placed (t : SignificantToken) : SignificantToken where
  token := t.token.placed ρ
  lead := t.lead.map (CommentGroup.placed ρ)
  trailing := t.trailing.map (CommentGroup.placed ρ)
  groups := t.groups.map (CommentGroup.placed ρ)

@[simp] theorem SignificantToken.placed_token (t : SignificantToken) :
    (t.placed ρ).token = t.token.placed ρ := rfl

/-- The file itself, placed. -/
def SourceFile.placed (f : SourceFile) : SourceFile := { f with base := f.base + ρ.shift }

/-! ### Syntax -/

/-- An identifier of the placed file; its number in the file stays. -/
def Ident.placed (i : Ident) : Ident := { i with pos := ρ.pos i.pos }

@[simp] theorem Ident.placed_id (i : Ident) : (i.placed ρ).id = i.id := rfl
@[simp] theorem Ident.placed_name (i : Ident) : (i.placed ρ).name = i.name := rfl
@[simp] theorem Ident.placed_pos (i : Ident) : (i.placed ρ).pos = ρ.pos i.pos := rfl
@[simp] theorem Ident.placed_isBlank (i : Ident) : (i.placed ρ).isBlank = i.isBlank := rfl

@[simp] theorem Ident.placed_span (i : Ident) : (i.placed ρ).span = i.span.placed ρ := by
  unfold Ident.span
  rw [Span.ofWidth_placed]
  rfl

/-- A literal of the placed file. -/
def Lit.placed (l : Lit) : Lit := { l with pos := ρ.pos l.pos }

@[simp] theorem Lit.placed_text (l : Lit) : (l.placed ρ).text = l.text := rfl
@[simp] theorem Lit.placed_kind (l : Lit) : (l.placed ρ).kind = l.kind := rfl
@[simp] theorem Lit.placed_pos (l : Lit) : (l.placed ρ).pos = ρ.pos l.pos := rfl

@[simp] theorem Lit.placed_span (l : Lit) : (l.placed ρ).span = l.span.placed ρ := by
  unfold Lit.span
  rw [Span.ofWidth_placed]
  rfl

/-- A value of the placed file. -/
def Value.placed : Value → Value
  | .bad p => .bad (ρ.pos p)
  | .ident i => .ident (i.placed ρ)
  | .lit l => .lit (l.placed ρ)

/-- A type of the placed file. -/
def TypeExpr.placed : TypeExpr → TypeExpr
  | .bad p => .bad (ρ.pos p)
  | .basic name b => .basic (name.placed ρ) b
  | .array p elem size closing => .array (ρ.pos p) elem.placed (size.placed ρ) (ρ.pos closing)
  | .vector p elem closing => .vector (ρ.pos p) elem.placed (ρ.pos closing)
  | .map p key value closing => .map (ρ.pos p) key.placed value.placed (ρ.pos closing)
  | .named qualifier name => .named (qualifier.map (Ident.placed ρ)) (name.placed ρ)

/-- A parameter of the placed file. -/
def Param.placed (p : Param) : Param := ⟨p.type.placed ρ, p.name.map (Ident.placed ρ)⟩

/-- A signature of the placed file. -/
def Signature.placed (s : Signature) : Signature where
  opening := ρ.pos s.opening
  params := s.params.map (Param.placed ρ)
  closing := ρ.pos s.closing
  result := s.result.map (TypeExpr.placed ρ)

/-- The type of a member of the placed file. -/
def MemberType.placed : MemberType → MemberType
  | .plain t => .plain (t.placed ρ)
  | .func s => .func (s.placed ρ)

/-- A member of the placed file. -/
def Member.placed (m : Member) : Member where
  doc := m.doc.map (CommentGroup.placed ρ)
  options := m.options.map (Ident.placed ρ)
  type := m.type.map (MemberType.placed ρ)
  names := m.names.map (Ident.placed ρ)
  value := m.value.map (Value.placed ρ)
  tag := m.tag.map (Lit.placed ρ)
  comment := m.comment.map (CommentGroup.placed ρ)

/-- The members of a bean of the placed file. -/
def MemberList.placed (ms : MemberList) : MemberList :=
  ⟨ρ.pos ms.opening, ms.members.map (Member.placed ρ), ρ.pos ms.closing⟩

/-- A bean of the placed file. -/
def Bean.placed (b : Bean) : Bean where
  kind := b.kind
  pos := ρ.pos b.pos
  doc := b.doc.map (CommentGroup.placed ρ)
  name := b.name.placed ρ
  tag := b.tag.map (Lit.placed ρ)
  body := b.body.placed ρ

/-- An import of the placed file. -/
def ImportSpec.placed (s : ImportSpec) : ImportSpec where
  doc := s.doc.map (CommentGroup.placed ρ)
  localName := s.localName.map (Ident.placed ρ)
  path := s.path.placed ρ
  comment := s.comment.map (CommentGroup.placed ρ)

/-- A constant of the placed file. -/
def ConstSpec.placed (s : ConstSpec) : ConstSpec where
  doc := s.doc.map (CommentGroup.placed ρ)
  name := s.name.placed ρ
  value := s.value.map (Value.placed ρ)
  comment := s.comment.map (CommentGroup.placed ρ)

/-- Specifications of the placed file, each placed by `spec`. -/
def SpecGroup.placed {α : Type} (spec : α → α) (g : SpecGroup α) : SpecGroup α where
  doc := g.doc.map (CommentGroup.placed ρ)
  pos := ρ.pos g.pos
  parens := g.parens.map fun p => (ρ.pos p.1, ρ.pos p.2)
  specs := g.specs.map spec

/-- A declaration of the placed file. -/
def Decl.placed : Decl → Decl
  | .bad span => .bad ⟨ρ.pos span.start, ρ.pos span.stop⟩
  | .imports g => .imports (g.placed ρ (ImportSpec.placed ρ))
  | .consts g => .consts (g.placed ρ (ConstSpec.placed ρ))
  | .bean b => .bean (b.placed ρ)

/-- A qualified name of the placed file. -/
def QualifiedRef.placed (q : QualifiedRef) : QualifiedRef :=
  ⟨q.qualifier.placed ρ, q.name.placed ρ⟩

/-! ### Scopes and objects -/

/-- Where an object of the placed file is declared. -/
def Origin.placed : Origin → Origin
  | .none => .none
  | .package id => .package id
  | .decl _ d => .decl ρ.fileId d
  | .spec _ d i => .spec ρ.fileId d i
  | .field _ d i => .field ρ.fileId d i

/-- An object of the placed file. -/
def Object.placed (o : Object) : Object :=
  { o with origin := o.origin.placed ρ, pos := ρ.pos o.pos }

@[simp] theorem Object.placed_name (o : Object) : (o.placed ρ).name = o.name := rfl
@[simp] theorem Object.placed_kind (o : Object) : (o.placed ρ).kind = o.kind := rfl
@[simp] theorem Object.placed_pos (o : Object) : (o.placed ρ).pos = ρ.pos o.pos := rfl
@[simp] theorem Object.placed_origin (o : Object) : (o.placed ρ).origin = o.origin.placed ρ := rfl

/-- A scope of the placed file. -/
def Scope.placed (s : Scope) : Scope where
  outer := s.outer.map ρ.scope
  names := s.names.map fun e => (e.1, ρ.object e.2)

/-- The symbols of the placed file, behind those that are there. -/
def SymbolTable.placed (t : SymbolTable) : SymbolTable where
  scopes := ρ.before.scopes ++ t.scopes.map (Scope.placed ρ)
  objects := ρ.before.objects ++ t.objects.map (Object.placed ρ)

/-- What the identifiers of the placed file stand for. -/
def Resolutions.placed (r : Resolutions) : Resolutions := ⟨r.objects.map (Option.map ρ.object)⟩

/-- A parsed file, placed. -/
def File.placed (f : File) : File where
  id := ρ.fileId
  filename := f.filename
  doc := f.doc.map (CommentGroup.placed ρ)
  packagePos := ρ.pos f.packagePos
  name := f.name.placed ρ
  decls := f.decls.map (Decl.placed ρ)
  scope := ρ.scope f.scope
  unresolved := f.unresolved.map (Ident.placed ρ)
  qualified := f.qualified.map (QualifiedRef.placed ρ)
  comments := f.comments.map (CommentGroup.placed ρ)
  resolutions := f.resolutions.placed ρ

/-- A state of parsing, placed. -/
def ParseState.placed (s : ParseState) : ParseState where
  file := s.file.placed ρ
  fileId := ρ.fileId
  left := s.left.map (SignificantToken.placed ρ)
  eof := s.eof.placed ρ
  lead := s.lead.map (CommentGroup.placed ρ)
  symbols := s.symbols.placed ρ
  fileScope := ρ.scope s.fileScope
  declIndex := s.declIndex
  nextIdent := s.nextIdent
  resolutions := s.resolutions.placed ρ
  pending := s.pending.map (Ident.placed ρ)
  qualified := s.qualified.map (QualifiedRef.placed ρ)
  diagnostics := s.diagnostics.map (Diagnostic.placed ρ)
  syncPos := ρ.pos s.syncPos
  syncStops := s.syncStops

/-! ### Lines of a placed file -/

theorem SourceFile.contains_placed (f : SourceFile) {p : Pos} (h : p ≠ 0) :
    (f.placed ρ).contains (ρ.pos p) = f.contains p := by
  rw [ρ.pos_of_ne h]
  unfold contains placed
  congr 1 <;> rw [decide_eq_decide] <;> simp only [Pos] at * <;> omega

/-- A placed file finds the same place at a placed position. -/
@[simp] theorem SourceFile.position_placed (f : SourceFile) (p : Pos) :
    (f.placed ρ).position (ρ.pos p) = f.position p := by
  unfold position
  by_cases h : p = 0
  · rw [h, ρ.pos_zero]
    rfl
  · have hp : ρ.pos p - (f.placed ρ).base = p - f.base := by
      rw [ρ.pos_of_ne h]
      exact Nat.add_sub_add_right p ρ.shift f.base
    rw [f.contains_placed ρ h, ρ.isValid_pos, hp]
    rfl

@[simp] theorem SourceFile.lineOf_placed (f : SourceFile) (p : Pos) :
    (f.placed ρ).lineOf (ρ.pos p) = f.lineOf p := by
  unfold lineOf
  rw [position_placed]

/-! ### Names in a placed table -/

/-- Changing an element and mapping commute, where the two changes correspond. -/
theorem map_modify_array {α β : Type} {f : α → β} {g : α → α} {h : β → β}
    (hfg : ∀ x, f (g x) = h (f x)) (xs : Array α) (i : Nat) :
    (xs.modify i g).map f = (xs.map f).modify i h := by
  apply Array.ext_getElem?
  intro j
  rw [Array.getElem?_map, Array.getElem?_modify, Array.getElem?_modify, Array.getElem?_map]
  split
  · rw [Option.map_map, Option.map_map]
    exact congrArg (Option.map · _) (funext hfg)
  · rfl

/-- Changing an element of the second part leaves the first part alone. -/
theorem modify_append_array {α : Type} (g : α → α) (xs ys : Array α) (i : Nat) :
    (xs ++ ys).modify (xs.size + i) g = xs ++ ys.modify i g := by
  apply Array.ext_getElem?
  intro j
  rw [Array.getElem?_modify, Array.getElem?_append, Array.getElem?_append, Array.getElem?_modify]
  rcases Nat.lt_or_ge j xs.size with hj | hj
  · have hne : ¬ xs.size + i = j := by omega
    rw [if_neg hne, if_pos hj, if_pos hj]
  · have hnl : ¬ j < xs.size := by omega
    rw [if_neg hnl, if_neg hnl]
    by_cases h : i = j - xs.size
    · have heq : xs.size + i = j := by omega
      rw [if_pos h, if_pos heq]
    · have hne : ¬ xs.size + i = j := by omega
      rw [if_neg h, if_neg hne]

theorem Scope.find?_placed (s : Scope) (name : String) :
    (s.placed ρ).find? name = (s.find? name).map ρ.object := by
  unfold Scope.find? Scope.placed
  rw [List.find?_map, Option.map_map, Option.map_map]
  rfl

namespace SymbolTable

variable (t : SymbolTable)

theorem getElem?_scopes_placed (i : ScopeId) :
    (t.placed ρ).scopes[ρ.scope i]? = t.scopes[i]?.map (Scope.placed ρ) := by
  unfold placed Placement.scope
  rw [Array.getElem?_append_right (Nat.le_add_right ..), Nat.add_sub_cancel_left,
    Array.getElem?_map]

theorem getElem?_objects_placed (i : ObjectId) :
    (t.placed ρ).objects[ρ.object i]? = t.objects[i]?.map (Object.placed ρ) := by
  unfold placed Placement.object
  rw [Array.getElem?_append_right (Nat.le_add_right ..), Nat.add_sub_cancel_left,
    Array.getElem?_map]

theorem posOf_placed (i : ObjectId) : (t.placed ρ).posOf (ρ.object i) = ρ.pos (t.posOf i) := by
  unfold posOf
  rw [getElem?_objects_placed]
  cases t.objects[i]? <;> simp

theorem lookup?_placed (i : ScopeId) (name : String) :
    (t.placed ρ).lookup? (ρ.scope i) name = (t.lookup? i name).map ρ.object := by
  unfold lookup?
  rw [getElem?_scopes_placed]
  cases t.scopes[i]? with
  | none => rfl
  | some s => exact s.find?_placed ρ name

/-- Resolution in a placed table stays among the scopes of the file. -/
theorem resolve?_placed (i : ScopeId) (name : String) :
    (t.placed ρ).resolve? (ρ.scope i) name = (t.resolve? i name).map ρ.object := by
  fun_induction t.resolve? i name with
  | case1 i h =>
    rw [resolve?, getElem?_scopes_placed, h]
    rfl
  | case2 i s h id hf =>
    rw [resolve?, getElem?_scopes_placed, h]
    simp only [Option.map_some, s.find?_placed ρ, hf]
  | case3 i s h hf ho =>
    rw [resolve?, getElem?_scopes_placed, h]
    simp only [Option.map_some, s.find?_placed ρ, hf, Option.map_none]
    simp only [Scope.placed, ho, Option.map_none]
  | case4 i s h hf o ho hlt ih =>
    rw [resolve?, getElem?_scopes_placed, h]
    simp only [Option.map_some, s.find?_placed ρ, hf, Option.map_none]
    simp only [Scope.placed, ho, Option.map_some]
    rw [if_pos (ρ.scope_lt_scope.2 hlt), ih]
  | case5 i s h hf o ho hlt =>
    rw [resolve?, getElem?_scopes_placed, h]
    simp only [Option.map_some, s.find?_placed ρ, hf, Option.map_none]
    simp only [Scope.placed, ho, Option.map_some]
    rw [if_neg fun hl => hlt (ρ.scope_lt_scope.1 hl)]

theorem newObject_placed (o : Object) :
    (t.placed ρ).newObject (o.placed ρ) =
      (ρ.object (t.newObject o).1, (t.newObject o).2.placed ρ) := by
  simp [newObject, placed, Placement.object]

theorem newScope_placed (outer : Option ScopeId) :
    (t.placed ρ).newScope (outer.map ρ.scope) =
      (ρ.scope (t.newScope outer).1, (t.newScope outer).2.placed ρ) := by
  simp [newScope, placed, Placement.scope, Scope.placed]

theorem insert_placed (i : ScopeId) (o : ObjectId) :
    (t.placed ρ).insert (ρ.scope i) (ρ.object o) =
      ((t.insert i o).1.map ρ.object, (t.insert i o).2.placed ρ) := by
  unfold insert
  rw [getElem?_objects_placed]
  cases h : t.objects[o]? with
  | none => rfl
  | some x =>
    simp only [Option.map_some, Object.placed_name, lookup?_placed]
    cases t.lookup? i x.name with
    | some _ => rfl
    | none =>
      simp only [Option.map_none, Prod.mk.injEq, true_and]
      unfold placed Placement.scope
      rw [modify_append_array, map_modify_array]
      exact fun _ => rfl

end SymbolTable

namespace Resolutions

variable (r : Resolutions)

theorem get?_placed (i : IdentId) : (r.placed ρ).get? i = (r.get? i).map ρ.object := by
  unfold get? placed
  rw [Array.getElem?_map]
  cases r.objects[i]? <;> rfl

theorem set_placed (i : IdentId) (o : ObjectId) :
    (r.placed ρ).set i (ρ.object o) = (r.set i o).placed ρ := by
  have h := map_modify_array (f := Option.map ρ.object) (g := fun _ => some o)
    (h := fun _ => some (ρ.object o)) (fun _ => rfl)
    (r.objects ++ Array.replicate (i + 1 - r.objects.size) none) i
  rw [Array.map_append, Array.map_replicate] at h
  unfold set placed
  rw [h, Array.size_map]
  rfl

end Resolutions

end Idl
