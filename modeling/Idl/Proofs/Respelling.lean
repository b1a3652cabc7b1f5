/-
Idl/Proofs/Respelling.lean

The same sources, spelled otherwise.

Two texts can say the same and differ in how they are laid out: what stands between the tokens may be
longer, and a comment or a string literal may be spelled in another way.  A `Respelling` says what
becomes of the positions, of the spellings of string literals and of the texts of comments.  Positions
keep their order, the position 0 of nothing stays where it is, a literal stands for what it stood for,
and one that stands for nothing is left alone.  Everything that parsing and linking handle can be
respelled: numbers of files, scopes, objects and identifiers stay, and so does every name.

This module defines what it means to respell a thing.  The laws below are those of the tables: names
are looked up in a respelled table as in the table itself (`SymbolTable.resolve?_respelled`), and the
objects of a scope come in the same order (`SymbolTable.objectsIn_respelled`).
-/
import Idl.Package
import Idl.Syntax.File
import Mathlib.Order.Monotone.Basic

namespace Idl

/-- How sources are spelled otherwise. -/
structure Respelling where
  /-- Where a position goes. -/
  pos : Pos → Pos
  /-- The spelling of a string literal. -/
  literal : String → String
  /-- The text of a comment. -/
  comment : String → String
  pos_zero : pos 0 = 0
  strictMono : StrictMono pos
  unquote?_literal (t : String) : unquote? (literal t) = unquote? t
  literal_malformed {t : String} : unquote? t = none → literal t = t

/-! ### Positions and texts -/

namespace Respelling

variable (ρ : Respelling)

theorem pos_lt_pos {p q : Pos} : ρ.pos p < ρ.pos q ↔ p < q := ρ.strictMono.lt_iff_lt

theorem pos_inj {p q : Pos} : ρ.pos p = ρ.pos q ↔ p = q := ρ.strictMono.injective.eq_iff

theorem literal_empty : ρ.literal "" = "" := ρ.literal_malformed rfl

/-- The text of a token of the given kind. -/
def text : TokenKind → String → String
  | .string, t => ρ.literal t
  | .comment, t => ρ.comment t
  | _, t => t

/-- The spelling of a literal of the given kind. -/
def spelling : LitKind → String → String
  | .string, t => ρ.literal t
  | _, t => t

end Respelling

variable (ρ : Respelling)

/-- A token, respelled. -/
def Token.respelled (t : Token) : Token :=
  ⟨t.kind, ρ.text t.kind t.text, ⟨ρ.pos t.span.start, ρ.pos t.span.stop⟩⟩

@[simp] theorem Token.respelled_kind (t : Token) : (t.respelled ρ).kind = t.kind := rfl
@[simp] theorem Token.respelled_pos (t : Token) : (t.respelled ρ).pos = ρ.pos t.pos := rfl

@[simp] theorem Token.respelled_text (t : Token) :
    (t.respelled ρ).text = ρ.text t.kind t.text := rfl

/-- A comment, respelled. -/
def Comment.respelled (c : Comment) : Comment := ⟨ρ.pos c.slash, ρ.comment c.text⟩

/-- A comment group, respelled. -/
def CommentGroup.respelled (g : CommentGroup) : CommentGroup :=
  ⟨g.comments.map (Comment.respelled ρ)⟩

/-- A significant token, respelled. -/
def SignificantToken.respelled (t : SignificantToken) : SignificantToken where
  token := t.token.respelled ρ
  lead := t.lead.map (CommentGroup.respelled ρ)
  trailing := t.trailing.map (CommentGroup.respelled ρ)
  groups := t.groups.map (CommentGroup.respelled ρ)

@[simp] theorem SignificantToken.respelled_token (t : SignificantToken) :
    (t.respelled ρ).token = t.token.respelled ρ := rfl

/-! ### Syntax -/

/-- An identifier at its new position. -/
def Ident.respelled (i : Ident) : Ident := { i with pos := ρ.pos i.pos }

@[simp] theorem Ident.respelled_id (i : Ident) : (i.respelled ρ).id = i.id := rfl
@[simp] theorem Ident.respelled_name (i : Ident) : (i.respelled ρ).name = i.name := rfl
@[simp] theorem Ident.respelled_pos (i : Ident) : (i.respelled ρ).pos = ρ.pos i.pos := rfl

/-- A literal, respelled. -/
def Lit.respelled (l : Lit) : Lit := ⟨ρ.pos l.pos, l.kind, ρ.spelling l.kind l.text⟩

/-- A respelled literal stands for what the literal stands for. -/
@[simp] theorem Lit.unquote?_respelled (l : Lit) : unquote? (l.respelled ρ).text = unquote? l.text := by
  rcases l with ⟨pos, kind, text⟩
  cases kind with
  | string => exact ρ.unquote?_literal text
  | _ => rfl

/-- A value, respelled. -/
def Value.respelled : Value → Value
  | .bad p => .bad (ρ.pos p)
  | .ident i => .ident (i.respelled ρ)
  | .lit l => .lit (l.respelled ρ)

/-- A type at its new positions. -/
def TypeExpr.respelled : TypeExpr → TypeExpr
  | .bad p => .bad (ρ.pos p)
  | .basic name b => .basic (name.respelled ρ) b
  | .array p elem size closing =>
    .array (ρ.pos p) elem.respelled (size.respelled ρ) (ρ.pos closing)
  | .vector p elem closing => .vector (ρ.pos p) elem.respelled (ρ.pos closing)
  | .map p key value closing => .map (ρ.pos p) key.respelled value.respelled (ρ.pos closing)
  | .named qualifier name => .named (qualifier.map (Ident.respelled ρ)) (name.respelled ρ)

/-- A parameter, respelled. -/
def Param.respelled (p : Param) : Param := ⟨p.type.respelled ρ, p.name.map (Ident.respelled ρ)⟩

/-- A signature, respelled. -/
def Signature.respelled (s : Signature) : Signature where
  opening := ρ.pos s.opening
  params := s.params.map (Param.respelled ρ)
  closing := ρ.pos s.closing
  result := s.result.map (TypeExpr.respelled ρ)

/-- The type of a member, respelled. -/
def MemberType.respelled : MemberType → MemberType
  | .plain t => .plain (t.respelled ρ)
  | .func s => .func (s.respelled ρ)

/-- A member, respelled. -/
def Member.respelled (m : Member) : Member where
  doc := m.doc.map (CommentGroup.respelled ρ)
  options := m.options.map (Ident.respelled ρ)
  type := m.type.map (MemberType.respelled ρ)
  names := m.names.map (Ident.respelled ρ)
  value := m.value.map (Value.respelled ρ)
  tag := m.tag.map (Lit.respelled ρ)
  comment := m.comment.map (CommentGroup.respelled ρ)

/-- The members of a bean, respelled. -/
def MemberList.respelled (ms : MemberList) : MemberList :=
  ⟨ρ.pos ms.opening, ms.members.map (Member.respelled ρ), ρ.pos ms.closing⟩

/-- A bean, respelled. -/
def Bean.respelled (b : Bean) : Bean where
  kind := b.kind
  pos := ρ.pos b.pos
  doc := b.doc.map (CommentGroup.respelled ρ)
  name := b.name.respelled ρ
  tag := b.tag.map (Lit.respelled ρ)
  body := b.body.respelled ρ

/-- An import, respelled. -/
def ImportSpec.respelled (s : ImportSpec) : ImportSpec where
  doc := s.doc.map (CommentGroup.respelled ρ)
  localName := s.localName.map (Ident.respelled ρ)
  path := s.path.respelled ρ
  comment := s.comment.map (CommentGroup.respelled ρ)

/-- The same package is imported. -/
@[simp] theorem ImportSpec.id?_respelled (s : ImportSpec) : (s.respelled ρ).id? = s.id? := by
  unfold ImportSpec.id? importId?
  rw [show (s.respelled ρ).path = s.path.respelled ρ from rfl, Lit.unquote?_respelled]

/-- A constant, respelled. -/
def ConstSpec.respelled (s : ConstSpec) : ConstSpec where
  doc := s.doc.map (CommentGroup.respelled ρ)
  name := s.name.respelled ρ
  value := s.value.map (Value.respelled ρ)
  comment := s.comment.map (CommentGroup.respelled ρ)

/-- Specifications, each respelled by `spec`. -/
def SpecGroup.respelled {α : Type} (spec : α → α) (g : SpecGroup α) : SpecGroup α where
  doc := g.doc.map (CommentGroup.respelled ρ)
  pos := ρ.pos g.pos
  parens := g.parens.map fun p => (ρ.pos p.1, ρ.pos p.2)
  specs := g.specs.map spec

/-- A declaration, respelled. -/
def Decl.respelled : Decl → Decl
  | .bad span => .bad ⟨ρ.pos span.start, ρ.pos span.stop⟩
  | .imports g => .imports (g.respelled ρ (ImportSpec.respelled ρ))
  | .consts g => .consts (g.respelled ρ (ConstSpec.respelled ρ))
  | .bean b => .bean (b.respelled ρ)

/-- A qualified name at its new positions. -/
def QualifiedRef.respelled (q : QualifiedRef) : QualifiedRef :=
  ⟨q.qualifier.respelled ρ, q.name.respelled ρ⟩

/-! ### Symbols, files and states -/

/-- An object at its new position. -/
def Object.respelled (o : Object) : Object := { o with pos := ρ.pos o.pos }

/-- The symbols, their objects at their new positions. -/
def SymbolTable.respelled (t : SymbolTable) : SymbolTable :=
  { t with objects := t.objects.map (Object.respelled ρ) }

/-- A parsed file, respelled. -/
def File.respelled (f : File) : File where
  id := f.id
  filename := f.filename
  doc := f.doc.map (CommentGroup.respelled ρ)
  packagePos := ρ.pos f.packagePos
  name := f.name.respelled ρ
  decls := f.decls.map (Decl.respelled ρ)
  scope := f.scope
  unresolved := f.unresolved.map (Ident.respelled ρ)
  qualified := f.qualified.map (QualifiedRef.respelled ρ)
  comments := f.comments.map (CommentGroup.respelled ρ)
  resolutions := f.resolutions

/-- A package, its files respelled. -/
def Package.respelled (p : Package) : Package :=
  { p with files := p.files.map (File.respelled ρ) }

/-- A state of parsing, respelled but for its file and what has been reported. -/
def ParseState.respelled (s : ParseState) : ParseState :=
  { s with
    left := s.left.map (SignificantToken.respelled ρ)
    eof := s.eof.respelled ρ
    lead := s.lead.map (CommentGroup.respelled ρ)
    symbols := s.symbols.respelled ρ
    pending := s.pending.map (Ident.respelled ρ)
    qualified := s.qualified.map (QualifiedRef.respelled ρ)
    syncPos := ρ.pos s.syncPos }

/-! ### Names in a respelled table -/

namespace SymbolTable

variable (t : SymbolTable)

theorem posOf_respelled (i : ObjectId) : (t.respelled ρ).posOf i = ρ.pos (t.posOf i) := by
  unfold posOf respelled
  rw [Array.getElem?_map]
  cases t.objects[i]? with
  | none => exact ρ.pos_zero.symm
  | some o => rfl

theorem lookup?_respelled (i : ScopeId) (name : String) :
    (t.respelled ρ).lookup? i name = t.lookup? i name := rfl

theorem resolve?_respelled (i : ScopeId) (name : String) :
    (t.respelled ρ).resolve? i name = t.resolve? i name := by
  have hscopes : (t.respelled ρ).scopes = t.scopes := rfl
  fun_induction t.resolve? i name with
  | case1 i h => rw [resolve?, hscopes, h]
  | case2 i s h id hf => simp only [resolve?, hscopes, h, hf]
  | case3 i s h hf ho => simp only [resolve?, hscopes, h, hf, ho]
  | case4 i s h hf o ho hlt ih =>
    rw [resolve?, hscopes, h]
    simp only [hf, ho]
    rw [if_pos hlt, ih]
  | case5 i s h hf o ho hlt =>
    rw [resolve?, hscopes, h]
    simp only [hf, ho]
    rw [if_neg hlt]

theorem newObject_respelled (o : Object) : (t.respelled ρ).newObject (o.respelled ρ) =
    ((t.newObject o).1, (t.newObject o).2.respelled ρ) := by
  simp [newObject, respelled]

theorem newScope_respelled (outer : Option ScopeId) : (t.respelled ρ).newScope outer =
    ((t.newScope outer).1, (t.newScope outer).2.respelled ρ) := rfl

theorem insert_respelled (i : ScopeId) (o : ObjectId) : (t.respelled ρ).insert i o =
    ((t.insert i o).1, (t.insert i o).2.respelled ρ) := by
  have hobject : (t.respelled ρ).objects[o]? = t.objects[o]?.map (Object.respelled ρ) :=
    Array.getElem?_map
  unfold insert
  rw [hobject]
  cases t.objects[o]? with
  | none => rfl
  | some x =>
    simp only [Option.map_some, lookup?_respelled]
    rw [show (x.respelled ρ).name = x.name from rfl]
    cases t.lookup? i x.name with
    | some _ => rfl
    | none => rfl

/-- The objects of a scope come in the same order. -/
theorem objectsIn_respelled (i : ScopeId) : (t.respelled ρ).objectsIn i = t.objectsIn i := by
  unfold objectsIn
  simp only [posOf_respelled, ρ.pos_lt_pos, ρ.pos_inj]
  rfl

end SymbolTable

end Idl
