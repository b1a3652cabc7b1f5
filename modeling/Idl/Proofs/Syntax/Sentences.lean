/-
Idl/Proofs/Syntax/Sentences.lean

The grammar of schema files, as languages of tokens.

Each rule of the grammar is the set of the sequences of tokens that it allows.  Types nest, so their
language is one for each bound on the containers around a type; everything else is built from it by
alternatives, sequences and repetitions.  `Heads` says which kinds of token the sentences of a
language start with, which is what a parser decides by.
-/
import Idl.Builtin
import Idl.Token
import Mathlib.Computability.Language
import Mathlib.Order.CompletePartialOrder

namespace Idl

open scoped Computability

namespace Grammar

/-! ### Tokens -/

/-- One token of a kind. -/
def token (k : TokenKind) : Language Token := {ts | ∃ t, t.kind = k ∧ ts = [t]}

/-- One identifier with a certain spelling. -/
def name (p : String → Prop) : Language Token :=
  {ts | ∃ t, t.kind = .ident ∧ p t.text ∧ ts = [t]}

/-- One punctuation mark. -/
def mark (p : Punct) : Language Token := token (.punct p)

/-- One reserved word. -/
def keyword (k : Keyword) : Language Token := token (.keyword k)

/-- An identifier. -/
def ident : Language Token := token .ident

/-- What may be missing. -/
def optional (l : Language Token) : Language Token := 1 + l

/-! ### Rules -/

/-- The names of the containers, which mean no type by themselves. -/
def containers : List String := ["map", "array", "vector"]

/-- A type in which fewer than `n` containers stand around any type.

    TypeName = Ident "." Ident | "map" "<" TypeName "," TypeName ">"
             | "array" "<" TypeName "," ( INT | Ident ) ">" | "vector" "<" TypeName ">" | Ident -/
def typeName : Nat → Language Token
  | 0 => 0
  | n + 1 => ident * mark .period * ident +
      name (· = "map") * mark .less * typeName n * mark .comma * typeName n * mark .greater +
      name (· = "array") * mark .less * typeName n * mark .comma * (token .int + ident) *
        mark .greater +
      name (· = "vector") * mark .less * typeName n * mark .greater +
      name (· ∉ containers)

section Types

variable (n : Nat)

theorem qualified_le : ident * (mark .period * ident) ≤ typeName (n + 1) := by
  rw [← mul_assoc]
  exact le_add_right (le_add_right (le_add_right (le_add_right le_rfl)))

theorem map_le : name (· = Builtin.map.name) * (mark .less * (typeName n * (mark .comma *
    (typeName n * mark .greater)))) ≤ typeName (n + 1) := by
  simp only [← mul_assoc]
  exact le_add_right (le_add_right (le_add_right (le_add_left le_rfl)))

theorem array_le : name (· = Builtin.array.name) * (mark .less * (typeName n * (mark .comma *
    ((token .int + ident) * mark .greater)))) ≤ typeName (n + 1) := by
  simp only [← mul_assoc]
  exact le_add_right (le_add_right (le_add_left le_rfl))

theorem vector_le : name (· = Builtin.vector.name) * (mark .less * (typeName n * mark .greater)) ≤
    typeName (n + 1) := by
  simp only [← mul_assoc]
  exact le_add_right (le_add_left le_rfl)

theorem plain_le : name (· ∉ containers) ≤ typeName (n + 1) := le_add_left le_rfl

end Types

/-- A name that means no container is a type. -/
theorem not_container {n : String} (h : ∀ b, Builtin.ofName? n = some b → b.isContainer = false) :
    n ∉ containers := by
  intro hn
  simp only [containers, List.mem_cons, List.not_mem_nil, or_false] at hn
  rcases hn with rfl | rfl | rfl
  · exact absurd (h .map (Builtin.ofName?_name .map)) (by decide)
  · exact absurd (h .array (Builtin.ofName?_name .array)) (by decide)
  · exact absurd (h .vector (Builtin.ofName?_name .vector)) (by decide)

theorem name_le {p q : String → Prop} (h : ∀ n, p n → q n) : name p ≤ name q :=
  fun _ ⟨t, hk, hp, ht⟩ => ⟨t, hk, h _ hp, ht⟩

theorem name_le_ident (p : String → Prop) : name p ≤ ident := fun _ ⟨t, hk, _, ht⟩ => ⟨t, hk, ht⟩

/-- One or more names. -/
def identList : Language Token := ident * (mark .comma * ident)∗

/-- A semicolon that may be missing. -/
def semicolon : Language Token := optional (mark .semicolon)

/-- One specification behind a keyword, or several between parentheses. -/
def group (k : Keyword) (spec : Language Token) : Language Token :=
  keyword k * (spec + mark .lparen * spec∗ * mark .rparen)

/-- An import: `[ "." | Ident ] STRING [ ";" ]`. -/
def importSpec : Language Token :=
  optional (mark .period + ident) * token .string * semicolon

/-- A constant: `Ident [ "=" ( INT | FLOAT | STRING | Ident ) ] [ ";" ]`. -/
def constSpec : Language Token :=
  ident * optional (mark .assign * (token .int + token .float + token .string + ident)) * semicolon

/-- A field: `Option* ( "extends" TypeName | TypeName IdentList ) [ STRING ] [ ";" ]`. -/
def fieldDecl (n : Nat) : Language Token :=
  (keyword .required + keyword .optional)∗ * (keyword .ext * typeName n + typeName n * identList) *
    optional (token .string) * semicolon

/-- Parameters: `( TypeName [ Ident ] [ "," ] )*`. -/
def paramList (n : Nat) : Language Token :=
  (typeName n * optional ident * optional (mark .comma))∗

/-- A method, or a service to extend:
`TypeName "(" ParamList ")" [ TypeName ] [ ";" ] | TypeName [ ";" ]`. -/
def methodSpec (n : Nat) : Language Token :=
  typeName n * mark .lparen * paramList n * mark .rparen * optional (typeName n) * semicolon +
    typeName n * semicolon

/-- A member of an enumeration without its comma: `Ident "=" ( INT | Ident )`. -/
def enumSpec : Language Token := ident * mark .assign * (token .int + ident)

/-- The members of an enumeration, with a comma after each that the last one may lack. -/
def enumBody : Language Token := (enumSpec * mark .comma)∗ * optional enumSpec

/-- A bean: a keyword, `Ident [ STRING ] "\x7b" Body "\x7d"`. -/
def bean (k : Keyword) (body : Language Token) : Language Token :=
  keyword k * ident * optional (token .string) * mark .lbrace * body * mark .rbrace

/-- A declaration behind the imports, but for services. -/
def dataDecl (n : Nat) : Language Token :=
  group .const constSpec + bean .struct (fieldDecl n)∗ + bean .protocol (fieldDecl n)∗ +
    bean .enum enumBody

/-- A service. -/
def serviceDecl (n : Nat) : Language Token := bean .service (methodSpec n)∗

/-- A file with certain declarations behind its imports:
`"package" Ident [ ";" ] ImportDecl* TopDecl* EOF`. -/
def file (decl : Language Token) : Language Token :=
  keyword .pkg * ident * semicolon * (group .imp importSpec)∗ * decl∗ * token .eof

/-! ### First tokens -/

/-- Every sentence has a first token, of one of the kinds. -/
def Heads (p : TokenKind → Prop) (l : Language Token) : Prop :=
  ∀ ts ∈ l, ∃ t ∈ ts.head?, p t.kind

namespace Heads

variable {p q : TokenKind → Prop} {l m : Language Token}

theorem token {k : TokenKind} (h : p k) : Heads p (token k) := by
  rintro ts ⟨t, rfl, rfl⟩
  exact ⟨t, rfl, h⟩

theorem name {r : String → Prop} (h : p .ident) : Heads p (name r) := by
  rintro ts ⟨t, hk, -, rfl⟩
  exact ⟨t, rfl, hk ▸ h⟩

theorem imp (h : Heads p l) (hpq : ∀ k, p k → q k) : Heads q l := by
  intro ts hts
  obtain ⟨t, ht, hp⟩ := h ts hts
  exact ⟨t, ht, hpq _ hp⟩

theorem add (h : Heads p l) (h' : Heads p m) : Heads p (l + m) := by
  rintro ts (hts | hts)
  · exact h ts hts
  · exact h' ts hts

theorem zero : Heads p 0 := fun ts hts => absurd hts (Language.notMem_zero ts)

theorem mul (h : Heads p l) : Heads p (l * m) := by
  intro ts hts
  obtain ⟨as, has, bs, -, rfl⟩ := Language.mem_mul.1 hts
  obtain ⟨t, ht, hp⟩ := h as has
  refine ⟨t, ?_, hp⟩
  rw [List.head?_append, Option.mem_def.1 ht]
  rfl

/-- What follows counts where the first part may be missing. -/
theorem optional (h : Heads p l) (h' : Heads p m) : Heads p (optional l * m) := by
  unfold Grammar.optional
  rw [add_mul, one_mul]
  exact h'.add h.mul

theorem star (h : Heads p l) (h' : Heads p m) : Heads p (l∗ * m) := by
  have hunfold : l∗ * m = m + l * l∗ * m := by
    rw [← Language.one_add_self_mul_kstar_eq_kstar l, add_mul, one_mul]
    rw [Language.one_add_self_mul_kstar_eq_kstar l]
  rw [hunfold]
  exact h'.add (Heads.mul h.mul)

theorem typeName (h : p .ident) (n : Nat) : Heads p (typeName n) := by
  cases n with
  | zero => exact zero
  | succ n =>
    have hname (r : String → Prop) : Heads p (Grammar.name r) := name h
    refine add (add (add (add ?_ ?_) ?_) ?_) (hname _)
    · exact mul (mul (token h))
    · exact mul (mul (mul (mul (mul (hname _)))))
    · exact mul (mul (mul (mul (mul (hname _)))))
    · exact mul (mul (mul (hname _)))

end Heads

end Grammar

end Idl
