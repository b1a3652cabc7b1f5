/-
Idl/Proofs/Ir/TypeText.lean

The text of a type is schema text for the type.

A type that can be written is the type of a field, if it stands in front of a name in a struct
(`Parse.field_consumes`), so a source with just that field is compiled to it.  Where containers nest
too deep, the source is no sentence of the grammar (`Ir.Ty.Writable.nesting_lt`), and what is no
sentence is reported.

Main result: fields are compiled to the types that they are written with (`fieldSource_compiles`).
-/
import Idl.Proofs.Ir.Single
import Idl.Proofs.Syntax.Accepted

namespace Idl

open scoped Computability

/-- A type starts with a name, and no parenthesis stands in a type. -/
theorem Ir.Ty.words_cons (t : Ty) (line : Nat) : ∃ text ws, t.words line = .name text line :: ws ∧
    ∀ rest, headKind rest ≠ .punct .lparen → headKind (ws ++ rest) ≠ .punct .lparen := by
  cases t with
  | struct package name =>
    unfold words
    split
    · exact ⟨name, [], rfl, fun _ h => h⟩
    · exact ⟨package, _, rfl, fun _ _ h => by cases h⟩
  | array elem size => exact ⟨"array", _, rfl, fun _ _ h => by cases h⟩
  | vector elem => exact ⟨"vector", _, rfl, fun _ _ h => by cases h⟩
  | map key value => exact ⟨"map", _, rfl, fun _ _ h => by cases h⟩
  | _ => exact ⟨_, [], rfl, fun _ h => h⟩

theorem Ir.Ty.headKind_words (t : Ty) (line : Nat) (ws : List Word) :
    headKind (t.words line ++ ws) = .ident := by
  obtain ⟨text, us, hwords, -⟩ := t.words_cons line
  rw [hwords]
  rfl

namespace Parse

variable {rest : List Word} {line : Nat}

/-! ### Fields -/

theorem typeExpr_consumes {t : Ir.Ty} (ht : t.Writable) (hn : t.nesting ≤ 63)
    (hrest : headKind rest ≠ .punct .period) :
    Consumes [] (t.words line) rest typeExpr (·.LowersTo t) := typeNested_consumes ht hn hrest

/-- A single name is taken where no comma follows it. -/
theorem identList_consumes {name : String} (hrest : headKind rest ≠ .punct .comma) :
    Consumes [] [.name name line] rest identList fun is =>
      ∃ i : Ident, is = [i] ∧ i.name = name := by
  refine .before (ident_consumes rfl) fun i hi => ?_
  have hmore : Consumes [] [] rest (iterate moreIdents #[i]) (· = #[i]) :=
    .stop (.check false (beq_false_of_ne hrest) (.pure rfl)) rfl
  exact .before hmore fun is his => .pure ⟨i, congrArg Array.toList his, hi⟩

/-- A type and a name are a field, with the tag that is taken behind them. -/
theorem field_consumes {t : Ir.Ty} (ht : t.Writable) (hn : t.nesting ≤ 63) (name : String)
    {tag : List Word} {T : Option Lit → Prop} (htag : Consumes [] tag rest string? T)
    (hnext : headKind (tag ++ rest) ≠ .punct .comma)
    (hrest : headKind rest ∉ [.punct .comma, .punct .semicolon]) (scope : ScopeId) (index : Nat) :
    Consumes [(scope, name)] (t.words line ++ .name name line :: tag) rest (field scope index)
      fun m => T m.tag ∧ (∃ e, m.type = some (.plain e) ∧ e.LowersTo t) ∧
        m.LowersTo { type := some t, names := [name], tag := lowerTag m.tag } := by
  have hwords : t.words line ++ .name name line :: tag = t.words line ++ [.name name line] ++ tag := by
    rw [List.append_assoc, List.singleton_append]
  have hhead := t.headKind_words line ([.name name line] ++ (tag ++ rest))
  rw [← List.append_assoc] at hhead
  rw [hwords]
  refine .behind takeLead_consumes fun doc hdoc => ?_
  have hnone : Consumes [] [] (t.words line ++ [.name name line] ++ tag ++ rest) fieldOptions
      (· = []) := by
    rw [List.append_assoc]
    refine .before (.stop (.kind .ident hhead (.pure rfl)) rfl) fun os hos => .pure ?_
    rw [← hos]
  refine .behind hnone fun options hoptions => ?_
  have htypeAndNames : Consumes [] (t.words line ++ [.name name line]) (tag ++ rest) typeAndNames
      fun r => r.1.LowersTo t ∧ ∃ i : Ident, r.2 = [i] ∧ i.name = name := by
    refine .check false (by rw [hhead]; rfl) ?_
    refine .next (typeExpr_consumes ht hn (by simp [headKind, Word.name])) fun e he => ?_
    exact .before (identList_consumes hnext) fun is his => .pure ⟨he, his⟩
  refine .next htypeAndNames fun r hr => ?_
  obtain ⟨e, is⟩ := r
  obtain ⟨he, i, rfl, rfl⟩ := hr
  refine .last htag fun l hl => ?_
  refine .behind (endOfItem_consumes (by simpa using hrest)) fun _ _ => ?_
  refine .behind trailing_consumes fun comment hcomment => ?_
  refine .behind (memberOrigin_consumes index) fun origin _ => ?_
  have hdeclared : Consumes [(scope, i.name)] [] rest
      ([i].forM fun name => declare name .var origin none scope) fun _ => True :=
    .before (declare_consumes i .var origin none scope) fun _ _ => .pure trivial
  refine .before hdeclared fun _ _ => .before (resolveTypeExpr_consumes e) fun _ _ => .pure ?_
  refine ⟨hl, ⟨e, rfl, he⟩, List.cons_ne_nil _ _, ?_⟩
  intro env f hbare
  have hlower := he env f (hbare.mono (by simp [Member.types, MemberType.types]))
  simp [Member.lower, MemberType.lower, hlower, hdoc, hoptions, hcomment, lowerDoc, lowerComment]

/-- In a struct, a name starts a field. -/
theorem member?_struct {s : ParseState} (h : s.current.token.kind = .ident) (scope : ScopeId)
    (index : Nat) : member? .struct scope index s =
      (some <$> field scope index : Parse (Option Member)) s := by
  simp only [member?, bind_apply, current, h]

/-- A field is the only member of its struct where the struct ends behind it. -/
theorem fields_consumes {t : Ir.Ty} (ht : t.Writable) (hn : t.nesting ≤ 63) (name : String)
    (scope : ScopeId) :
    Consumes [(scope, name)] (t.words line ++ [.name name line]) (.mark .rbrace line :: rest)
      (iterate (moreMembers .struct scope) #[])
        fun ms => List.Forall₂ Member.LowersTo ms.toList
          [{ type := some t, names := [name] }] := by
  have hfield : Consumes [(scope, name)] (t.words line ++ [.name name line])
      (.mark .rbrace line :: rest) (field scope 0)
        (·.LowersTo { type := some t, names := [name] }) :=
    (field_consumes ht hn name (string?_consumes (by simp [headKind, Word.mark]))
      (by simp [headKind, Word.mark]) (by simp [headKind, Word.mark]) scope 0).imp fun m hm => by
        rw [hm.1] at hm
        exact hm.2.2
  have hmore := moreMembers_consumes (BeanKind.struct) (scope) (#[]) hfield fun s hs => by
    refine member?_struct ?_ scope 0
    rw [hs.kind, List.append_assoc]
    exact t.headKind_words line _
  obtain ⟨w, ws, hws⟩ : ∃ w ws, t.words line ++ [.name name line] = w :: ws :=
    List.exists_cons_of_ne_nil (by simp)
  rw [hws] at hmore ⊢
  have hall : Consumes ([(scope, name)] ++ []) (w :: ws ++ []) (.mark .rbrace line :: rest)
      (iterate (moreMembers .struct scope) #[]) fun ms => List.Forall₂ Member.LowersTo ms.toList
        [{ type := some t, names := [name] }] := by
    refine .again hmore fun ms hms => .stop moreMembers_ended ?_
    obtain ⟨m, rfl, hm⟩ := hms
    exact .cons hm .nil
  rwa [List.append_nil, List.append_nil] at hall

end Parse

/-! ### Taking sentences apart -/

/-- The words are those of a sentence. -/
def Word.Spell (f : SourceFile) (l : Language Token) (ws : List Word) : Prop :=
  ∃ ts ∈ l, ts.map (Token.word f) = ws

namespace Word.Spell

variable {f : SourceFile} {l m : Language Token} {w : Word} {ws : List Word}
  {p : TokenKind → Prop}

theorem token {k : TokenKind} (h : Spell f (Grammar.token k * l) (w :: ws)) :
    w.kind = k ∧ Spell f l ws := by
  obtain ⟨ts, hts, hws⟩ := h
  obtain ⟨_, ⟨t, rfl, rfl⟩, us, hus, rfl⟩ := Language.mem_mul.1 hts
  obtain ⟨rfl, rfl⟩ := List.cons.inj hws
  exact ⟨rfl, us, hus, rfl⟩

theorem name {q : String → Prop} (h : Spell f (Grammar.name q * l) (w :: ws)) :
    q w.text ∧ Spell f l ws := by
  obtain ⟨ts, hts, hws⟩ := h
  obtain ⟨_, ⟨t, -, hq, rfl⟩, us, hus, rfl⟩ := Language.mem_mul.1 hts
  obtain ⟨rfl, rfl⟩ := List.cons.inj hws
  exact ⟨hq, us, hus, rfl⟩

/-- Sentences start with certain words. -/
theorem head (h : Spell f l ws) (hl : Grammar.Heads p l) : p (headKind ws) := by
  obtain ⟨ts, hts, rfl⟩ := h
  obtain ⟨t, ht, hp⟩ := hl ts hts
  rw [headKind, List.head?_map, Option.mem_def.1 ht]
  exact hp

theorem add (h : Spell f (l + m) ws) : Spell f l ws ∨ Spell f m ws := by
  obtain ⟨ts, hts | hts, hws⟩ := h
  · exact .inl ⟨ts, hts, hws⟩
  · exact .inr ⟨ts, hts, hws⟩

/-- What starts with other words is of the other alternative. -/
theorem skip (h : Spell f (l + m) ws) (hl : Grammar.Heads p l) (hw : ¬ p (headKind ws)) :
    Spell f m ws := h.add.resolve_left fun h => hw (h.head hl)

theorem optional (h : Spell f (Grammar.optional l * m) ws) (hl : Grammar.Heads p l)
    (hw : ¬ p (headKind ws)) : Spell f m ws := by
  rw [Grammar.optional, add_mul, one_mul, add_comm] at h
  exact h.skip hl.mul hw

theorem star_mul (l m : Language Token) : l∗ * m = l * (l∗ * m) + m := by
  conv_lhs => rw [← Language.one_add_self_mul_kstar_eq_kstar l]
  rw [add_mul, one_mul, mul_assoc, add_comm]

theorem star (h : Spell f (l∗ * m) ws) (hl : Grammar.Heads p l) (hw : ¬ p (headKind ws)) :
    Spell f m ws := by
  rw [star_mul] at h
  exact h.skip hl.mul hw

/-- A type has at least one level. -/
theorem levels {n : Nat} (h : Spell f (Grammar.typeName n * l) ws) : ∃ m, n = m + 1 := by
  cases n with
  | zero =>
    rw [Grammar.typeName, zero_mul] at h
    obtain ⟨ts, hts, -⟩ := h
    exact absurd hts (Language.notMem_zero ts)
  | succ m => exact ⟨m, rfl⟩

/-- A type is told by its first word, unless that is a qualifier. -/
theorem typeName {n line : Nat} {text : String}
    (h : Spell f (Grammar.typeName (n + 1) * l) (.name text line :: ws)) :
    Spell f (Grammar.mark .period * (Grammar.ident * l)) ws ∨
      text = "map" ∧ Spell f (Grammar.mark .less * (Grammar.typeName n * (Grammar.mark .comma *
        (Grammar.typeName n * (Grammar.mark .greater * l))))) ws ∨
      text = "array" ∧ Spell f (Grammar.mark .less * (Grammar.typeName n * (Grammar.mark .comma *
        ((Grammar.token .int + Grammar.ident) * (Grammar.mark .greater * l))))) ws ∨
      text = "vector" ∧
        Spell f (Grammar.mark .less * (Grammar.typeName n * (Grammar.mark .greater * l))) ws ∨
      text ∉ Grammar.containers ∧ Spell f l ws := by
  rw [Grammar.typeName, add_mul, add_mul, add_mul, add_mul] at h
  simp only [mul_assoc] at h
  rcases h.add with h | h
  · rcases h.add with h | h
    · rcases h.add with h | h
      · rcases h.add with h | h
        · exact .inl h.token.2
        · exact .inr (.inl h.name)
      · exact .inr (.inr (.inl h.name))
    · exact .inr (.inr (.inr (.inl h.name)))
  · exact .inr (.inr (.inr (.inr h.name)))

end Word.Spell

/-! ### Levels -/

namespace Ir.Ty

/-- What the words of a type spell, in front of others, has levels for all its containers. -/
def Leveled (f : SourceFile) (line : Nat) (t : Ty) : Prop :=
  ∀ {n : Nat} {l : Language Token} {ws : List Word}, Grammar.Heads (· ≠ .punct .period) l →
    headKind ws ≠ .punct .period → Word.Spell f (Grammar.typeName n * l) (t.words line ++ ws) →
      t.nesting < n ∧ Word.Spell f l ws

section Leveled

variable {f : SourceFile} {line : Nat}

theorem not_spell_mark {p q : Punct} {ws : List Word} {l : Language Token} (hne : p ≠ q) :
    ¬ Word.Spell f (Grammar.mark q * l) (.mark p line :: ws) := fun h =>
  hne (TokenKind.punct.inj h.token.1)

theorem heads_mark {p : Punct} (hp : p ≠ .period) (l : Language Token) :
    Grammar.Heads (· ≠ .punct .period) (Grammar.mark p * l) :=
  .mul (.token fun h => hp (TokenKind.punct.inj h))

/-- A name that is no container takes a level. -/
theorem leveled_name {name : String} (hname : name ∉ Grammar.containers) {n : Nat}
    {l : Language Token} {ws : List Word} (hws : headKind ws ≠ .punct .period)
    (h : Word.Spell f (Grammar.typeName n * l) (.name name line :: ws)) :
    0 < n ∧ Word.Spell f l ws := by
  obtain ⟨m, rfl⟩ := h.levels
  refine ⟨Nat.succ_pos m, ?_⟩
  rcases h.typeName with h | ⟨rfl, -⟩ | ⟨rfl, -⟩ | ⟨rfl, -⟩ | ⟨-, h⟩
  · exact absurd (h.head (.mul (.token (p := (· = TokenKind.punct .period)) rfl))) hws
  · exact absurd (by decide) hname
  · exact absurd (by decide) hname
  · exact absurd (by decide) hname
  · exact h

theorem leveled_qualified {package name : String} (hp : IsName package) :
    Leveled f line (.struct package name) := by
  intro n l ws hl hws h
  obtain ⟨m, rfl⟩ := h.levels
  have hne : package.isEmpty = false := by
    obtain ⟨c, more, -, -, rfl⟩ := hp.spelled
    simp
  have hwords : (Ty.struct package name).words line ++ ws =
      .name package line :: .mark .period line :: .name name line :: ws := by
    simp [words, hne]
  rw [hwords] at h
  refine ⟨Nat.succ_pos m, ?_⟩
  rcases h.typeName with h | ⟨-, h⟩ | ⟨-, h⟩ | ⟨-, h⟩ | ⟨-, h⟩
  · exact h.token.2.token.2
  · exact absurd h (not_spell_mark (by decide))
  · exact absurd h (not_spell_mark (by decide))
  · exact absurd h (not_spell_mark (by decide))
  · exact absurd rfl (h.head hl)

theorem leveled_vector {elem : Ty} (ih : Leveled f line elem) : Leveled f line (.vector elem) := by
  intro n l ws hl hws h
  obtain ⟨m, rfl⟩ := h.levels
  have hwords : (Ty.vector elem).words line ++ ws = .name "vector" line ::
      .mark .less line :: (elem.words line ++ .mark .greater line :: ws) := by
    simp [words]
  rw [hwords] at h
  rcases h.typeName with h | ⟨h, -⟩ | ⟨h, -⟩ | ⟨-, h⟩ | ⟨h, -⟩
  · exact absurd h (not_spell_mark (by decide))
  · exact absurd h (by decide)
  · exact absurd h (by decide)
  · obtain ⟨hlt, h⟩ := ih (heads_mark (by decide) _) (Parse.headKind_mark (by decide) _) h.token.2
    exact ⟨Nat.succ_lt_succ hlt, h.token.2⟩
  · exact absurd (by decide) h

theorem leveled_map {key value : Ty} (ihk : Leveled f line key) (ihv : Leveled f line value) :
    Leveled f line (.map key value) := by
  intro n l ws hl hws h
  obtain ⟨m, rfl⟩ := h.levels
  have hwords : (Ty.map key value).words line ++ ws = .name "map" line ::
      .mark .less line :: (key.words line ++ .mark .comma line :: (value.words line ++
        .mark .greater line :: ws)) := by
    simp [words]
  rw [hwords] at h
  rcases h.typeName with h | ⟨-, h⟩ | ⟨h, -⟩ | ⟨h, -⟩ | ⟨h, -⟩
  · exact absurd h (not_spell_mark (by decide))
  · obtain ⟨hlt, h⟩ := ihk (heads_mark (by decide) _) (Parse.headKind_mark (by decide) _) h.token.2
    obtain ⟨hlt', h⟩ := ihv (heads_mark (by decide) _) (Parse.headKind_mark (by decide) _) h.token.2
    exact ⟨Nat.succ_lt_succ (max_lt hlt hlt'), h.token.2⟩
  · exact absurd h (by decide)
  · exact absurd h (by decide)
  · exact absurd (by decide) h

theorem leveled_array {elem : Ty} {size : ArraySize} (ih : Leveled f line elem) :
    Leveled f line (.array elem size) := by
  intro n l ws hl hws h
  obtain ⟨m, rfl⟩ := h.levels
  have hwords : (Ty.array elem size).words line ++ ws = .name "array" line ::
      .mark .less line :: (elem.words line ++ .mark .comma line :: size.word line ::
        .mark .greater line :: ws) := by
    simp [words]
  rw [hwords] at h
  rcases h.typeName with h | ⟨h, -⟩ | ⟨-, h⟩ | ⟨h, -⟩ | ⟨h, -⟩
  · exact absurd h (not_spell_mark (by decide))
  · exact absurd h (by decide)
  · obtain ⟨hlt, h⟩ := ih (heads_mark (by decide) _) (Parse.headKind_mark (by decide) _) h.token.2
    have h := h.token.2
    rw [add_mul] at h
    exact ⟨Nat.succ_lt_succ hlt, h.add.elim (·.token.2.token.2) (·.token.2.token.2)⟩
  · exact absurd h (by decide)
  · exact absurd (by decide) h

end Leveled

/-- The words of a type spell nothing with fewer levels than it has. -/
theorem Writable.nesting_lt {t : Ty} (ht : t.Writable) (f : SourceFile) (line : Nat) :
    Leveled f line t := by
  induction ht with
  | scalar b hb =>
    intro n l ws _ hws h
    refine leveled_name (Grammar.not_container fun c hc => ?_) hws h
    exact Option.some.inj ((Builtin.ofName?_name b).symm.trans hc) ▸ hb
  | @plain name hname hb =>
    intro n l ws _ hws h
    refine leveled_name (Grammar.not_container fun c hc => ?_) hws h
    cases hb.symm.trans hc
  | qualified hp hn => exact leveled_qualified hp
  | vector he ih => exact leveled_vector ih
  | map hk hv ihk ihv => exact leveled_map ihk ihv
  | sized he m ih => exact leveled_array ih
  | named he hn ih => exact leveled_array ih

end Ir.Ty

/-! ### Files with one field -/

section Bean

variable {f : SourceFile} {k : Language Token} {n : Nat} {ws : List Word}

/-- A file with a struct behind its package has the struct as its first declaration. -/
theorem Word.Spell.struct {package : Word} (h : Word.Spell f
    (Grammar.file (Grammar.dataDecl n + Grammar.serviceDecl n))
      (⟨.keyword .pkg, Keyword.pkg.spelling, 1⟩ :: package ::
        ⟨.keyword .struct, Keyword.struct.spelling, 1⟩ :: ws)) :
    ∃ k, Word.Spell f (Grammar.bean .struct (Grammar.fieldDecl n)∗ * k)
      (⟨.keyword .struct, Keyword.struct.spelling, 1⟩ :: ws) := by
  have hbean (w : Keyword) (body : Language Token) :
      Grammar.Heads (· = .keyword w) (Grammar.bean w body) :=
    .mul (.mul (.mul (.mul (.mul (.token rfl)))))
  simp only [Grammar.file, mul_assoc] at h
  have hother {k : TokenKind} (hk : k ≠ .keyword .struct) :
      headKind (⟨.keyword .struct, Keyword.struct.spelling, 1⟩ :: ws) ≠ k := fun h => hk h.symm
  have hnone {k : TokenKind} {l : Language Token} (hk : k ≠ .keyword .struct)
      (hl : Grammar.Heads (· = k) l) :
      ¬ Word.Spell f l (⟨.keyword .struct, Keyword.struct.spelling, 1⟩ :: ws) :=
    fun h => hother hk (h.head hl)
  have h := h.token.2.token.2.optional (p := (· = .punct .semicolon)) (.token rfl)
    (hother (by decide))
  have h := h.star (p := (· = .keyword .imp)) (.mul (.token rfl)) (hother (by decide))
  rw [star_mul] at h
  have h := h.add.resolve_right (hnone (k := .eof) (by decide) (.token rfl))
  generalize (Grammar.dataDecl n + Grammar.serviceDecl n)∗ * Grammar.token .eof = k at h
  refine ⟨k, ?_⟩
  -- of the declarations, only structs start with the keyword
  rw [add_mul] at h
  have h := h.add.resolve_right (hnone (by decide) (hbean _ _).mul)
  rw [Grammar.dataDecl, add_mul, add_mul, add_mul] at h
  have h := h.add.resolve_right (hnone (by decide) (hbean _ _).mul)
  have h := h.add.resolve_right (hnone (by decide) (hbean _ _).mul)
  exact h.skip (.mul (.mul (.token (p := (· = .keyword .const)) rfl))) (hother (by decide))

/-- The body of a struct starts with the type of a field where it starts with a name. -/
theorem Word.Spell.firstField {name opening : Word}
    (h : Word.Spell f (Grammar.bean .struct (Grammar.fieldDecl n)∗ * k)
      (⟨.keyword .struct, Keyword.struct.spelling, 1⟩ :: name :: opening :: ws))
    (hopening : opening.kind = .punct .lbrace) (hws : headKind ws = .ident) :
    ∃ k, Word.Spell f (Grammar.typeName n * (Grammar.identList * k)) ws := by
  have hnot (w : Keyword) : headKind ws ≠ .keyword w := by
    rw [hws]
    exact fun h => by cases h
  have hstring : headKind (opening :: ws) ≠ .string := by
    rw [show headKind (opening :: ws) = _ from hopening]
    decide
  simp only [Grammar.bean, mul_assoc] at h
  have h := (h.token.2.token.2.optional (p := (· = .string)) (.token rfl) hstring).token.2
  rw [star_mul] at h
  have h := h.add.resolve_right fun h => by
    have hclosing := h.head (.mul (.token (p := (· = .punct .rbrace)) rfl))
    rw [hws] at hclosing
    cases hclosing
  generalize (Grammar.fieldDecl n)∗ * (Grammar.mark .rbrace * k) = k at h
  simp only [Grammar.fieldDecl, mul_assoc] at h
  have h := h.star (p := fun x => ∃ w, x = .keyword w) (.add (.token ⟨_, rfl⟩) (.token ⟨_, rfl⟩))
    (not_exists.2 hnot)
  rw [add_mul] at h
  have h := h.skip (.mul (.mul (.token (p := (· = .keyword .ext)) rfl))) (hnot _)
  rw [mul_assoc] at h
  exact ⟨_, h⟩

end Bean

/-- The words of a file with one field are no sentence where its type nests too deep. -/
theorem Ir.Ty.Writable.nesting_lt_of_file {t : Ty} (ht : t.Writable) {f : SourceFile} {n : Nat}
    {package bean name : String} {eof : Word}
    (h : Word.Spell f (Grammar.file (Grammar.dataDecl n + Grammar.serviceDecl n))
      (beanWords .struct package bean (t.words 1 ++ [.name name 1]) 1 ++ [eof])) :
    t.nesting < n := by
  simp only [beanWords, List.cons_append, List.append_assoc] at h
  obtain ⟨k, h⟩ := h.struct
  obtain ⟨k, h⟩ := h.firstField rfl (t.headKind_words 1 _)
  have hnames : Grammar.Heads (· ≠ .punct .period) (Grammar.identList * k) :=
    .mul (.mul (.token nofun))
  exact (ht.nesting_lt _ _ hnames (by simp [headKind, Word.name]) h).1

/-- A source about whose syntax no error is reported is quiet: there are no warnings. -/
theorem Source.diagnostics_eq_nil (s : Source)
    (h : ∀ d ∈ s.alone.diagnostics, d.isError ≠ true) : s.alone.diagnostics = [] :=
  List.eq_nil_iff_forall_not_mem.2 fun d hd => h d hd (s.isError_of_mem hd)

/-- The words of a quiet source are those of a sentence, in front of the end of the file. -/
theorem Source.spell_file {s : Source} {ws : List Word} (hw : Writes 1 s.text.toList ws)
    (hquiet : s.alone.diagnostics = []) : ∃ eof, Word.Spell s.start.file
      (Grammar.file (Grammar.dataDecl maxTypeNesting + Grammar.serviceDecl maxTypeNesting))
      (ws ++ [eof]) := by
  obtain ⟨-, hstart⟩ := s.start_holds hw
  refine ⟨s.start.eof.token.word s.start.file, s.start.tokens, ?_, ?_⟩
  · refine Parse.file_accepts (s.tokens.flatMap (·.groups)) s.start_ready ?_
    have hparsed : s.scanned.1.errors.map (·.toDiagnostic) ++ s.parsed.2.diagnostics.toList = [] :=
      hquiet
    rw [← s.parsed_eq]
    exact Array.toList_inj.1 (List.append_eq_nil_iff.1 hparsed).2
  · rw [ParseState.tokens, List.map_append, List.map_map, ← hstart.words]
    rfl

/-- A file that writes a type as the type of a field. -/
def fieldSource (filename : String) (t : Ir.Ty) : Source :=
  ⟨filename, "package p struct S \x7b " ++ t.text ++ " F \x7d"⟩

theorem Ir.Ty.Writable.fieldSource_writes {t : Ty} (ht : t.Writable) (filename : String) :
    Writes 1 (fieldSource filename t).text.toList
      (beanWords .struct "p" "S" (t.words 1 ++ [.name "F" 1]) 1) := by
  have hname {w : String} (hw : w ∈ ["p", "S", "F"]) : IsName w := by
    simp only [List.mem_cons, List.not_mem_nil, or_false] at hw
    rcases hw with rfl | rfl | rfl <;> exact ⟨⟨_, [], by decide, rfl, rfl⟩, rfl⟩
  have htext : (fieldSource filename t).text.toList = Keyword.pkg.spelling.toList ++ ' ' ::
      ("p".toList ++ ' ' :: (BeanKind.struct.keyword.spelling.toList ++ ' ' :: ("S".toList ++ ' ' ::
        '\x7b' :: (' ' :: (t.text.toList ++ ' ' :: ("F".toList ++ ' ' :: '\x7d' :: [])))))) := by
    simp [fieldSource, BeanKind.keyword, Keyword.spelling]
  have hmembers : Writes 1 (' ' :: (t.text.toList ++ ' ' :: ("F".toList ++ ' ' :: '\x7d' :: [])))
      (t.words 1 ++ [.name "F" 1] ++ [.mark .rbrace 1]) := by
    rw [List.append_assoc]
    refine .space (ht.writes (Writes.ends rfl) (.space (.ident (hname (by simp)) (Writes.ends rfl)
      (.space ?_))))
    exact Writes.done.sign .rbrace (by decide)
  rw [htext]
  exact .bean (hname (by simp)) (hname (by simp)) hmembers

/-- Fields are compiled to the types that they are written with.  Where no more than 63 containers
stand around any type, the file that writes it is parsed without diagnostics, and the field is
lowered to the type; where more do, an error is reported. -/
theorem fieldSource_compiles {t : Ir.Ty} (ht : t.Writable) (filename : String)
    (hroom : FileSet.Admits {} (fieldSource filename t)) :
    (t.nesting ≤ 63 →
      (∃ r, parseFile {} {} filename (fieldSource filename t).text = .ok r ∧ r.diagnostics = []) ∧
        ∃ unresolved, (compile [fieldSource filename t]).ir = ⟨[{
          name := "p"
          files := [{
            filename
            package := "p"
            beans := [{
              kind := .struct
              name := "S"
              fields := [{ type := some t, names := ["F"] }] }]
            unresolved }] }]⟩) ∧
      (64 ≤ t.nesting → ∃ r, parseFile {} {} filename (fieldSource filename t).text = .ok r ∧
        ∃ d ∈ r.diagnostics, d.isError = true) := by
  have hwords := ht.fieldSource_writes filename
  refine ⟨fun hn => ?_, fun hn => ⟨_, (fieldSource filename t).parseFile_first hroom, ?_⟩⟩
  · exact Source.compile_bean hroom (by decide) (List.nodup_singleton "F")
      (fun scope => Parse.fields_consumes ht hn "F" scope) hwords
  · by_contra hnone
    push Not at hnone
    have hquiet := (fieldSource filename t).diagnostics_eq_nil hnone
    have hlt : t.nesting < maxTypeNesting := by
      obtain ⟨eof, hspell⟩ := Source.spell_file hwords hquiet
      exact ht.nesting_lt_of_file hspell
    exact absurd hlt (Nat.not_lt.2 hn)

/-- A type with some containers, and one with a container too many. -/
theorem fieldSource_compiles_nested :
    let shallow : Ir.Ty := .map (.basic "string") (.array (.struct "q" "T") (.const "N" none))
    let deep : Ir.Ty := Nat.iterate .vector 64 (.struct "" "T")
    shallow.Writable ∧ shallow.nesting ≤ 63 ∧ FileSet.Admits {} (fieldSource "a" shallow) ∧
      deep.Writable ∧ 64 ≤ deep.nesting ∧ FileSet.Admits {} (fieldSource "a" deep) ∧
      (∃ r, parseFile {} {} "a" (fieldSource "a" shallow).text = .ok r ∧ r.diagnostics = []) ∧
      ∃ r, parseFile {} {} "a" (fieldSource "a" deep).text = .ok r ∧
        ∃ d ∈ r.diagnostics, d.isError = true := by
  intro shallow deep
  have hname {w : String} (hw : w ∈ ["q", "T", "N"]) : IsName w := by
    simp only [List.mem_cons, List.not_mem_nil, or_false] at hw
    rcases hw with rfl | rfl | rfl <;> exact ⟨⟨_, [], by decide, rfl, rfl⟩, rfl⟩
  have hshallow : shallow.Writable := .map (.scalar .string rfl)
    (.named (.qualified (hname (by simp)) (hname (by simp))) (hname (by simp)))
  have hdeep (n : Nat) : (Nat.iterate Ir.Ty.vector n (.struct "" "T")).Writable := by
    induction n with
    | zero => exact .plain (hname (by simp)) rfl
    | succ n ih =>
      rw [Function.iterate_succ_apply']
      exact .vector ih
  have hroom : FileSet.Admits {} (fieldSource "a" shallow) := ⟨by decide, by decide +kernel⟩
  have hroom' : FileSet.Admits {} (fieldSource "a" deep) := ⟨by decide, by decide +kernel⟩
  have hsmall : shallow.nesting ≤ 63 := by decide
  have hlarge : 64 ≤ deep.nesting := by decide
  exact ⟨hshallow, hsmall, hroom, hdeep 64, hlarge, hroom',
    ((fieldSource_compiles hshallow "a" hroom).1 hsmall).1,
    (fieldSource_compiles (hdeep 64) "a" hroom').2 hlarge⟩

/-! ### Files without end -/

/-- The letter `a` over and over. -/
def letters (n : Nat) : String := String.ofList (List.replicate n 'a')

theorem utf8ByteSize_letters (n : Nat) : (letters n).utf8ByteSize = n := by
  have hwidth : byteWidth (List.replicate n 'a') = n := by
    induction n with
    | zero => rfl
    | succ n ih =>
      rw [List.replicate_succ, byteWidth_cons, ih, Nat.add_comm]
      rfl
  rw [utf8ByteSize_eq, letters, String.toList_ofList, hwidth]

/-- So long a word is no keyword. -/
theorem isName_letters {n : Nat} (h : 16 ≤ n) : IsName (letters n) := by
  obtain ⟨m, rfl⟩ := Nat.exists_eq_add_of_le' h
  refine ⟨⟨'a', List.replicate (m + 15) 'a', by decide, ?_, rfl⟩, ?_⟩
  · exact List.all_eq_true.2 fun c hc => List.eq_of_mem_replicate hc ▸ rfl
  · refine Option.eq_none_iff_forall_ne_some.2 fun k hk => ?_
    have hsize := congrArg String.utf8ByteSize (Keyword.spelling_of_ofSpelling? hk)
    have hshort : k.spelling.utf8ByteSize < 16 := by cases k <;> decide
    rw [utf8ByteSize_letters] at hsize
    omega

theorem ofName?_letters {n : Nat} (h : 16 ≤ n) : Builtin.ofName? (letters n) = none := by
  refine Option.eq_none_iff_forall_ne_some.2 fun b hb => ?_
  have hsize := congrArg String.utf8ByteSize (Builtin.name_of_ofName? hb)
  have hshort : b.name.utf8ByteSize < 16 := by cases b <;> decide
  rw [utf8ByteSize_letters] at hsize
  omega

/-- A file of 4 GB, in which one name is that long, is refused. -/
theorem fieldSource_refused :
    let t : Ir.Ty := .struct "" (letters positionBound)
    t.Writable ∧ t.nesting ≤ 63 ∧
      parseFile {} {} "a" (fieldSource "a" t).text = .error .overflow := by
  intro t
  have hlong : 16 ≤ positionBound := by decide
  have htext : t.text = letters positionBound := by
    rw [Ir.Ty.text, if_pos (by decide)]
  have hsize : positionBound ≤ (fieldSource "a" t).text.utf8ByteSize := by
    show _ ≤ ("package p struct S \x7b " ++ t.text ++ " F \x7d").utf8ByteSize
    rw [String.utf8ByteSize_append, String.utf8ByteSize_append, htext, utf8ByteSize_letters]
    exact (Nat.le_add_left ..).trans (Nat.le_add_right ..)
  refine ⟨.plain (isName_letters hlong) (ofName?_letters hlong), Nat.zero_le _,
    parseFile_refused _ _ ?_⟩
  exact hsize.trans ((Nat.le_add_left ..).trans (Nat.le_succ _))

end Idl
