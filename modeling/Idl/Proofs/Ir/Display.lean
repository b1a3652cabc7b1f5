/-
Idl/Proofs/Ir/Display.lean

Types in the notation of schemas.

A type can be written if its names are names and its sizes are numbers or names without a value
(`Ir.Ty.Writable`).  Its text then writes the words of the type (`Ir.Ty.Writable.writes`), and the
parser takes these, as long as the containers do not nest too deep, with an answer that is lowered
to the type again (`Parse.typeNested_consumes`).

What an answer is lowered to depends on imports and constants only where it names some: that is
`LowerEnv.Bare`, and `TypeExpr.LowersTo` is said of a type without them.
-/
import Idl.Ir.Lower
import Idl.Proofs.Occurrences
import Idl.Proofs.Syntax.Reading

namespace Idl

/-! ### Types that can be written -/

namespace Ir.Ty

/-- The number of containers around the innermost type. -/
def nesting : Ty → Nat
  | .array elem _ => elem.nesting + 1
  | .vector elem => elem.nesting + 1
  | .map key value => max key.nesting value.nesting + 1
  | _ => 0

/-- The types that schemas can write: scalars, beans of this package and of others, and containers,
where the size of an array is a number, or a name for which no value is known. -/
inductive Writable : Ty → Prop
  | scalar (b : Builtin) (h : b.isContainer = false) : Writable (.basic b.name)
  | plain {name : String} (h : IsName name) (hb : Builtin.ofName? name = none) :
      Writable (.struct "" name)
  | qualified {package name : String} (hp : IsName package) (hn : IsName name) :
      Writable (.struct package name)
  | vector {elem : Ty} (h : Writable elem) : Writable (.vector elem)
  | map {key value : Ty} (hk : Writable key) (hv : Writable value) : Writable (.map key value)
  | sized {elem : Ty} (h : Writable elem) (n : UInt64) : Writable (.array elem (.literal n))
  | named {elem : Ty} (h : Writable elem) {name : String} (hn : IsName name) :
      Writable (.array elem (.const name none))

end Ir.Ty

/-! ### The words of a type -/

/-- A mark as a word. -/
def Word.mark (p : Punct) (line : Nat) : Word := ⟨.punct p, String.ofList [p.char], line⟩

/-- A name as a word. -/
def Word.name (text : String) (line : Nat) : Word := ⟨.ident, text, line⟩

/-- The size of an array as a word. -/
def Ir.ArraySize.word (size : ArraySize) (line : Nat) : Word :=
  match size with
  | .literal _ => ⟨.int, size.text, line⟩
  | _ => .name size.text line

/-- The words that a type is written with. -/
def Ir.Ty.words (line : Nat) : Ty → List Word
  | .array elem size => .name "array" line :: .mark .less line :: elem.words line ++
      [.mark .comma line, size.word line, .mark .greater line]
  | .vector elem => .name "vector" line :: .mark .less line :: elem.words line ++
      [.mark .greater line]
  | .map key value => .name "map" line :: .mark .less line :: key.words line ++
      .mark .comma line :: (value.words line ++ [.mark .greater line])
  | .struct package name =>
    if package.isEmpty then [.name name line]
    else [.name package line, .mark .period line, .name name line]
  | t => [.name t.text line]

namespace Writes

variable {n : Nat} {cs : List Char} {ws : List Word}

/-- A mark that is no period. -/
theorem sign (p : Punct) (hp : p ≠ .period) (h : Writes n cs ws) :
    Writes n (p.char :: cs) (.mark p n :: ws) := h.mark p fun heq => absurd heq hp

theorem ident {w : String} (hw : IsName w) (hnext : ∀ c ∈ cs.head?, isIdentContinue c = false)
    (h : Writes n cs ws) : Writes n (w.toList ++ cs) (.name w n :: ws) := h.name hw hnext

/-- The name of a package and, behind a period, one of its names. -/
theorem qualified {package name : String} (hp : IsName package) (hn : IsName name)
    (hnext : ∀ c ∈ cs.head?, isIdentContinue c = false) (h : Writes n cs ws) :
    Writes n (package.toList ++ '.' :: (name.toList ++ cs))
      (.name package n :: .mark .period n :: .name name n :: ws) := by
  have hdot : Writes n ('.' :: (name.toList ++ cs)) (.mark .period n :: .name name n :: ws) := by
    refine (h.ident hn hnext).mark .period fun _ => ?_
    obtain ⟨c, more, hc, -, rfl⟩ := hn.spelled
    rw [String.toList_ofList]
    show isDigit c = false
    rw [isDigit_eq]
    by_contra hdigit
    rw [isIdentStart_of_isDigit (eq_true_of_ne_false hdigit)] at hc
    cases hc
  exact hdot.ident hp (ends rfl)

end Writes

theorem Builtin.isName (b : Builtin) : IsName b.name := by
  cases b <;> exact ⟨⟨_, _, rfl, rfl, (String.ofList_toList).symm⟩, rfl⟩

namespace Ir.Ty.Writable

variable {t : Ty} {n : Nat} {cs : List Char} {ws : List Word}

/-- The text of a type writes its words where no letter follows it. -/
theorem writes (ht : t.Writable) (hnext : ∀ c ∈ cs.head?, isIdentContinue c = false)
    (h : Writes n cs ws) : Writes n (t.text.toList ++ cs) (t.words n ++ ws) := by
  have harray {elem : Ty} {size : ArraySize} {ws : List Word} {cs : List Char}
      (ih : ∀ {cs : List Char} {ws : List Word}, (∀ c ∈ cs.head?, isIdentContinue c = false) →
        Writes n cs ws → Writes n (elem.text.toList ++ cs) (elem.words n ++ ws))
      (hsize : Writes n (size.text.toList ++ '>' :: cs) (size.word n :: .mark .greater n :: ws)) :
      Writes n ((Ty.array elem size).text.toList ++ cs) ((Ty.array elem size).words n ++ ws) := by
    have htext : (Ty.array elem size).text.toList ++ cs = Builtin.array.name.toList ++ '<' ::
        (elem.text.toList ++ ',' :: ' ' :: (size.text.toList ++ '>' :: cs)) := by
      simp [Ty.text, Builtin.name]
    have hwords : (Ty.array elem size).words n ++ ws = .name Builtin.array.name n ::
        .mark .less n :: (elem.words n ++ .mark .comma n :: size.word n :: .mark .greater n ::
          ws) := by
      simp [Ty.words, Builtin.name]
    rw [htext, hwords]
    refine .ident Builtin.array.isName (Writes.ends rfl) (.sign .less (by decide) ?_)
    exact ih (Writes.ends rfl) (.sign .comma (by decide) hsize.space)
  induction ht generalizing cs ws with
  | scalar b hb =>
    have hwords : (Ty.basic b.name).words n = [.name b.name n] := rfl
    rw [hwords]
    exact h.ident b.isName hnext
  | @plain name hn hb => exact h.ident hn hnext
  | @qualified package name hp hn =>
    have hne : package.isEmpty = false := by
      obtain ⟨c, more, -, -, rfl⟩ := hp.spelled
      simp
    have htext : (Ty.struct package name).text.toList ++ cs =
        package.toList ++ '.' :: (name.toList ++ cs) := by
      simp [Ty.text, hne]
    have hwords : (Ty.struct package name).words n ++ ws =
        .name package n :: .mark .period n :: .name name n :: ws := by
      simp [Ty.words, hne]
    rw [htext, hwords]
    exact h.qualified hp hn hnext
  | @vector elem he ih =>
    have htext : (Ty.vector elem).text.toList ++ cs =
        Builtin.vector.name.toList ++ '<' :: (elem.text.toList ++ '>' :: cs) := by
      simp [Ty.text, Builtin.name]
    have hwords : (Ty.vector elem).words n ++ ws = .name Builtin.vector.name n ::
        .mark .less n :: (elem.words n ++ .mark .greater n :: ws) := by
      simp [Ty.words, Builtin.name]
    rw [htext, hwords]
    refine .ident Builtin.vector.isName (Writes.ends rfl) (.sign .less (by decide) ?_)
    exact ih (Writes.ends rfl) (h.sign .greater (by decide))
  | @map key value hk hv ihk ihv =>
    have htext : (Ty.map key value).text.toList ++ cs = Builtin.map.name.toList ++ '<' ::
        (key.text.toList ++ ',' :: ' ' :: (value.text.toList ++ '>' :: cs)) := by
      simp [Ty.text, Builtin.name]
    have hwords : (Ty.map key value).words n ++ ws = .name Builtin.map.name n ::
        .mark .less n :: (key.words n ++ .mark .comma n :: (value.words n ++
          .mark .greater n :: ws)) := by
      simp [Ty.words, Builtin.name]
    rw [htext, hwords]
    refine .ident Builtin.map.isName (Writes.ends rfl) (.sign .less (by decide) ?_)
    refine ihk (Writes.ends rfl) (.sign .comma (by decide) (.space ?_))
    exact ihv (Writes.ends rfl) (h.sign .greater (by decide))
  | @sized elem he m ih =>
    refine harray ih ((h.sign .greater (by decide)).number m.toNat fun c hc => ?_)
    obtain rfl : '>' = c := Option.some.inj hc
    exact ⟨rfl, by decide⟩
  | @named elem he name hn ih =>
    exact harray ih ((h.sign .greater (by decide)).ident hn (Writes.ends rfl))

end Ir.Ty.Writable

/-! ### What types are lowered to -/

/-- In the file, the qualifiers stand for no packages and no name stands for a number. -/
structure LowerEnv.Bare (env : LowerEnv) (f : File) (qs : List QualifiedRef) : Prop where
  package : ∀ q ∈ qs, lowerQualifier env f q.qualifier = q.qualifier.name
  value : ∀ i, env.constValue? LowerEnv.maxConstChain f i = none

theorem LowerEnv.Bare.mono {env : LowerEnv} {f : File} {qs qs' : List QualifiedRef}
    (h : env.Bare f qs) (hsub : qs' ⊆ qs) : env.Bare f qs' :=
  ⟨fun q hq => h.package q (hsub hq), h.value⟩

/-- By itself, the type is lowered to `t`. -/
def TypeExpr.LowersTo (e : TypeExpr) (t : Ir.Ty) : Prop :=
  ∀ env f, LowerEnv.Bare env f e.qualifiedNames → e.lower env f = t

/-- By itself, the size is lowered to `size`. -/
def Value.LowersTo (v : Value) (size : Ir.ArraySize) : Prop :=
  ∀ env f, LowerEnv.Bare env f [] → lowerSize env f v = size

/-! ### Reading types -/

/-- The number that the decimal digits of a number write. -/
theorem intLiteral?_toString (n : UInt64) : intLiteral? (toString n.toNat) = some n := by
  have hdecimal : intLiteralNat? (toString n.toNat).toList =
      natOfDigits? 10 (toString n.toNat).toList := by
    have hdigit {c : Char} (hc : c ∈ (toString n.toNat).toList) : c.isDigit = true :=
      isDigit_of_mem_toString hc
    have hzero (c : Char) (cs : List Char) : (toString n.toNat).toList ≠ '0' :: c :: cs := by
      intro h
      rw [toList_toString] at h
      by_cases hn : n.toNat = 0
      · rw [hn, Nat.toDigits_zero] at h
        cases h
      · exact head_digits_ne_zero hn (by rw [h]; rfl)
    unfold intLiteralNat?
    split
    · next h => exact absurd h (hzero _ _)
    · next h => exact absurd h (hzero _ _)
    · next h => exact absurd h (hzero _ _)
    · rfl
  unfold intLiteral?
  rw [hdecimal, natOfDigits?_toString, Option.bind_some, if_pos n.toNat_lt]
  exact congrArg some (UInt64.ofNat_toNat)

namespace Parse

variable {rest : List Word} {line : Nat}

theorem literal_consumes (n : UInt64) :
    Consumes [] [(Ir.ArraySize.literal n).word line] rest arraySize (·.LowersTo (.literal n)) := by
  refine .kind .int rfl (.before (lit_consumes .int) fun l hl => .pure fun env f _ => ?_)
  obtain ⟨hkind, htext⟩ := hl
  have hvalue : intLiteral? l.text = some n := by
    rw [htext]
    exact intLiteral?_toString n
  unfold lowerSize
  simp only [hkind, hvalue]

theorem constant_consumes (name : String) :
    Consumes [] [(Ir.ArraySize.const name none).word line] rest arraySize
      (·.LowersTo (.const name none)) := by
  refine .kind .ident rfl (.before (ident_consumes rfl) fun i hi => .pure fun env f hbare => ?_)
  show Ir.ArraySize.const i.name (env.constValue? LowerEnv.maxConstChain f i) = _
  rw [hbare.value i, hi]
  rfl

/-- A type is read where there are levels for its containers and no period follows it. -/
def ReadsType (line : Nat) (t : Ir.Ty) : Prop :=
  ∀ {levels : Nat} {rest : List Word}, t.nesting ≤ levels → headKind rest ≠ .punct .period →
    Consumes [] (t.words line) rest (typeNested (levels + 1)) (·.LowersTo t)

section ReadsType

variable {line : Nat}

/-- What starts with another mark does not start with a period. -/
theorem headKind_mark {p : Punct} (hp : p ≠ .period) (ws : List Word) :
    headKind (.mark p line :: ws) ≠ .punct .period := fun h => hp (TokenKind.punct.inj h)

theorem readsType_basic {b : Builtin} (hb : b.isContainer = false) :
    ReadsType line (.basic b.name) := by
  intro levels rest hn hrest
  refine .check true rfl (.cons (ident_consumes rfl) fun i hi =>
    .check false (beq_false_of_ne hrest) ?_)
  rw [show Builtin.ofName? i.name = some b from hi ▸ Builtin.ofName?_name b]
  have hlowers : (TypeExpr.basic i b).LowersTo (.basic b.name) := fun env f _ =>
    congrArg Ir.Ty.basic hi
  cases b with
  | map => cases hb
  | vector => cases hb
  | array => cases hb
  | _ => exact .pure hlowers

theorem readsType_struct {name : String} (hb : Builtin.ofName? name = none) :
    ReadsType line (.struct "" name) := by
  intro levels rest hn hrest
  refine .check true rfl (.cons (ident_consumes rfl) fun i hi =>
    .check false (beq_false_of_ne hrest) ?_)
  rw [show Builtin.ofName? i.name = none from hi ▸ hb]
  exact .pure fun env f _ => congrArg (Ir.Ty.struct "") hi

theorem readsType_qualified {package name : String} (hp : IsName package) :
    ReadsType line (.struct package name) := by
  intro levels rest hn hrest
  have hne : package.isEmpty = false := by
    obtain ⟨c, more, -, -, rfl⟩ := hp.spelled
    simp
  have hwords : (Ir.Ty.struct package name).words line =
      [.name package line, .mark .period line, .name name line] := by
    simp [Ir.Ty.words, hne]
  rw [hwords]
  refine .check true rfl (.cons (ident_consumes rfl) fun q hq => .check true rfl ?_)
  refine .cons advance_consumes fun _ _ => .before (ident_consumes rfl) fun i hi => .pure ?_
  intro env f hbare
  have hqualifier := hbare.package ⟨q, i⟩ List.mem_cons_self
  show Ir.Ty.struct (lowerQualifier env f q) i.name = _
  rw [hqualifier, hq, hi]
  rfl

theorem readsType_vector {elem : Ir.Ty} (ih : ReadsType line elem) :
    ReadsType line (.vector elem) := by
  intro levels rest hn hrest
  obtain ⟨levels, rfl⟩ := Nat.exists_eq_add_one_of_ne_zero (Nat.ne_zero_of_lt hn)
  refine .check true rfl (.cons (ident_consumes rfl) fun i hi =>
    .check false (beq_false_of_ne (headKind_mark (by decide) _)) ?_)
  rw [show Builtin.ofName? i.name = some .vector from hi ▸ rfl]
  refine .cons (expect_consumes rfl) fun _ _ => ?_
  refine .next (ih (Nat.le_of_succ_le_succ hn) (headKind_mark (by decide) _)) fun e he => ?_
  refine .before (expect_consumes rfl) fun _ _ => .pure fun env f hbare => ?_
  exact congrArg Ir.Ty.vector (he env f hbare)

theorem readsType_map {key value : Ir.Ty} (ihk : ReadsType line key) (ihv : ReadsType line value) :
    ReadsType line (.map key value) := by
  intro levels rest hn hrest
  obtain ⟨levels, rfl⟩ := Nat.exists_eq_add_one_of_ne_zero (Nat.ne_zero_of_lt hn)
  obtain ⟨hkey, hvalue⟩ := Nat.max_le.1 (Nat.le_of_succ_le_succ hn)
  have hwords : (Ir.Ty.map key value).words line = .name "map" line :: .mark .less line ::
      (key.words line ++ .mark .comma line :: (value.words line ++ [.mark .greater line])) := rfl
  rw [hwords]
  refine .check true rfl (.cons (ident_consumes rfl) fun i hi =>
    .check false (beq_false_of_ne (headKind_mark (by decide) _)) ?_)
  rw [show Builtin.ofName? i.name = some .map from hi ▸ rfl]
  refine .cons (expect_consumes rfl) fun _ _ => ?_
  refine .next (ihk hkey (headKind_mark (by decide) _)) fun k hk =>
    .cons (expect_consumes rfl) fun _ _ => ?_
  refine .next (ihv hvalue (headKind_mark (by decide) _)) fun v hv => ?_
  refine .before (expect_consumes rfl) fun _ _ => .pure fun env f hbare => ?_
  have hlk := hk env f (hbare.mono (List.subset_append_left ..))
  have hlv := hv env f (hbare.mono (List.subset_append_right ..))
  show Ir.Ty.map (k.lower env f) (v.lower env f) = _
  rw [hlk, hlv]

theorem readsType_array {elem : Ir.Ty} {size : Ir.ArraySize} (ih : ReadsType line elem)
    (hsize : ∀ rest, Consumes [] [size.word line] (.mark .greater line :: rest) arraySize
      (·.LowersTo size)) : ReadsType line (.array elem size) := by
  intro levels rest hn hrest
  obtain ⟨levels, rfl⟩ := Nat.exists_eq_add_one_of_ne_zero (Nat.ne_zero_of_lt hn)
  have hwords : (Ir.Ty.array elem size).words line = .name "array" line :: .mark .less line ::
      (elem.words line ++ [.mark .comma line, size.word line, .mark .greater line]) := rfl
  rw [hwords]
  refine .check true rfl (.cons (ident_consumes rfl) fun i hi =>
    .check false (beq_false_of_ne (headKind_mark (by decide) _)) ?_)
  rw [show Builtin.ofName? i.name = some .array from hi ▸ rfl]
  refine .cons (expect_consumes rfl) fun _ _ => ?_
  refine .next (ih (Nat.le_of_succ_le_succ hn) (headKind_mark (by decide) _)) fun e he => ?_
  refine .cons (expect_consumes rfl) fun _ _ => .cons (hsize rest) fun v hv => ?_
  refine .before (expect_consumes rfl) fun _ _ => .pure fun env f hbare => ?_
  have hlsize := hv env f (hbare.mono (List.nil_subset _))
  show Ir.Ty.array (e.lower env f) (lowerSize env f v) = _
  rw [he env f hbare, hlsize]

/-- A type that can be written is read. -/
theorem typeNested_consumes {t : Ir.Ty} (ht : t.Writable) : ReadsType line t := by
  induction ht with
  | scalar b hb => exact readsType_basic hb
  | plain hname hb => exact readsType_struct hb
  | qualified hp hn => exact readsType_qualified hp
  | vector he ih => exact readsType_vector ih
  | map hk hv ihk ihv => exact readsType_map ihk ihv
  | sized he m ih => exact readsType_array ih fun _ => literal_consumes m
  | named he hn ih => exact readsType_array ih fun _ => constant_consumes _

end ReadsType

end Parse

end Idl
