/-
Idl/Proofs/Ir/MethodText.lean

The text of a method is schema text for the method.

What stands behind a parenthesis is told by its neighbours: a name behind a type is the name of a
parameter, and a name behind the closing parenthesis is a result if it is on the line of the
opening one, and else it is the next method.  So a signature is read in front of words that cannot
be taken for a part of it (`Parse.signature_consumes`), as they are where methods stand on lines of
their own (`Parse.methods_consumes`).

Main result: services are compiled to the methods that they are written with
(`serviceSource_compiles`).
-/
import Idl.Proofs.Ir.TypeText

namespace Idl

/-! ### Methods that can be written -/

namespace Ir

/-- A method as schemas write it: parameters have a type and, maybe, a name. -/
structure Method where
  name : String
  params : List (Ty × Option String)
  result : Option Ty

namespace Method

/-- A parameter. -/
def param (p : Ty × Option String) : Field := { type := some p.1, names := p.2.toList }

def type (m : Method) : Ty := .func (m.params.map param) m.result

/-- The method as a field of a service. -/
def field (m : Method) : Field := { type := some m.type, names := [m.name] }

/-- The method has a name that starts no type, and its types can be written. -/
structure Writable (m : Method) : Prop where
  name : IsName m.name
  plain : m.name ∉ Grammar.containers
  params : ∀ p ∈ m.params, p.1.Writable ∧ p.1.nesting ≤ 63 ∧ ∀ n ∈ p.2, IsName n
  result : ∀ t ∈ m.result, t.Writable ∧ t.nesting ≤ 63

end Method

end Ir

/-! ### The words of a method -/

/-- The words of a parameter. -/
def Ir.Method.paramWords (line : Nat) (p : Ir.Ty × Option String) : List Word :=
  p.1.words line ++ p.2.toList.map (.name · line)

theorem Ir.Method.headKind_paramWords (line : Nat) (p : Ir.Ty × Option String) (ws : List Word) :
    headKind (paramWords line p ++ ws) = .ident := by
  rw [paramWords, List.append_assoc]
  exact p.1.headKind_words line _

/-- The words of parameters, with commas between them. -/
def Ir.Method.paramsWords (line : Nat) : List (Ir.Ty × Option String) → List Word
  | [] => []
  | [p] => paramWords line p
  | p :: ps => paramWords line p ++ .mark .comma line :: paramsWords line ps

/-- The words of a method. -/
def Ir.Method.words (line : Nat) (m : Method) : List Word :=
  .name m.name line :: .mark .lparen line :: (paramsWords line m.params ++
    .mark .rparen line :: m.result.toList.flatMap (Ty.words line))

/-- The words of methods that stand on lines of their own. -/
def Ir.Method.bodyWords (line : Nat) : List Method → List Word
  | [] => []
  | m :: ms => m.words line ++ bodyWords (line + 1) ms

namespace Ir.Method

/-- Methods one per line. -/
def bodyText (ms : List Method) : String :=
  String.join (ms.map fun m => m.name ++ m.type.text ++ "\n")

variable {n : Nat} {cs : List Char} {ws : List Word}

/-- The text of a parameter writes its words where no letter follows it. -/
theorem writes_param {p : Ty × Option String} (ht : p.1.Writable) (hname : ∀ n ∈ p.2, IsName n)
    (hnext : ∀ c ∈ cs.head?, isIdentContinue c = false) (h : Writes n cs ws) :
    Writes n (p.1.text.toList ++ ((String.join (p.2.toList.map (" " ++ ·))).toList ++ cs))
      (paramWords n p ++ ws) := by
  obtain ⟨t, name⟩ := p
  cases name with
  | none =>
    have hwords : paramWords n (t, none) = t.words n := List.append_nil _
    rw [hwords]
    exact ht.writes hnext h
  | some name =>
    have hwords : paramWords n (t, some name) ++ ws = t.words n ++ .name name n :: ws := by
      simp [paramWords]
    have htext : (String.join [" " ++ name]).toList ++ cs = ' ' :: (name.toList ++ cs) := by simp
    rw [hwords]
    show Writes n (t.text.toList ++ ((String.join [" " ++ name]).toList ++ cs)) _
    rw [htext]
    exact ht.writes (Writes.ends rfl) (.space (.ident (hname name rfl) hnext h))

theorem writes_params {ps : List (Ty × Option String)}
    (hps : ∀ p ∈ ps, p.1.Writable ∧ p.1.nesting ≤ 63 ∧ ∀ n ∈ p.2, IsName n)
    (hnext : ∀ c ∈ cs.head?, isIdentContinue c = false) (h : Writes n cs ws) :
    Writes n ((", ".intercalate (Ty.paramTexts (ps.map param))).toList ++ cs)
      (paramsWords n ps ++ ws) := by
  induction ps with
  | nil => exact h
  | cons p ps ih =>
    obtain ⟨⟨ht, -, hname⟩, hps⟩ := List.forall_mem_cons.1 hps
    cases ps with
    | nil =>
      have hparam := writes_param ht hname hnext h
      simpa [Ty.paramTexts, param, paramsWords, Ty.paramTypeText] using hparam
    | cons q qs =>
      have hmore := Writes.sign .comma (by decide) (.space (ih hps))
      have hparam := writes_param ht hname (Writes.ends rfl) hmore
      simpa [Ty.paramTexts, param, paramsWords, Ty.paramTypeText, Punct.char] using hparam

theorem Writable.writes {m : Method} (hm : m.Writable)
    (hnext : ∀ c ∈ cs.head?, isIdentContinue c = false) (h : Writes n cs ws) :
    Writes n (m.name.toList ++ (m.type.text.toList ++ cs)) (m.words n ++ ws) := by
  obtain ⟨name, params, result⟩ := m
  have hresult : Writes n ((Ty.resultText result).toList ++ cs)
      (result.toList.flatMap (Ty.words n) ++ ws) := by
    cases result with
    | none => exact h
    | some t =>
      have htext : (Ty.resultText (some t)).toList ++ cs = ' ' :: (t.text.toList ++ cs) := by
        simp [Ty.resultText]
      have hwords : (some t).toList.flatMap (Ty.words n) = t.words n := List.append_nil _
      rw [htext, hwords]
      exact ((hm.result t rfl).1.writes hnext h).space
  have hparams := writes_params hm.params (Writes.ends rfl) (hresult.sign .rparen (by decide))
  have hall := (hparams.sign .lparen (by decide)).ident hm.name (Writes.ends rfl)
  simpa [words, type, Ty.text, Punct.char] using hall

theorem writes_body {ms : List Method} (hms : ∀ m ∈ ms, m.Writable)
    (h : Writes (n + ms.length) cs ws) :
    Writes n ((bodyText ms).toList ++ cs) (bodyWords n ms ++ ws) := by
  induction ms generalizing n with
  | nil => exact h
  | cons m ms ih =>
    obtain ⟨hm, hms⟩ := List.forall_mem_cons.1 hms
    rw [List.length_cons, Nat.add_comm ms.length, ← Nat.add_assoc] at h
    have hline := hm.writes (Writes.ends rfl) (ih hms h).newline
    simpa [bodyText, bodyWords] using hline

end Ir.Method

/-! ### Reading methods -/

/-- By itself, the parameter is lowered to the field. -/
def Param.LowersTo (p : Param) (field : Ir.Field) : Prop :=
  ∀ env f, LowerEnv.Bare env f p.type.qualifiedNames → p.lower env f = field

theorem Param.LowersTo.map {env : LowerEnv} {f : File} {ps : List Param}
    {fields : List Ir.Field} (h : List.Forall₂ Param.LowersTo ps fields)
    (hbare : env.Bare f (ps.flatMap (·.type.qualifiedNames))) :
    ps.map (Param.lower env f) = fields := by
  induction h with
  | nil => rfl
  | cons hp hps ih =>
    rw [List.map_cons, hp env f (hbare.mono (List.subset_append_left _ _)),
      ih (hbare.mono (List.subset_append_right _ _))]

/-- By itself, the signature is lowered to the type. -/
def Signature.LowersTo (s : Signature) (t : Ir.Ty) : Prop :=
  ∀ env f, LowerEnv.Bare env f ((MemberType.func s).types.flatMap TypeExpr.qualifiedNames) →
    (MemberType.func s).lower env f = t

namespace Parse

variable {rest : List Word} {line : Nat}

/-- Behind the parameters so far, which are no broken list, further ones stand. -/
structure ParamsSoFar.Extends (sofar r : ParamsSoFar) (fields : List Ir.Field) : Prop where
  broken : r.broken = none
  params : ∃ ps, r.params.toList = sofar.params.toList ++ ps ∧ List.Forall₂ Param.LowersTo ps fields

/-- A parameter is taken with the comma behind it, or in front of the parenthesis. -/
theorem param_consumes {p : Ir.Ty × Option String} (ht : p.1.Writable) (hn : p.1.nesting ≤ 63)
    {ending : List Word} (hending : ending = [.mark .comma line] ∨
      ending = [] ∧ headKind rest = .punct .rparen) {sofar : ParamsSoFar}
    (hsofar : sofar.broken = none) :
    Consumes [] (Ir.Method.paramWords line p ++ ending) rest (param sofar) fun r =>
      ∃ b, r = some b ∧ sofar.Extends b [Ir.Method.param p] := by
  obtain ⟨t, name⟩ := p
  obtain ⟨params, broken⟩ := sofar
  obtain rfl : broken = none := hsofar
  have hextends {e : TypeExpr} {i : Option Ident} (he : e.LowersTo t) (hi : i.map (·.name) = name) :
      ParamsSoFar.Extends ⟨params, none⟩ ⟨params.push ⟨e, i⟩, none⟩
        [Ir.Method.param (t, name)] := by
    refine ⟨rfl, [⟨e, i⟩], Array.toList_push, .cons (fun env f hbare => ?_) .nil⟩
    unfold Param.lower Ir.Method.param
    rw [he env f hbare, hi]
  have hhead := Ir.Method.headKind_paramWords line (t, name) (ending ++ rest)
  rw [← List.append_assoc] at hhead
  refine .check false (by rw [hhead]; rfl) (.atEnd false ?_ ?_)
  · obtain ⟨w, ws, hws⟩ := cons_of_headKind (fun h => nomatch hhead.symm.trans h)
    rw [hws]
    rfl
  have hgoes : ((⟨params, none⟩ : ParamsSoFar).broken.isSome || false || false) = false := rfl
  rw [hgoes, if_neg Bool.false_ne_true, Ir.Method.paramWords, List.append_assoc]
  refine .next (typeExpr_consumes ht hn ?_) fun e he => ?_
  · cases name with
    | some name => exact nofun
    | none =>
      rcases hending with rfl | ⟨rfl, hrest⟩
      · exact nofun
      · show headKind rest ≠ _
        rw [hrest]
        exact nofun
  cases name with
  | none =>
    rcases hending with rfl | ⟨rfl, hrest⟩
    · refine .kind (.punct .comma) rfl (.before advance_consumes fun _ _ => .pure ?_)
      exact ⟨_, rfl, hextends he rfl⟩
    · exact .kind (.punct .rparen) hrest (.pure ⟨_, rfl, hextends he rfl⟩)
  | some name =>
    refine .kind .ident rfl (.cons (ident_consumes rfl) fun i hi => ?_)
    have hnew := hextends (i := some i) he (congrArg some hi)
    rcases hending with rfl | ⟨rfl, hrest⟩
    · refine .check true rfl (.before advance_consumes fun _ _ => .pure ⟨_, rfl, hnew⟩)
    · have hcomma : headKind rest ≠ .punct .comma := fun h => nomatch hrest.symm.trans h
      exact .check false (beq_false_of_ne hcomma) (.pure ⟨_, rfl, hnew⟩)

theorem ParamsSoFar.Extends.trans {a b c : ParamsSoFar} {fields fields' : List Ir.Field}
    (h : a.Extends b fields) (h' : b.Extends c fields') : a.Extends c (fields ++ fields') := by
  obtain ⟨ps, hps, hlower⟩ := h.params
  obtain ⟨ps', hps', hlower'⟩ := h'.params
  refine ⟨h'.broken, ps ++ ps', ?_, List.rel_append hlower hlower'⟩
  rw [hps', hps, List.append_assoc]

/-- Parameters are taken up to the parenthesis. -/
theorem params_consumes {ps : List (Ir.Ty × Option String)}
    (hps : ∀ p ∈ ps, p.1.Writable ∧ p.1.nesting ≤ 63 ∧ ∀ n ∈ p.2, IsName n) {sofar : ParamsSoFar}
    (hsofar : sofar.broken = none) :
    Consumes [] (Ir.Method.paramsWords line ps) (.mark .rparen line :: rest) (iterate param sofar)
      fun r => sofar.Extends r (ps.map Ir.Method.param) := by
  induction ps generalizing sofar with
  | nil =>
    have hstop : Consumes [] [] (.mark .rparen line :: rest) (param sofar) (· = none) := by
      refine .check true rfl (.atEnd false rfl ?_)
      rw [Bool.or_true, Bool.true_or]
      exact .pure rfl
    exact .stop hstop ⟨hsofar, [], (List.append_nil _).symm, .nil⟩
  | cons p ps ih =>
    obtain ⟨⟨ht, hn, -⟩, hps⟩ := List.forall_mem_cons.1 hps
    obtain ⟨ending, hwords, hending⟩ : ∃ ending, Ir.Method.paramsWords line (p :: ps) =
        Ir.Method.paramWords line p ++ ending ++ Ir.Method.paramsWords line ps ∧
        (ending = [.mark .comma line] ∨ ending = [] ∧
          headKind (Ir.Method.paramsWords line ps ++ .mark .rparen line :: rest) =
            .punct .rparen) := by
      cases ps with
      | nil => exact ⟨[], by simp [Ir.Method.paramsWords], .inr ⟨rfl, rfl⟩⟩
      | cons q qs => exact ⟨_, by simp [Ir.Method.paramsWords], .inl rfl⟩
    have hparam := param_consumes ht hn hending hsofar
    obtain ⟨w, ws, hw⟩ := cons_of_headKind fun h =>
      nomatch (Ir.Method.headKind_paramWords line p ending).symm.trans h
    rw [hwords]
    rw [hw] at hparam ⊢
    exact .again hparam fun b hb => (ih hps hb.broken).imp fun r hr => hb.trans hr

theorem paramList_consumes {ps : List (Ir.Ty × Option String)}
    (hps : ∀ p ∈ ps, p.1.Writable ∧ p.1.nesting ≤ 63 ∧ ∀ n ∈ p.2, IsName n) :
    Consumes [] (.mark .lparen line :: (Ir.Method.paramsWords line ps ++ [.mark .rparen line])) rest
      paramList fun l => List.Forall₂ Param.LowersTo l.params (ps.map Ir.Method.param) := by
  refine .cons (expect_consumes rfl) fun _ _ => .next (params_consumes hps rfl) fun r hr => ?_
  obtain ⟨ps, hps, hlower⟩ := hr.params
  rw [hr.broken]
  refine .before (expect_consumes rfl) fun _ _ => .pure ?_
  rw [hps]
  exact hlower

/-! ### Results -/

/-- Words that end a method on the line: the body is at its end, or there is a name on another
line. -/
def EndsMethod (line : Nat) (ws : List Word) : Prop :=
  ∃ w ∈ ws.head?, w.kind = .punct .rbrace ∨ w.kind = .ident ∧ w.line ≠ line

/-- A result is on the line of the parenthesis, and the next method is not. -/
theorem methodResult_consumes {result : Option Ir.Ty}
    (hresult : ∀ t ∈ result, t.Writable ∧ t.nesting ≤ 63) (hrest : EndsMethod line rest) :
    Consumes [] (result.toList.flatMap (Ir.Ty.words line)) rest (methodResult line) fun r =>
      ∀ env f, LowerEnv.Bare env f (r.toList.flatMap TypeExpr.qualifiedNames) →
        r.map (TypeExpr.lower env f) = result := by
  obtain ⟨w, hw, hends⟩ := hrest
  obtain ⟨more, rfl⟩ : ∃ more, rest = w :: more := List.head?_eq_some_iff.1 hw
  have hkind : w.kind ≠ .punct .lparen ∧ w.kind ≠ .punct .period := by
    rcases hends with h | ⟨h, -⟩ <;> rw [h] <;> exact ⟨nofun, nofun⟩
  cases result with
  | none =>
    refine .look fun s hs => .look fun s' hs' => .look fun s'' hs'' => ?_
    have hnot : (s.current.token.kind == TokenKind.ident &&
        s'.file.lineOf s'.current.token.pos == line) = false := by
      have hline : s'.file.lineOf s'.current.token.pos = w.line := congrArg Word.line hs'.current
      rw [hs.kind, hline]
      rcases hends with h | ⟨-, h⟩
      · have hhead : headKind (w :: more) = .punct .rbrace := h
        show (headKind (w :: more) == TokenKind.ident && _) = false
        rw [hhead]
        rfl
      · rw [beq_false_of_ne h, Bool.and_false]
    rw [hnot, Bool.false_and, if_neg Bool.false_ne_true]
    exact .pure fun _ _ _ => rfl
  | some t =>
    obtain ⟨ht, hn⟩ := hresult t rfl
    obtain ⟨text, ws, hwords, hnext⟩ := t.words_cons line
    have hall : (some t).toList.flatMap (Ir.Ty.words line) = t.words line := List.append_nil _
    rw [hall]
    have htype : Consumes [] (t.words line) (w :: more) typeExpr (·.LowersTo t) :=
      typeExpr_consumes ht hn hkind.2
    rw [hwords] at htype ⊢
    refine .look fun s hs => .look fun s' hs' => .look fun s'' hs'' => ?_
    have htaken : (s.current.token.kind == TokenKind.ident &&
        s'.file.lineOf s'.current.token.pos == line &&
          (s''.left.tail.headD s''.eof).token.kind != .punct .lparen) = true := by
      have hline : s'.file.lineOf s'.current.token.pos = line := congrArg Word.line hs'.current
      have hfollow : (s''.left.tail.headD s''.eof).token.kind ≠ .punct .lparen := by
        rw [hs''.nextKind]
        exact hnext _ hkind.1
      rw [hs.kind, hline, bne_iff_ne.2 hfollow, beq_self_eq_true]
      rfl
    rw [htaken, if_pos rfl]
    refine .before htype fun e he => .pure fun env f hbare => ?_
    exact congrArg some (he env f (hbare.mono (by simp)))

/-! ### Methods -/

theorem signature_consumes {m : Ir.Method} (hm : m.Writable) (hrest : EndsMethod line rest) :
    Consumes [] (.mark .lparen line :: (Ir.Method.paramsWords line m.params ++
      .mark .rparen line :: m.result.toList.flatMap (Ir.Ty.words line))) rest signature
        (·.LowersTo m.type) := by
  refine .look fun s hs => ?_
  have hline : s.file.lineOf s.current.token.pos = line := congrArg Word.line hs.current
  rw [hline, ← List.singleton_append (l := m.result.toList.flatMap _), ← List.append_assoc,
    ← List.cons_append]
  refine .next (paramList_consumes hm.params) fun l hl => ?_
  refine .before (methodResult_consumes hm.result hrest) fun r hr => .pure fun env f hbare => ?_
  have hparams : l.params.map (Param.lower env f) = m.params.map Ir.Method.param :=
    Param.LowersTo.map hl (hbare.mono (by simp [MemberType.types, List.flatMap_map]))
  have hresult : r.map (TypeExpr.lower env f) = m.result :=
    hr env f (hbare.mono (by simp [MemberType.types]))
  show Ir.Ty.func (l.params.map (Param.lower env f)) (r.map (TypeExpr.lower env f)) = _
  rw [hparams, hresult]
  rfl

/-- A name in front of a parenthesis is the name of a method. -/
theorem nameAndType_consumes {m : Ir.Method} (hm : m.Writable) (hrest : EndsMethod line rest) :
    Consumes [] (m.words line) rest nameAndType fun r =>
      ∃ i sig, r = (some i, .func sig) ∧ i.name = m.name ∧ sig.LowersTo m.type := by
  have hname : Consumes [] [.name m.name line] (.mark .lparen line ::
      (Ir.Method.paramsWords line m.params ++
        .mark .rparen line :: m.result.toList.flatMap (Ir.Ty.words line)) ++ rest) typeExpr
      fun e => ∃ i, methodName? e = some i ∧ i.name = m.name := by
    refine .check true rfl (.cons (ident_consumes rfl) fun i hi => .check false rfl ?_)
    have hplain : i.name ∉ Grammar.containers := hi ▸ hm.plain
    cases hb : Builtin.ofName? i.name with
    | none => exact .pure ⟨i, rfl, hi⟩
    | some b =>
      rw [← Builtin.name_of_ofName? hb] at hplain
      cases b with
      | map => exact absurd (by decide) hplain
      | array => exact absurd (by decide) hplain
      | vector => exact absurd (by decide) hplain
      | _ => exact .pure ⟨i, rfl, hi⟩
  refine .cons hname fun e he => .check true rfl ?_
  obtain ⟨i, hi, hmname⟩ := he
  rw [if_pos rfl, hi]
  exact .before (signature_consumes hm hrest) fun sig hsig => .pure ⟨i, sig, rfl, hmname, hsig⟩

theorem method_consumes {m : Ir.Method} (hm : m.Writable) (hrest : EndsMethod line rest)
    (scope : ScopeId) (index : Nat) :
    Consumes [(scope, m.name)] (m.words line) rest (method scope index) (·.LowersTo m.field) := by
  refine .behind takeLead_consumes fun doc hdoc => ?_
  refine .last (nameAndType_consumes hm hrest) fun r hr => ?_
  obtain ⟨i, sig, rfl, hname, hsig⟩ := hr
  obtain ⟨hcomma, hsemicolon⟩ :
      headKind rest ≠ .punct .comma ∧ headKind rest ≠ .punct .semicolon := by
    obtain ⟨w, hw, hends⟩ := hrest
    obtain ⟨more, rfl⟩ : ∃ more, rest = w :: more := List.head?_eq_some_iff.1 hw
    have hhead : headKind (w :: more) = w.kind := rfl
    rcases hends with h | ⟨h, -⟩ <;> rw [hhead, h] <;> exact ⟨nofun, nofun⟩
  refine .behind (endOfItem_consumes (by simp [hcomma, hsemicolon])) fun _ _ => ?_
  refine .behind trailing_consumes fun comment hcomment => ?_
  refine .behind (memberOrigin_consumes index) fun origin _ => ?_
  have hdeclared : Consumes [(scope, m.name)] [] rest
      ((some i).toList.forM fun name => declare name .func origin none scope) fun _ => True :=
    hname ▸ .before (declare_consumes i .func origin none scope) fun _ _ => .pure trivial
  refine .before hdeclared fun _ _ => .before (resolveMemberType_consumes _) fun _ _ => .pure ?_
  refine ⟨List.cons_ne_nil _ _, ?_⟩
  intro env f hbare
  have hlower := hsig env f (hbare.mono (by simp [Member.types]))
  simp [Member.lower, hlower, hdoc, hname, hcomment, lowerDoc, lowerTag, lowerComment,
    Ir.Method.field]

/-- In a service, a name starts a method. -/
theorem member?_service {s : ParseState} (h : s.current.token.kind = .ident) (scope : ScopeId)
    (index : Nat) : member? .service scope index s =
      (some <$> method scope index : Parse (Option Member)) s := by
  simp only [member?, bind_apply, current, h]

/-- Methods with different names, one per line, are taken one by one. -/
theorem methods_consumes {ms : List Ir.Method} (hms : ∀ m ∈ ms, m.Writable) {last : Nat}
    (scope : ScopeId) (members : Array Member) :
    Consumes (ms.map fun m => (scope, m.name)) (Ir.Method.bodyWords line ms)
      (.mark .rbrace last :: rest) (iterate (moreMembers .service scope) members) fun r =>
        ∃ taken, r.toList = members.toList ++ taken ∧
          List.Forall₂ Member.LowersTo taken (ms.map Ir.Method.field) := by
  induction ms generalizing line members with
  | nil => exact .stop moreMembers_ended ⟨[], (List.append_nil _).symm, .nil⟩
  | cons m ms ih =>
    obtain ⟨hm, hms⟩ := List.forall_mem_cons.1 hms
    have hends : EndsMethod line
        (Ir.Method.bodyWords (line + 1) ms ++ .mark .rbrace last :: rest) := by
      cases ms with
      | nil => exact ⟨_, rfl, .inl rfl⟩
      | cons m' ms => exact ⟨_, rfl, .inr ⟨rfl, Nat.succ_ne_self line⟩⟩
    have hmethod := moreMembers_consumes .service scope members
      (method_consumes hm hends scope members.size) fun s hs => member?_service hs.kind scope _
    refine .again hmethod fun b hb => ?_
    obtain ⟨x, rfl, hx⟩ := hb
    refine (ih hms (members.push x)).imp fun r hr => ?_
    obtain ⟨taken, htaken, hlower⟩ := hr
    refine ⟨x :: taken, ?_, .cons hx hlower⟩
    rw [htaken, Array.toList_push, List.append_assoc]
    rfl

end Parse

/-! ### Files with one service -/

/-- A file that writes a service with its methods one per line. -/
def serviceSource (filename package service : String) (ms : List Ir.Method) : Source :=
  ⟨filename, "package " ++ package ++ " service " ++ service ++ " \x7b\n" ++
    Ir.Method.bodyText ms ++ "\x7d"⟩

theorem serviceSource_writes {package service : String} (hpackage : IsName package)
    (hservice : IsName service) {ms : List Ir.Method} (hms : ∀ m ∈ ms, m.Writable)
    (filename : String) :
    Writes 1 (serviceSource filename package service ms).text.toList
      (beanWords .service package service (Ir.Method.bodyWords 2 ms) (2 + ms.length)) := by
  have htext : (serviceSource filename package service ms).text.toList =
      Keyword.pkg.spelling.toList ++ ' ' :: (package.toList ++ ' ' ::
        (BeanKind.service.keyword.spelling.toList ++ ' ' :: (service.toList ++ ' ' ::
          '\x7b' :: ('\n' :: ((Ir.Method.bodyText ms).toList ++ ['\x7d']))))) := by
    simp [serviceSource, BeanKind.keyword, Keyword.spelling]
  rw [htext]
  refine .bean hpackage hservice (.newline (Ir.Method.writes_body hms ?_))
  exact Writes.done.sign .rbrace (by decide)

/-- Services are compiled to the methods that they are written with.  A file that writes methods
with different names, one per line, is parsed without diagnostics, and its service is lowered to
just these methods, in order, and extends nothing. -/
theorem serviceSource_compiles {package service : String} (hpackage : IsName package)
    (hblank : package ≠ "_") (hservice : IsName service) {ms : List Ir.Method}
    (hms : ∀ m ∈ ms, m.Writable) (hnames : (ms.map (·.name)).Nodup) (filename : String)
    (hroom : FileSet.Admits {} (serviceSource filename package service ms)) :
    (∃ r, parseFile {} {} filename (serviceSource filename package service ms).text = .ok r ∧
      r.diagnostics = []) ∧
      ∃ unresolved, (compile [serviceSource filename package service ms]).ir = ⟨[{
        name := package
        files := [{
          filename
          package
          beans := [{
            kind := .service
            name := service
            extended := []
            fields := ms.map Ir.Method.field }]
          unresolved }] }]⟩ := by
  refine Source.compile_bean hroom hblank hnames (fun scope => ?_)
    (serviceSource_writes hpackage hservice hms filename)
  rw [List.map_map]
  refine (Parse.methods_consumes hms scope #[]).imp fun r hr => ?_
  obtain ⟨taken, htaken, hlower⟩ := hr
  rw [htaken]
  exact hlower

/-- Methods whose neighbours could be taken for parameters and results. -/
theorem serviceSource_compiles_neighbours :
    let ms : List Ir.Method := [
      ⟨"f", [(.basic "int32", some "a"), (.struct "" "T", none)], none⟩,
      ⟨"g", [], some (.struct "" "h")⟩,
      ⟨"int32", [(.map (.basic "string") (.struct "q" "T"), none)],
        some (.vector (.struct "" "f"))⟩]
    (∀ m ∈ ms, m.Writable) ∧ (ms.map (·.name)).Nodup ∧
      FileSet.Admits {} (serviceSource "a" "p" "S" ms) ∧
      ∃ r, parseFile {} {} "a" (serviceSource "a" "p" "S" ms).text = .ok r ∧
        r.diagnostics = [] := by
  intro ms
  have hname {w : String} (hw : w ∈ ["p", "S", "f", "g", "h", "a", "q", "T"]) : IsName w := by
    simp only [List.mem_cons, List.not_mem_nil, or_false] at hw
    rcases hw with rfl | rfl | rfl | rfl | rfl | rfl | rfl | rfl <;>
      exact ⟨⟨_, [], by decide, rfl, rfl⟩, rfl⟩
  have hplain {w : String} (hw : w ∈ ["f", "h", "T"]) : (Ir.Ty.struct "" w).Writable := by
    simp only [List.mem_cons, List.not_mem_nil, or_false] at hw
    rcases hw with rfl | rfl | rfl <;> exact .plain (hname (by simp)) rfl
  have hf : (⟨"f", [(.basic "int32", some "a"), (.struct "" "T", none)], none⟩ :
      Ir.Method).Writable := by
    refine ⟨hname (by simp), by decide, ?_, by simp⟩
    refine List.forall_mem_cons.2 ⟨⟨.scalar .int32 rfl, by decide, ?_⟩, ?_⟩
    · rintro n ⟨⟩
      exact hname (by simp)
    · exact List.forall_mem_singleton.2 ⟨hplain (by simp), by decide, by simp⟩
  have hg : (⟨"g", [], some (.struct "" "h")⟩ : Ir.Method).Writable := by
    refine ⟨hname (by simp), by decide, by simp, ?_⟩
    rintro t ⟨⟩
    exact ⟨hplain (by simp), by decide⟩
  have hint : (⟨"int32", [(.map (.basic "string") (.struct "q" "T"), none)],
      some (.vector (.struct "" "f"))⟩ : Ir.Method).Writable := by
    refine ⟨Builtin.isName .int32, by decide, ?_, ?_⟩
    · refine List.forall_mem_singleton.2 ⟨.map (.scalar .string rfl) ?_, by decide, by simp⟩
      exact .qualified (hname (by simp)) (hname (by simp))
    · rintro t ⟨⟩
      exact ⟨.vector (hplain (by simp)), by decide⟩
  have hms : ∀ m ∈ ms, m.Writable :=
    List.forall_mem_cons.2 ⟨hf, List.forall_mem_cons.2 ⟨hg, List.forall_mem_singleton.2 hint⟩⟩
  have hnames : (ms.map (·.name)).Nodup := by decide
  have hroom : FileSet.Admits {} (serviceSource "a" "p" "S" ms) := ⟨by decide, by decide +kernel⟩
  exact ⟨hms, hnames, hroom, (serviceSource_compiles (hname (by simp)) (by decide)
    (hname (by simp)) hms hnames "a" hroom).1⟩

/-- A method without parameters and a result, under a name that is as long as that. -/
def longMethod (n : Nat) : Ir.Method := ⟨letters n, [], none⟩

theorem longMethod_writable {n : Nat} (h : 16 ≤ n) : (longMethod n).Writable := by
  refine ⟨isName_letters h, fun hmem => ?_, List.forall_mem_nil _, nofun⟩
  have hshort : ∀ w ∈ Grammar.containers, w.utf8ByteSize < 16 := by decide
  have hsize := hshort _ hmem
  rw [longMethod, utf8ByteSize_letters] at hsize
  omega

/-- A file is as long as the name of its method, and a little longer. -/
theorem utf8ByteSize_longMethod (filename package : String) (n : Nat) :
    (serviceSource filename package "S" [longMethod n]).text.utf8ByteSize =
      package.utf8ByteSize + n + 25 := by
  have hbody : Ir.Method.bodyText [longMethod n] = letters n ++ "()\n" := by
    show "" ++ (letters n ++ "()" ++ "\n") = _
    rw [String.empty_append, String.append_assoc]
    rfl
  show ("package " ++ package ++ " service " ++ "S" ++ " \x7b\n" ++ _ ++ "\x7d").utf8ByteSize = _
  rw [hbody]
  simp only [String.utf8ByteSize_append, utf8ByteSize_letters]
  show 8 + package.utf8ByteSize + 9 + 1 + 3 + (n + 3) + 1 = _
  omega

/-- A file of 4 GB, in which the name of a method is that long, is refused. -/
theorem serviceSource_refused :
    (longMethod positionBound).Writable ∧
      parseFile {} {} "a" (serviceSource "a" "p" "S" [longMethod positionBound]).text =
        .error .overflow := by
  refine ⟨longMethod_writable (by decide), parseFile_refused _ _ ?_⟩
  rw [utf8ByteSize_longMethod]
  omega

end Idl
