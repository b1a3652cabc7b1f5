/-
Idl/Proofs/Ir/Single.lean

Sources that declare a single bean.

Such a source imports nothing and has no constants, so nothing in it is lowered to more than it says
(`Source.bare`).  If its text writes the words of a bean, and the members between the braces are read
without a report, the source is compiled to just this bean (`Source.compile_bean`).
-/
import Idl.Proofs.Ir.Display
import Idl.Proofs.Isolation
import Idl.Proofs.Resolution

namespace Idl

/-! ### A source that is the only one -/

namespace Source

variable (s : Source)

/-- Where there are positions for it, a source that is read first is read as it is read alone. -/
theorem parseFile_first (h : FileSet.Admits {} s) :
    parseFile {} {} s.name s.text = .ok {
      file := s.alone.file
      diagnostics := s.alone.diagnostics
      files := ⟨1 + s.text.utf8ByteSize + 1, #[s.alone.source]⟩
      symbols := s.alone.symbols } := by
  rw [parseFile_eq_of, if_neg (Nat.not_le.2 h.room)]
  show Except.ok (ParseResult.of _ s.scanned.1 (s.tokens.flatMap (·.groups)) s.start) = _
  unfold ParseResult.of
  rw [← s.parsed_eq]
  rfl

theorem parseSources_single (h : FileSet.Admits {} s) :
    (parseSources [s]).parsed = [s.alone.file] ∧
      (parseSources [s]).diagnostics = s.alone.diagnostics := by
  have hadd : parseSources [s] = ParsedSources.add {} s := rfl
  have hfirst := s.parseFile_first h
  unfold ParsedSources.add at hadd
  rw [hadd]
  dsimp only
  rw [hfirst]
  exact ⟨rfl, rfl⟩

/-- The file of a source that is compiled alone, linked: it is the only file of the only package, and
where it imports nothing, its qualifiers stand for nothing. -/
theorem linked_single (h : FileSet.Admits {} s)
    (himports : s.alone.file.imports = []) : ∃ p g, (linkSources [s]).packages.values = [p] ∧
      p.name = s.alone.file.name.name ∧ p.files.values = [g] ∧
      g = { s.alone.file with resolutions := g.resolutions, unresolved := g.unresolved } ∧
      ∀ q ∈ g.qualifiedNames, (linkSources [s]).objectOf? g q.qualifier = none := by
  obtain ⟨hfiles, -⟩ := s.parseSources_single h
  obtain ⟨scopes, m, hrun⟩ := linkSources_run [s]
  generalize s.alone.file = f at *
  have hmem : f ∈ (parseSources [s]).parsed := hfiles ▸ List.mem_singleton_self f
  have hdistinct : DistinctNames (parseSources [s]).parsed := hfiles ▸ List.pairwise_singleton ..
  obtain ⟨p, i, hp, -, hlinks, hobjects, hfile⟩ := hrun.linked hdistinct hmem
  obtain ⟨refs, hknown⟩ := hrun.known f hmem
  refine ⟨p, linkedFile m scopes p.imports i f, ?_, hlinks.name, ?_, rfl, fun q hq => ?_⟩
  · refine NameMap.values_of_single (k := f.name.name) fun n => ?_
    split
    · next hn => rw [hn, hp]
    · next hn =>
      by_contra hsome
      obtain ⟨p', hp'⟩ := Option.ne_none_iff_exists'.1 hsome
      obtain ⟨j, hj, -⟩ := hrun.links.packages hp'
      obtain ⟨f', hf', rfl⟩ := (hrun.links.named n).1 (Option.isSome_iff_exists.2 ⟨j, hj⟩)
      rw [hfiles, List.mem_singleton] at hf'
      exact hn (congrArg (·.name.name) hf')
  · refine NameMap.values_of_single (k := f.filename) fun x => ?_
    split
    · next hx => rw [hx, hfile]
    · next hx =>
      rw [hlinks.files, Option.map_eq_none_iff, List.find?_eq_none]
      intro f' hf' heq
      have hf' := (mem_filesOf.1 hf').1
      rw [hfiles, List.mem_singleton] at hf'
      exact hx (hf' ▸ (of_decide_eq_true heq).symm)
  · have hsettles := hrun.settles_qualified hmem hknown hp hlinks hobjects hfile hq
    have hnone : (linkedFile m scopes p.imports i f).imported? (parseSources [s]).parsed
        q.qualifier.name = none := by
      unfold File.imported?
      rw [show (linkedFile m scopes p.imports i f).imports = [] from himports]
      rfl
    unfold Linked.SettlesQualified at hsettles
    rw [hnone] at hsettles
    exact hsettles.1.1

end Source

/-! ### The words of a bean -/

/-- The word that a bean of a kind starts with. -/
def BeanKind.keyword : BeanKind → Keyword
  | .struct => .struct
  | .protocol => .protocol
  | .service => .service
  | .enum => .enum

/-- The words of a file that declares one bean: the head on the first line, the words of the members,
and the end on the last line. -/
def beanWords (kind : BeanKind) (package bean : String) (members : List Word) (last : Nat) :
    List Word :=
  ⟨.keyword .pkg, Keyword.pkg.spelling, 1⟩ :: .name package 1 ::
    ⟨.keyword kind.keyword, kind.keyword.spelling, 1⟩ :: .name bean 1 :: .mark .lbrace 1 ::
      (members ++ [.mark .rbrace last])

/-- The text of a file that declares one bean. -/
theorem Writes.bean {kind : BeanKind} {package bean : String} {cs : List Char}
    {members : List Word} {last : Nat} (hpackage : IsName package) (hbean : IsName bean)
    (h : Writes 1 cs (members ++ [.mark .rbrace last])) :
    Writes 1 (Keyword.pkg.spelling.toList ++ ' ' :: (package.toList ++ ' ' ::
      (kind.keyword.spelling.toList ++ ' ' :: (bean.toList ++ ' ' :: '\x7b' :: cs))))
      (beanWords kind package bean members last) := by
  refine .keyword .pkg (ends rfl) (.space (.ident hpackage (ends rfl) (.space ?_)))
  refine .keyword kind.keyword (ends rfl) (.space (.ident hbean (ends rfl) (.space ?_)))
  exact h.sign .lbrace (by decide)

namespace Parse

variable {α β : Type} {ws us rest : List Word} {Q : α → Prop}

/-- Behind the words that a rule takes, where the state matters. -/
theorem Consumes.enter {m : Parse α} {f : α → Parse β} {s : ParseState}
    (hm : Consumes [] ws us m Q) (hs : s.Holds (ws ++ us)) {C : β × ParseState → Prop}
    (hf : ∀ a t, Q a → t.Holds us → s.Quiet [] t → C (f a t)) : C ((m >>= f) s) := by
  obtain ⟨hheld, hquiet, hq⟩ := hm s hs ⟨List.nodup_nil, fun x hx => nomatch hx⟩
  exact hf _ _ hq hheld hquiet

/-- A bean whose members are taken is taken. -/
theorem bean_taken {kind : BeanKind} {w : Word} {name : String} {line last : Nat}
    {names : List String} {P : List Member → Prop} (hnames : names.Nodup)
    (hmembers : ∀ scope, Consumes (names.map (scope, ·)) ws (.mark .rbrace last :: rest)
      (iterate (moreMembers kind scope) #[]) fun ms => P ms.toList)
    {s : ParseState} (hscope : s.fileScope < s.symbols.scopes.size)
    (hfree : s.symbols.lookup? s.fileScope name = none)
    (hs : s.Holds (w :: .name name line :: .mark .lbrace line ::
      (ws ++ .mark .rbrace last :: rest))) :
    let r := bean kind s
    r.2.Holds rest ∧ r.2.diagnostics = s.diagnostics ∧ r.2.file = s.file ∧ r.1.kind = kind ∧
      r.1.doc = none ∧ r.1.name.name = name ∧ r.1.tag = none ∧ P r.1.body.members := by
  let C (r : Bean × ParseState) : Prop := r.2.Holds rest ∧ r.2.diagnostics = s.diagnostics ∧
    r.2.file = s.file ∧ r.1.kind = kind ∧ r.1.doc = none ∧ r.1.name.name = name ∧
      r.1.tag = none ∧ P r.1.body.members
  show C (bean kind s)
  refine takeLead_consumes.enter hs fun doc t₁ hdoc h₁ q₁ => ?_
  refine advance_consumes.enter h₁ fun start t₂ _ h₂ q₂ => ?_
  refine (ident_consumes rfl).enter h₂ fun i t₃ hi h₃ q₃ => ?_
  refine (string?_consumes (by simp [headKind, Word.mark])).enter h₃ fun tag t₄ htag h₄ q₄ => ?_
  have hquiet := ((q₁.trans q₂).trans q₃).trans q₄
  -- the names of the members are declared in a scope that does not exist yet
  let scope := t₄.symbols.scopes.size
  let t₅ : ParseState := { t₄ with symbols := (t₄.symbols.newScope (some t₄.fileScope)).2 }
  let body : Parse Bean := do
    let opening ← expect (.punct .lbrace)
    let members ← iterate (moreMembers kind scope) #[]
    let closing ← expect (.punct .rbrace)
    let u ← get
    declare i .bean (.decl u.fileId u.declIndex) none t₄.fileScope
    return { kind, pos := start.pos, doc, name := i, tag, body := ⟨opening, members.toList, closing⟩ }
  show C (body t₅)
  have hbody : Consumes (names.map (scope, ·) ++ [(t₄.fileScope, i.name)])
      (.mark .lbrace line :: (ws ++ [.mark .rbrace last])) rest body fun b => b.kind = kind ∧
        b.doc = none ∧ b.name.name = name ∧ b.tag = none ∧ P b.body.members := by
    refine .cons (expect_consumes rfl) fun opening _ => .bind (hmembers scope) fun members hp => ?_
    refine .cons (expect_consumes rfl) fun closing _ => .look fun u _ => ?_
    exact .before (declare_consumes i _ _ none t₄.fileScope) fun _ _ =>
      .pure ⟨rfl, hdoc, hi, htag, hp⟩
  have hheld : t₅.Holds (.mark .lbrace line :: (ws ++ [.mark .rbrace last]) ++ rest) := by
    have hwords : Word.mark .lbrace line :: (ws ++ [.mark .rbrace last]) ++ rest =
        .mark .lbrace line :: (ws ++ .mark .rbrace last :: rest) := by simp
    rw [hwords]
    exact ⟨h₄.words, h₄.eof, h₄.lead, h₄.bare⟩
  have hinside : t₄.fileScope < scope := by
    show t₄.fileScope < t₄.symbols.scopes.size
    rw [hquiet.fileScope, hquiet.scopes]
    exact hscope
  have hnew (x : String) : t₅.symbols.lookup? scope x = none := by
    show ((t₄.symbols.scopes.push { outer := some t₄.fileScope })[scope]?.bind (·.find? x)) = none
    rw [Array.getElem?_push_size]
    rfl
  have hold : t₅.symbols.lookup? t₄.fileScope i.name = none := by
    show ((t₄.symbols.scopes.push { outer := some t₄.fileScope })[t₄.fileScope]?.bind
      (·.find? i.name)) = none
    rw [Array.getElem?_push_lt hinside, ← Array.getElem?_eq_getElem hinside, hi]
    exact (hquiet.lookup t₄.fileScope name (by simp)).trans (hquiet.fileScope ▸ hfree)
  have hready : t₅.Free (names.map (scope, ·) ++ [(t₄.fileScope, i.name)]) := by
    refine ⟨List.nodup_append.2 ⟨?_, List.nodup_singleton _, ?_⟩, fun x hx => ?_⟩
    · exact hnames.map fun a b h => (Prod.mk.inj h).2
    · rintro x hx y hy rfl
      obtain ⟨n, -, rfl⟩ := List.mem_map.1 hx
      exact Nat.ne_of_gt hinside (congrArg Prod.fst (List.mem_singleton.1 hy))
    · rcases List.mem_append.1 hx with hx | hx
      · obtain ⟨n, -, rfl⟩ := List.mem_map.1 hx
        exact hnew n
      · rw [List.mem_singleton.1 hx]
        exact hold
  obtain ⟨hrest, hlast, hb⟩ := hbody t₅ hheld hready
  exact ⟨hrest, hlast.diagnostics.trans hquiet.diagnostics, hlast.file.trans hquiet.file, hb⟩

/-- A member that is taken is a further one. -/
theorem moreMembers_consumes (kind : BeanKind) (scope : ScopeId) (members : Array Member)
    {names : List (ScopeId × String)} {m : Parse Member} {Q : Member → Prop}
    (hm : Consumes names ws rest m Q)
    (h : ∀ s, s.Holds (ws ++ rest) →
      member? kind scope members.size s = (some <$> m : Parse (Option Member)) s) :
    Consumes names ws rest (moreMembers kind scope members) fun r =>
      ∃ b, r = some b ∧ ∃ x, b = members.push x ∧ Q x := by
  intro s hs hfree
  have hmore : moreMembers kind scope members s = (some (members.push (m s).1), (m s).2) := by
    show ((member? kind scope members.size s).1.map members.push,
      (member? kind scope members.size s).2) = _
    rw [h s hs]
    rfl
  obtain ⟨hheld, hquiet, hq⟩ := hm s hs hfree
  rw [hmore]
  exact ⟨hheld, hquiet, _, rfl, _, rfl, hq⟩

/-- Where the body of a bean ends, there is no further member. -/
theorem moreMembers_ended {kind : BeanKind} {scope : ScopeId} {members : Array Member} {line : Nat} :
    Consumes [] [] (.mark .rbrace line :: rest) (moreMembers kind scope members) (· = none) := by
  intro s hs _
  have hkind : s.current.token.kind = .punct .rbrace := hs.kind
  have hmember : member? kind scope members.size s = (none, s) := by
    unfold member?
    rw [bind_apply]
    dsimp only [current, get]
    rw [hkind]
    cases kind <;> rfl
  have hmore : moreMembers kind scope members s = (none, s) := by
    show ((member? kind scope members.size s).1.map members.push,
      (member? kind scope members.size s).2) = _
    rw [hmember]
    rfl
  rw [hmore]
  exact ⟨hs, .of_same rfl rfl rfl rfl, rfl⟩

theorem decl_of_keyword {kind : BeanKind} {s : ParseState}
    (h : s.current.token.kind = .keyword kind.keyword) :
    decl s = (.bean (bean kind s).1, (bean kind s).2) := by
  unfold decl
  rw [bind_apply, show Parse.kind s = (.keyword kind.keyword, s) from congrArg (·, s) h]
  cases kind <;> rfl

/-- A declaration in front of the end of the file is the only one. -/
theorem decls_of_single {s : ParseState} {kind : BeanKind} {w : Word} {ws : List Word}
    (hs : s.Holds (w :: ws)) (hw : w.kind = .keyword kind.keyword)
    (hend : (bean kind { s with declIndex := 0 }).2.Holds []) :
    declsWhile (not <$> atEnd) decl #[] s =
      (#[.bean (bean kind { s with declIndex := 0 }).1],
        (bean kind { s with declIndex := 0 }).2) := by
  obtain ⟨left, hleft, -⟩ := hs.take
  obtain ⟨r, hr⟩ : ∃ r : Bean × ParseState, bean kind { s with declIndex := 0 } = r := ⟨_, rfl⟩
  rw [hr] at hend
  rw [hr]
  have hkind : ({ s with declIndex := 0 } : ParseState).current.token.kind =
      .keyword kind.keyword := (congrArg Word.kind hs.current).trans hw
  have hdecl := decl_of_keyword hkind
  rw [hr] at hdecl
  have hmore : moreDecls (not <$> atEnd) decl #[] s = (some #[.bean r.1], r.2) := by
    show (if (!s.left.isEmpty) = true then _ else _ : Parse (Option (Array Decl))) s = _
    rw [hleft]
    show (some (#[].push (decl { s with declIndex := 0 }).1), (decl { s with declIndex := 0 }).2) = _
    rw [hdecl]
    rfl
  have hnil : r.2.left = [] := List.map_eq_nil_iff.1 hend.words
  have hstop : moreDecls (not <$> atEnd) decl #[.bean r.1] r.2 = (none, r.2) := by
    show (if (!r.2.left.isEmpty) = true then _ else _ : Parse (Option (Array Decl))) r.2 = _
    rw [hnil]
    rfl
  unfold declsWhile
  rw [iterate, hmore]
  dsimp only
  have hlt : r.2.left.length < s.left.length := by
    rw [hnil, hleft]
    exact Nat.succ_pos _
  rw [if_pos hlt, iterate, hstop]

/-- The name of a package, which is not the blank one. -/
theorem packageName_consumes {w : Word} (hk : w.kind = .ident) (hblank : w.text ≠ "_") :
    Consumes [] [w] rest packageName fun i => i.name = w.text := by
  refine .look fun s hs => .before (ident_consumes hk) fun i hi => ?_
  have htext : s.current.token.text = w.text := congrArg Word.text hs.current
  have hnot : (decide (s.current.token.kind = .ident) && s.current.token.text == "_") = false := by
    rw [htext, beq_false_of_ne hblank, Bool.and_false]
  dsimp only
  split
  · next h => exact absurd (hnot.symm.trans h) (by decide)
  · exact .pure hi

end Parse

/-- A source that writes a bean, whose members are taken, declares just that bean. -/
theorem Source.alone_bean {s : Source} {kind : BeanKind} {package bean : String} {ws : List Word}
    {last : Nat} {names : List String} {P : List Member → Prop} (hpackage : package ≠ "_")
    (hnames : names.Nodup)
    (hmembers : ∀ scope, Parse.Consumes (names.map (scope, ·)) ws [.mark .rbrace last]
      (Parse.iterate (Parse.moreMembers kind scope) #[]) fun ms => P ms.toList)
    (hw : Writes 1 s.text.toList (beanWords kind package bean ws last)) :
    s.alone.diagnostics = [] ∧ s.alone.file.filename = s.name ∧ s.alone.file.doc = none ∧
      s.alone.file.name.name = package ∧ ∃ b, s.alone.file.decls = [.bean b] ∧ b.kind = kind ∧
        b.doc = none ∧ b.name.name = bean ∧ b.tag = none ∧ P b.body.members := by
  obtain ⟨herrors, hstart⟩ := s.start_holds hw
  let C (r : File × ParseState) : Prop := r.2.diagnostics = #[] ∧ r.1.filename = s.name ∧
    r.1.doc = none ∧ r.1.name.name = package ∧ ∃ b, r.1.decls = [.bean b] ∧ b.kind = kind ∧
      b.doc = none ∧ b.name.name = bean ∧ b.tag = none ∧ P b.body.members
  have hparsed : C s.parsed := by
    rw [s.parsed_eq]
    refine Parse.takeLead_consumes.enter hstart fun doc t₁ hdoc h₁ q₁ => ?_
    refine (Parse.expect_consumes rfl).enter h₁ fun pos t₂ _ h₂ q₂ => ?_
    refine (Parse.packageName_consumes rfl hpackage).enter h₂ fun i t₃ hi h₃ q₃ => ?_
    refine (Parse.endOfItem_consumes (by simp [headKind])).enter h₃ fun _ t₄ _ h₄ q₄ => ?_
    have himports : Parse.Consumes [] [] (⟨.keyword kind.keyword, kind.keyword.spelling, 1⟩ ::
        .name bean 1 :: .mark .lbrace 1 :: (ws ++ [.mark .rbrace last])) (Parse.declsWhile
          (Parse.check (.keyword .imp))
          (Decl.imports <$> Parse.specGroup Parse.importSpec ()) #[]) (· = #[]) :=
      .stop (.check false (by cases kind <;> rfl) (.pure rfl)) rfl
    refine himports.enter h₄ fun decls t₅ hdecls h₅ q₅ => ?_
    obtain rfl : decls = #[] := hdecls
    have hquiet := (((q₁.trans q₂).trans q₃).trans q₄).trans q₅
    let t₆ : ParseState := { t₅ with declIndex := 0 }
    have hscope : t₆.fileScope < t₆.symbols.scopes.size := by
      show t₅.fileScope < t₅.symbols.scopes.size
      rw [hquiet.fileScope, hquiet.scopes]
      exact Nat.one_pos
    have hfree : t₆.symbols.lookup? t₆.fileScope bean = none := by
      show t₅.symbols.lookup? t₅.fileScope bean = none
      rw [hquiet.fileScope, hquiet.lookup _ _ (by simp)]
      rfl
    have hheld : t₆.Holds (⟨.keyword kind.keyword, kind.keyword.spelling, 1⟩ :: .name bean 1 ::
        .mark .lbrace 1 :: (ws ++ [.mark .rbrace last])) := ⟨h₅.words, h₅.eof, h₅.lead, h₅.bare⟩
    obtain ⟨hend, hdiagnostics, hfile, hb⟩ := Parse.bean_taken hnames hmembers hscope hfree hheld
    have hdecls := Parse.decls_of_single h₅ (show TokenKind.keyword _ = _ from rfl) hend
    rw [Parse.bind_apply, hdecls]
    -- What is left of the file reads nothing, so how the bean was taken no longer matters.
    generalize Parse.bean kind t₆ = taken at hdiagnostics hfile hb ⊢
    have hname : s.start.file.name = s.name := s.alone_source.1
    refine ⟨hdiagnostics.trans (hquiet.diagnostics.trans rfl), ?_, hdoc, hi, _, rfl, hb⟩
    exact (congrArg SourceFile.name (hfile.trans hquiet.file)).trans hname
  obtain ⟨hdiagnostics, hfile⟩ := hparsed
  have hnone : s.alone.diagnostics = [] := by
    show s.scanned.1.errors.map (·.toDiagnostic) ++ s.parsed.2.diagnostics.toList = []
    rw [herrors, hdiagnostics]
    rfl
  exact ⟨hnone, hfile⟩

/-! ### What a bean is lowered to -/

/-- By itself, the member is lowered to the field. -/
structure Member.LowersTo (m : Member) (field : Ir.Field) : Prop where
  named : m.names ≠ []
  lower : ∀ env f, LowerEnv.Bare env f (m.types.flatMap TypeExpr.qualifiedNames) →
    m.lower env f = field

/-- A bean whose members are lowered to fields has just these. -/
theorem Bean.lower_fields {b : Bean} {fields : List Ir.Field}
    (h : List.Forall₂ Member.LowersTo b.body.members fields) (hdoc : b.doc = none)
    (htag : b.tag = none) {env : LowerEnv} {f : File}
    (hbare : env.Bare f (b.types.flatMap TypeExpr.qualifiedNames)) :
    b.lower env f = { kind := b.kind, name := b.name.name, fields } := by
  have hnamed : ∀ m ∈ b.body.members, b.isExtension m = false := by
    intro m hm
    have hnames : m.names ≠ [] := by
      generalize b.body.members = ms at h hm
      induction h with
      | nil => exact (List.not_mem_nil hm).elim
      | cons hm' hms ih =>
        rcases List.mem_cons.1 hm with rfl | hm
        · exact hm'.named
        · exact ih hm
    unfold Bean.isExtension
    rw [List.isEmpty_eq_false_iff.2 hnames, Bool.and_false]
  have hextended : b.body.members.filter b.isExtension = [] :=
    List.filter_eq_nil_iff.2 fun m hm => by rw [hnamed m hm]; decide
  have hkept : (b.body.members.filter fun m => !b.isExtension m) = b.body.members :=
    List.filter_eq_self.2 fun m hm => by rw [hnamed m hm]; rfl
  have hfields : b.body.members.map (Member.lower env f) = fields := by
    have hsub : ∀ m ∈ b.body.members, env.Bare f (m.types.flatMap TypeExpr.qualifiedNames) :=
      fun m hm => hbare.mono fun q hq => by
        obtain ⟨t, ht, hq⟩ := List.mem_flatMap.1 hq
        exact List.mem_flatMap.2 ⟨t, List.mem_flatMap.2 ⟨m, hm, ht⟩, hq⟩
    generalize b.body.members = ms at h hsub
    induction h with
    | nil => rfl
    | cons hm hms ih =>
      rw [List.map_cons, hm.lower env f (hsub _ List.mem_cons_self),
        ih fun m hm => hsub m (List.mem_cons_of_mem _ hm)]
  unfold Bean.lower
  rw [hextended, hkept, hfields, hdoc, htag]
  rfl

/-- Without constants, no name has a value. -/
theorem LowerEnv.constValue?_eq_none {env : LowerEnv}
    (h : ∀ f ∈ env.files, ∀ d ∈ f.decls, ∀ g, d ≠ .consts g) (n : Nat) (f : File) (i : Ident) :
    env.constValue? n f i = none := by
  cases n with
  | zero => rfl
  | succ n =>
    have hspec (o : Origin) : env.constSpec? o = none := by
      cases o with
      | spec file decl spec =>
        unfold constSpec?
        dsimp only
        cases hfile : env.file? file with
        | none => rfl
        | some f =>
          rw [Option.bind_some]
          split
          · next g hg => exact absurd rfl (h f (List.mem_of_find?_eq_some hfile) _
              (List.mem_of_getElem? hg) g)
          · rfl
      | _ => rfl
    unfold constValue?
    cases env.objectOf? f i with
    | none => rfl
    | some o =>
      rw [Option.bind_some, hspec]
      split <;> rfl

/-- In a source that declares a bean and nothing else, linked, nothing stands for anything that lowering
would look up. -/
theorem Source.linked_bean {s : Source} (hroom : FileSet.Admits {} s) {b : Bean}
    (hdecls : s.alone.file.decls = [.bean b]) : ∃ p g, (linkSources [s]).packages.values = [p] ∧
      p.name = s.alone.file.name.name ∧ p.files.values = [g] ∧
      g = { s.alone.file with resolutions := g.resolutions, unresolved := g.unresolved } ∧
      (LowerEnv.ofPackages (linkSources [s]).packages (linkSources [s]).symbols).Bare g
        (b.types.flatMap TypeExpr.qualifiedNames) := by
  have himports : s.alone.file.imports = [] := by
    unfold File.imports
    rw [hdecls]
    rfl
  obtain ⟨p, g, hpackages, hp, hfiles, hg, hqualifiers⟩ := s.linked_single hroom himports
  let env := LowerEnv.ofPackages (linkSources [s]).packages (linkSources [s]).symbols
  have hgdecls : g.decls = [.bean b] := (congrArg File.decls hg).trans hdecls
  have henv : env.files = [g] := by
    show (linkSources [s]).packages.values.flatMap (fun p => p.files.values) = [g]
    rw [hpackages, List.flatMap_singleton, hfiles]
  refine ⟨p, g, hpackages, hp, hfiles, hg, fun q hq => ?_,
    LowerEnv.constValue?_eq_none (fun f hf d hd consts => ?_) _ _⟩
  · have hq : q ∈ g.qualifiedNames := by
      unfold File.qualifiedNames
      rw [hgdecls, List.flatMap_singleton]
      exact hq
    have hnothing : env.objectOf? g q.qualifier = none := hqualifiers q hq
    unfold lowerQualifier
    rw [hnothing]
    rfl
  · rw [henv, List.mem_singleton] at hf
    rw [hf, hgdecls, List.mem_singleton] at hd
    rw [hd]
    exact fun h => nomatch h

/-- A source that writes a bean, whose members are taken and lowered to fields, is parsed without
diagnostics and compiled to just that bean. -/
theorem Source.compile_bean {s : Source} {kind : BeanKind} {package bean : String}
    {ws : List Word} {last : Nat} {names : List String} {fields : List Ir.Field}
    (hroom : FileSet.Admits {} s) (hpackage : package ≠ "_")
    (hnames : names.Nodup)
    (hmembers : ∀ scope, Parse.Consumes (names.map (scope, ·)) ws [.mark .rbrace last]
      (Parse.iterate (Parse.moreMembers kind scope) #[])
        fun ms => List.Forall₂ Member.LowersTo ms.toList fields)
    (hw : Writes 1 s.text.toList (beanWords kind package bean ws last)) :
    (∃ r, parseFile {} {} s.name s.text = .ok r ∧ r.diagnostics = []) ∧
      ∃ unresolved, (compile [s]).ir = ⟨[{
        name := package
        files := [{
          filename := s.name
          package := package
          beans := [{ kind, name := bean, fields }]
          unresolved }] }]⟩ := by
  obtain ⟨hnone, hfilename, hdoc, hname, b, hdecls, rfl, hbdoc, rfl, htag, hfields⟩ :=
    Source.alone_bean (P := fun ms => List.Forall₂ Member.LowersTo ms fields) hpackage hnames
      hmembers hw
  refine ⟨⟨_, s.parseFile_first hroom, hnone⟩, ?_⟩
  obtain ⟨p, g, hpackages, hp, hfiles, hg, hbare⟩ := Source.linked_bean hroom hdecls
  let env := LowerEnv.ofPackages (linkSources [s]).packages (linkSources [s]).symbols
  have hbean := Bean.lower_fields hfields hbdoc htag hbare
  have himported : p.lowerImports = .empty := by
    have hnil : g.imports = [] := by
      unfold File.imports
      rw [(congrArg File.decls hg).trans hdecls]
      rfl
    unfold Package.lowerImports
    rw [hfiles, List.flatMap_singleton, hnil]
    rfl
  refine ⟨g.unresolved.map (·.name), ?_⟩
  show Ir.mk ((linkSources [s]).packages.values.map (Package.lower env)) = _
  rw [hpackages, List.map_singleton, Package.lower, himported, hfiles, List.map_singleton, hp, hname]
  have hfile : g.lower env = {
      filename := s.name
      package := package
      beans := [{ kind := b.kind, name := b.name.name, fields }]
      unresolved := g.unresolved.map (·.name) } := by
    have hgdoc : g.doc = none := (congrArg File.doc hg).trans hdoc
    have hgfilename : g.filename = s.name := (congrArg File.filename hg).trans hfilename
    have hgname : g.name.name = package := (congrArg (·.name.name) hg).trans hname
    unfold File.lower
    rw [(congrArg File.decls hg).trans hdecls, hgdoc, hgfilename, hgname, ← hbean]
    rfl
  rw [hfile]

end Idl
