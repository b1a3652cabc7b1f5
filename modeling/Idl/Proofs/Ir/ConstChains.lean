/-
Idl/Proofs/Ir/ConstChains.lean

Chains of constants.

A name may stand for a constant whose value is a name in turn, which stands for a constant of another
file, perhaps of another package.  `LowerEnv.ConstChain` says what such a chain is, step by step, by what
the files of a compilation declare and what their names stand for.  Following a chain for at most `n`
constants finds the number at its end just where there is a chain of at most `n` constants
(`LowerEnv.Traceable.constValue?_eq_some`), by induction on `n`: each step looks up what the name stands
for, in the file in which it stands, and finds the declaration by where the object says that it is.

That this is so in every compilation is `compile_traceable`.
-/
import Idl.Proofs.Ir.Targets
import Idl.Proofs.Objects
import Idl.Proofs.Reordering.Lowering
import Idl.Proofs.Token.Integers

namespace Idl

/-! ### Chains -/

namespace LowerEnv

/-- The identifier of `f` stands for the constant of `f'`: for the object that is declared there. -/
structure StandsFor (env : LowerEnv) (f : File) (i : Ident) (f' : File) (spec : ConstSpec) : Prop where
  file : f' ∈ env.files
  declared : ∃ group, Decl.consts group ∈ f'.decls ∧ spec ∈ group.specs
  object : ∃ o, env.objectOf? f i = some o ∧ env.objectOf? f' spec.name = some o

/-- A chain of `k` constants from the one that the identifier of `f` stands for to one whose value is an
integer literal that denotes `n`.  The value of each of them, its own or that of the constant before it,
stands in the file that declares it. -/
inductive ConstChain (env : LowerEnv) (n : Nat) : Nat → File → Ident → Prop
  | last {f f' : File} {i : Ident} {spec : ConstSpec} {l : Lit} (h : env.StandsFor f i f' spec)
    (hvalue : spec.value = some (.lit l)) (hkind : l.kind = .int)
    (hdenotes : DenotesInt l.text.toList n) : ConstChain env n 1 f i
  | next {k : Nat} {f f' : File} {i j : Ident} {spec : ConstSpec} (h : env.StandsFor f i f' spec)
    (hvalue : spec.value = some (.ident j)) (hrest : ConstChain env n k f' j) :
    ConstChain env n (k + 1) f i

/-- A name that a constant has as its value is one that the file uses. -/
theorem StandsFor.reference {env : LowerEnv} {f f' : File} {i j : Ident} {spec : ConstSpec}
    (h : env.StandsFor f i f' spec) (hvalue : spec.value = some (.ident j)) : j ∈ f'.references := by
  obtain ⟨group, hgroup, hspec⟩ := h.declared
  refine List.mem_flatMap.2 ⟨_, hgroup, List.mem_filterMap.2 ⟨spec, hspec, ?_⟩⟩
  unfold ConstSpec.reference?
  rw [hvalue]

theorem ConstChain.pos {env : LowerEnv} {n k : Nat} {f : File} {i : Ident}
    (h : env.ConstChain n k f i) : 1 ≤ k := by
  cases h with
  | last => exact Nat.le_refl 1
  | next => exact Nat.le_add_left ..

/-- What following chains rests on. -/
structure Traceable (env : LowerEnv) : Prop where
  /-- A file is found by its number. -/
  numbered : ∀ f ∈ env.files, env.file? f.id = some f
  /-- A declaring identifier stands for what it declares. -/
  declares : ∀ f ∈ env.files, ∀ x ∈ f.declares, env.objectOf? f x.1 = some x.2
  /-- What a name stands for is declared by one of the files. -/
  declared : ∀ f ∈ env.files, ∀ i ∈ f.references, ∀ o, env.objectOf? f i = some o →
    ∃ f' ∈ env.files, ∃ j, (j, o) ∈ f'.declares
  /-- Integer literals have no signs. -/
  unsigned : ∀ f ∈ env.files, ∀ group, .consts group ∈ f.decls → ∀ spec ∈ group.specs,
    ∀ l, spec.value = some (.lit l) → l.kind = .int → '+' ∉ l.text.toList

namespace Traceable

variable {env : LowerEnv} (h : env.Traceable) {f f' : File} {i : Ident} {spec : ConstSpec}
include h

/-- A constant is found where its object says that it is declared. -/
theorem constSpec?_object (hf : f ∈ env.files) {group : SpecGroup ConstSpec} {d k : Nat}
    (hd : f.decls[d]? = some (.consts group)) (hk : group.specs[k]? = some spec) :
    env.constSpec? (spec.object f.id d k).origin = some (f, spec) := by
  show (env.file? f.id).bind _ = _
  rw [h.numbered f hf, Option.bind_some, hd]
  dsimp only
  rw [hk]
  rfl

/-- What is found leads to a constant just where the identifier stands for one. -/
theorem standsFor_iff (hf : f ∈ env.files) (hi : i ∈ f.references) :
    env.StandsFor f i f' spec ↔
      ∃ o, env.objectOf? f i = some o ∧ o.kind = .const ∧ env.constSpec? o.origin = some (f', spec) := by
  constructor
  · rintro ⟨hf', ⟨group, hgroup, hspec⟩, o, ho, hname⟩
    obtain ⟨d, hd⟩ := List.mem_iff_getElem?.1 hgroup
    obtain ⟨k, hk⟩ := List.mem_iff_getElem?.1 hspec
    have hdeclares : (spec.name, spec.object f'.id d k) ∈ f'.declares := by
      refine List.mem_flatMap.2 ⟨(.consts group, d), List.mem_zipIdx_iff_getElem?.2 hd, ?_⟩
      exact List.mem_map.2 ⟨(spec, k), List.mem_zipIdx_iff_getElem?.2 hk, rfl⟩
    -- the name of the constant stands for what is declared there, and so does the identifier
    obtain rfl : o = spec.object f'.id d k :=
      Option.some.inj (hname.symm.trans (h.declares f' hf' _ hdeclares))
    exact ⟨_, ho, rfl, h.constSpec?_object hf' hd hk⟩
  · rintro ⟨o, ho, -, hspec⟩
    obtain ⟨g, hg, j, hj⟩ := h.declared f hf i hi o ho
    have hname := h.declares g hg _ hj
    obtain ⟨⟨decl, d⟩, hd, hj⟩ := List.mem_flatMap.1 hj
    have hd : g.decls[d]? = some decl := List.mem_zipIdx_iff_getElem?.1 hd
    cases decl with
    | consts group =>
      obtain ⟨⟨s, k⟩, hk, heq⟩ := List.mem_map.1 hj
      obtain ⟨rfl, rfl⟩ := Prod.mk.inj heq
      have hk : group.specs[k]? = some s := List.mem_zipIdx_iff_getElem?.1 hk
      obtain ⟨rfl, rfl⟩ := Prod.mk.inj (Option.some.inj ((h.constSpec?_object hg hd hk).symm.trans hspec))
      exact ⟨hg, ⟨group, List.mem_of_getElem? hd, List.mem_of_getElem? hk⟩, _, ho, hname⟩
    | bean b =>
      -- a bean or a member of one is no constant of a group
      rcases List.mem_cons.1 hj with heq | hj
      · obtain ⟨-, rfl⟩ := Prod.mk.inj heq
        cases hspec
      · obtain ⟨m, -, hj⟩ := List.mem_flatMap.1 hj
        obtain ⟨x, -, heq⟩ := List.mem_map.1 hj
        obtain ⟨-, rfl⟩ := Prod.mk.inj heq
        cases hspec
    | _ => cases hj

/-- One step along a chain. -/
theorem constValue?_succ (n : Nat) (hf : f ∈ env.files) (hi : i ∈ f.references) {v : UInt64} :
    env.constValue? (n + 1) f i = some v ↔ ∃ f' spec, env.StandsFor f i f' spec ∧
      ((∃ l, spec.value = some (.lit l) ∧ l.kind = .int ∧ DenotesInt l.text.toList v.toNat) ∨
        ∃ j, spec.value = some (.ident j) ∧ env.constValue? n f' j = some v) := by
  have hlit {f' : File} {spec : ConstSpec} (hstands : env.StandsFor f i f' spec) {l : Lit}
      (hvalue : spec.value = some (.lit l)) (hkind : l.kind = .int) :
      intLiteral? l.text = some v ↔ DenotesInt l.text.toList v.toNat := by
    obtain ⟨group, hgroup, hspec⟩ := hstands.declared
    exact intLiteral?_eq_some (h.unsigned f' hstands.file group hgroup spec hspec l hvalue hkind)
  rw [constValue?]
  constructor
  · intro hv
    obtain ⟨o, ho, hv⟩ := Option.bind_eq_some_iff.1 hv
    split at hv
    · next hconst =>
      obtain ⟨⟨f', spec⟩, hspec, hv⟩ := Option.bind_eq_some_iff.1 hv
      have hstands := (h.standsFor_iff hf hi).2 ⟨o, ho, hconst, hspec⟩
      refine ⟨f', spec, hstands, ?_⟩
      dsimp only at hv
      split at hv
      · next hvalue => exact .inl ⟨_, hvalue, rfl, (hlit hstands hvalue rfl).1 hv⟩
      · next j hvalue => exact .inr ⟨j, hvalue, hv⟩
      · cases hv
    · cases hv
  · rintro ⟨f', spec, hstands, hend⟩
    obtain ⟨o, ho, hconst, hspec⟩ := (h.standsFor_iff hf hi).1 hstands
    rw [ho, Option.bind_some, if_pos hconst, hspec, Option.bind_some]
    dsimp only
    rcases hend with ⟨⟨p, kind, text⟩, hvalue, rfl, hdenotes⟩ | ⟨j, hvalue, hv⟩
    · rw [hvalue]
      exact (hlit hstands hvalue rfl).2 hdenotes
    · rw [hvalue]
      exact hv

/-- Following a chain for at most `n` constants finds the number at the end of a chain that is not longer,
and nothing else.  By induction on `n`, for all files at once, since a chain passes from file to file. -/
theorem constValue?_eq_some (n : Nat) (hf : f ∈ env.files) (hi : i ∈ f.references) {v : UInt64} :
    env.constValue? n f i = some v ↔ ∃ k ≤ n, env.ConstChain v.toNat k f i := by
  induction n generalizing f i with
  | zero =>
    refine iff_of_false nofun ?_
    rintro ⟨k, hk, hchain⟩
    exact absurd hchain.pos (Nat.not_le.2 (Nat.lt_succ_of_le hk))
  | succ n ih =>
    rw [h.constValue?_succ n hf hi]
    constructor
    · rintro ⟨f', spec, hstands, ⟨l, hvalue, hkind, hdenotes⟩ | ⟨j, hvalue, hv⟩⟩
      · exact ⟨1, Nat.le_add_left 1 n, .last hstands hvalue hkind hdenotes⟩
      · obtain ⟨k, hk, hchain⟩ := (ih hstands.file (hstands.reference hvalue)).1 hv
        exact ⟨k + 1, Nat.succ_le_succ hk, .next hstands hvalue hchain⟩
    · rintro ⟨k, hk, hchain⟩
      cases hchain with
      | last hstands hvalue hkind hdenotes =>
        exact ⟨_, _, hstands, .inl ⟨_, hvalue, hkind, hdenotes⟩⟩
      | next hstands hvalue hrest =>
        refine ⟨_, _, hstands, .inr ⟨_, hvalue, ?_⟩⟩
        exact (ih hstands.file (hstands.reference hvalue)).2 ⟨_, Nat.le_of_succ_le_succ hk, hrest⟩

end Traceable

end LowerEnv

/-! ### Literals of constants -/

/-- A literal of a source is one of its tokens. -/
theorem Source.lit_token (s : Source) {l : Lit} (hl : l ∈ s.account.lits) :
    ∃ t ∈ s.scanned.1.allTokens, t.kind.litKind? = some l.kind ∧ t.text = l.text := by
  obtain ⟨-, index, t, ht, -⟩ := s.told
  obtain ⟨tr, r, htr⟩ := ht.run
  obtain ⟨a, ha, hlit⟩ := List.mem_filterMap.1 (htr.lits.subset hl)
  cases a with
  | take t =>
    obtain ⟨k, hk, rfl⟩ := Option.map_eq_some_iff.1 hlit
    refine ⟨t, ?_, hk, rfl⟩
    have hmem : t ∈ s.start.tokens := by
      rw [r.tokens]
      exact List.mem_append_left _ (List.mem_filterMap.2 ⟨_, ha, rfl⟩)
    obtain ⟨htokens, hne, -⟩ := significant_allTokens s.scanned.2.lineOf s.registered.base s.text
    have hstart : s.start.tokens = s.tokens.map (·.token) := ParseState.tokens_start _ _ _ _ hne
    have hkept : t ∈ s.scanned.1.allTokens.filter _ := htokens ▸ hstart ▸ hmem
    exact (List.mem_filter.1 hkept).1
  | _ => cases hlit

/-- Integer literals of a source have no signs. -/
theorem Source.plus_not_mem (s : Source) {l : Lit} (hl : l ∈ s.account.lits) (hkind : l.kind = .int) :
    '+' ∉ l.text.toList := by
  obtain ⟨t, ht, hlit, htext⟩ := s.lit_token hl
  have hint : t.kind = .int := by
    rw [hkind] at hlit
    cases h : t.kind <;> rw [h] at hlit <;> first | rfl | cases hlit
  rcases List.mem_append.1 ht with ht | ht
  · obtain ⟨u, hu, rfl⟩ := List.mem_map.1 ht
    obtain ⟨p, c, cs, rfl⟩ := exists_read hu
    have hscan : (scan c cs).kind = .int := hint
    have hspelling : l.text = String.ofList (tokenText (scan c cs).kind (c :: cs.take (scan c cs).more)) :=
      htext.symm
    rw [hspelling, tokenText_of_ne (by rw [hscan]; decide), String.toList_ofList]
    exact plus_not_mem_int hscan
  · rw [List.mem_singleton.1 ht] at hint
    cases hint

/-- The value of a constant is told of, unless it is that of the constant before it. -/
theorem mem_lits_consts {outer : ScopeId} {file : FileId} {decl k : Nat} {previous : Option Value}
    {first : Option Pos} {ss : List ConstSpec} {spec : ConstSpec} (hspec : spec ∈ ss) {l : Lit}
    (hvalue : spec.value = some (.lit l)) : previous = some (.lit l) ∨
      l ∈ (constsAccount outer file decl k previous first ss).lits := by
  induction ss generalizing k previous first with
  | nil => cases hspec
  | cons s ss ih =>
    have hhead : s.value = some (.lit l) → previous = some (.lit l) ∨
        l ∈ (s.account outer file decl k previous first).lits := by
      intro hv
      by_cases hsame : previous = some (.lit l)
      · exact .inl hsame
      · refine .inr ?_
        simp [ConstSpec.account, constValueAccount, hv, hsame, Value.ownAccount, Value.account]
    rw [constsAccount, Account.lits_append, List.mem_append, ← or_assoc]
    rcases List.mem_cons.1 hspec with rfl | hspec
    · exact .inl (hhead hvalue)
    · rcases ih hspec with hv | hmem
      · exact .inl (hhead hv)
      · exact .inr hmem

/-- The values of the constants of a file are told of. -/
theorem File.mem_lits (f : File) (scope : ScopeId) {group : SpecGroup ConstSpec}
    (hgroup : .consts group ∈ f.decls) {spec : ConstSpec} (hspec : spec ∈ group.specs) {l : Lit}
    (hvalue : spec.value = some (.lit l)) : l ∈ (f.account scope).lits := by
  have hdecls {ds : List Decl} (hds : .consts group ∈ ds) (scope : ScopeId) (k : Nat) :
      l ∈ (declsAccount f.scope scope f.id k ds).lits := by
    induction ds generalizing scope k with
    | nil => cases hds
    | cons d ds ih =>
      rw [declsAccount, Account.lits_append, List.mem_append]
      rcases List.mem_cons.1 hds with rfl | hds
      · exact .inl ((mem_lits_consts hspec hvalue).resolve_left (Option.some_ne_none _).symm)
      · exact .inr (ih hds _ _)
  unfold File.account
  rw [Account.lits_append]
  exact List.mem_append_right _ (hdecls hgroup scope 0)

/-! ### Compilations -/

section Compiled

variable (sources : List Source)

/-- Whatever a name means is declared by a file. -/
theorem File.mem_of_meaning? {fs : List File} {g : File} {name : String} {o : Object}
    (h : g.meaning? fs name = some o) : o ∈ g.declarations ∨ ∃ f ∈ fs, o ∈ f.declarations := by
  have hpackage {n : String} (ho : declarationOf? fs n name = some o) :
      ∃ f ∈ fs, o ∈ f.declarations := by
    obtain ⟨f, hf, ho⟩ := List.mem_flatMap.1 (List.mem_filter.1 (List.argmin_mem ho)).1
    exact ⟨f, (mem_filesOf.1 hf).1, ho⟩
  rcases Option.or_eq_some_iff.1 h with ho | ⟨-, ho⟩
  · exact .inl (File.declaration?_eq_some ho).2
  rcases Option.or_eq_some_iff.1 ho with ho | ⟨-, ho⟩
  · exact .inr (hpackage ho)
  · obtain ⟨spec, -, ho⟩ := List.exists_of_findSome?_eq_some ho
    split at ho
    · obtain ⟨id, -, ho⟩ := Option.bind_eq_some_iff.1 ho
      exact .inr (hpackage ho)
    · cases ho

/-- A constant or bean of a file is declared by an identifier of it. -/
theorem File.exists_declares_of_mem {f : File} {o : Object} (h : o ∈ f.declarations) :
    ∃ j, (j, o) ∈ f.declares := by
  obtain ⟨⟨d, k⟩, hd, ho⟩ := List.mem_flatMap.1 h
  cases d with
  | consts group =>
    obtain ⟨s, hs, rfl⟩ := List.mem_map.1 ho
    exact ⟨_, List.mem_flatMap.2 ⟨_, hd, List.mem_map.2 ⟨s, hs, rfl⟩⟩⟩
  | bean b =>
    obtain rfl := List.mem_singleton.1 ho
    exact ⟨_, List.mem_flatMap.2 ⟨_, hd, List.mem_cons_self⟩⟩
  | _ => cases ho

/-- Chains can be followed in every compilation. -/
theorem compile_traceable (h : DistinctNames (parseSources sources).parsed) :
    (compile sources).env.Traceable := by
  obtain ⟨scopes, m, hrun⟩ := linkSources_run sources
  constructor
  · exact fun f hf => loweringEnv_file? hf
  · intro f hf x hx
    obtain ⟨p, hp, hf⟩ := List.mem_flatMap.1 hf
    obtain ⟨n, hn⟩ := NameMap.mem_values.1 hp
    obtain ⟨y, hy⟩ := NameMap.mem_values.1 hf
    obtain ⟨id, hid, ho⟩ := (linkSources_bound sources hn hy).declares x hx
    show (f.resolutions.get? x.1.id).bind _ = _
    rw [hid]
    exact ho
  · intro f hf i hi o ho
    obtain ⟨p, hp, hf⟩ := List.mem_flatMap.1 hf
    -- what the name stands for is what it means, and meanings are declared
    obtain ⟨f₀, hf₀, refs, j, hk, -, rfl, hsettled, -⟩ := hrun.settled h hp hf
    have hmeaning : (linkedFile m scopes p.imports j f₀).meaning? (parseSources sources).parsed
        i.name = some o := by
      cases hb : i.isBlank with
      | true =>
        have hnone : (linkSources sources).objectOf? (linkedFile m scopes p.imports j f₀) i = none :=
          Linked.Run.blank_reference hk hi hb
        exact absurd (hnone.symm.trans ho) nofun
      | false => exact (hsettled i hi hb).1.symm.trans ho
    -- what a parsed file declares is declared by the file that it is linked as
    have hlinked {g : File} (hg : g ∈ (parseSources sources).parsed) (hmem : o ∈ g.declarations) :
        ∃ g' ∈ (compile sources).env.files, ∃ j, (j, o) ∈ g'.declares := by
      obtain ⟨q, k, hq, -, -, -, hfile⟩ := hrun.linked h hg
      refine ⟨_, List.mem_flatMap.2 ⟨q, NameMap.mem_values.2 ⟨_, hq⟩, NameMap.mem_values.2 ⟨_, hfile⟩⟩, ?_⟩
      exact File.exists_declares_of_mem hmem
    rcases File.mem_of_meaning? hmeaning with hmem | ⟨g, hg, hmem⟩
    · exact hlinked hf₀ hmem
    · exact hlinked hg hmem
  · intro f hf group hgroup spec hspec l hvalue hkind
    obtain ⟨p, hp, hf⟩ := List.mem_flatMap.1 hf
    obtain ⟨f₀, hf₀, -, _, _, rfl⟩ := exists_parsed hp hf
    obtain ⟨s, ρ, hs, rfl⟩ := mem_parsed hf₀
    -- the file is a source that is placed, and its literals stay what they are
    obtain ⟨d, hd, hplaced⟩ := List.mem_map.1 hgroup
    cases d with
    | consts written =>
      obtain rfl := Decl.consts.inj hplaced
      obtain ⟨spec, hwritten, rfl⟩ := List.mem_map.1 hspec
      obtain ⟨v, hv, hlit⟩ := Option.map_eq_some_iff.1 hvalue
      cases v with
      | lit l =>
        obtain rfl := Value.lit.inj hlit
        have hmem : l ∈ s.account.lits := s.alone.file.mem_lits 1 hd hwritten hv
        have hplus : '+' ∉ l.text.toList := s.plus_not_mem hmem hkind
        exact hplus
      | _ => cases hlit
    | _ => cases hplaced

end Compiled

end Idl
