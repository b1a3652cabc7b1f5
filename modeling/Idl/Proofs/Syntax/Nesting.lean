/-
Idl/Proofs/Syntax/Nesting.lean

How deep the types of parsed files nest.

Each container spends one of the levels that a type starts with, and where none is left a bad type
stands in (`typeNested_nesting`).  Nothing else makes types, so whatever the tokens and whatever
the state, no type in an answer of the grammar nests deeper than the parser allows.  Linking leaves
declarations as they are.

Main result: all types in linked files nest within the bound (`linkSources_shallow`).
-/
import Idl.Proofs.Meaning

namespace Idl

/-! ### Types within the bound -/

/-- The number of containers around the innermost type. -/
def TypeExpr.nesting : TypeExpr → Nat
  | .array _ elem _ _ => elem.nesting + 1
  | .vector _ elem _ => elem.nesting + 1
  | .map _ key value _ => max key.nesting value.nesting + 1
  | _ => 0

/-- A type that nests within the bound of the parser. -/
def TypeExpr.Shallow (t : TypeExpr) : Prop := t.nesting ≤ maxTypeNesting

/-- All types in a member nest within the bound. -/
def Member.Shallow (m : Member) : Prop := ∀ t ∈ m.types, t.Shallow

/-- All types in the members of a bean nest within the bound. -/
def Bean.Shallow (b : Bean) : Prop := ∀ m ∈ b.body.members, m.Shallow

/-- All types in a declaration nest within the bound; only beans have any. -/
def Decl.Shallow (d : Decl) : Prop := ∀ b, d = .bean b → b.Shallow

/-- All types in a file nest within the bound. -/
def File.Shallow (f : File) : Prop := ∀ d ∈ f.decls, d.Shallow

namespace Parse

variable {α β : Type}

/-! ### Answers that do not depend on the state -/

/-- Whatever the state, the answer of the step has the property. -/
def Yields (m : Parse α) (p : α → Prop) : Prop := ∀ s, p (m s).1

namespace Yields

variable {m : Parse α} {f : α → Parse β} {p : α → Prop} {q : β → Prop}

protected theorem bind (hm : Yields m p) (hf : ∀ a, p a → Yields (f a) q) : Yields (m >>= f) q :=
  fun s => hf (m s).1 (hm s) (m s).2

/-- A step whose answer does not matter. -/
protected theorem after (hf : ∀ a, Yields (f a) q) : Yields (m >>= f) q :=
  fun s => hf (m s).1 (m s).2

protected theorem pure {a : α} (h : p a) : Yields (pure a) p := fun _ => h

protected theorem map {g : α → β} (hm : Yields m fun a => q (g a)) : Yields (g <$> m) q := hm

protected theorem ite {c : Prop} [Decidable c] {m' : Parse α} (h : Yields m p) (h' : Yields m' p) :
    Yields (if c then m else m') p := by
  split
  · exact h
  · exact h'

/-- What each repetition keeps, all of them keep. -/
protected theorem iterate {step : α → Parse (Option α)}
    (h : ∀ a, p a → Yields (step a) fun r => p (r.getD a)) {a : α} (ha : p a) :
    Yields (iterate step a) p := by
  intro s
  fun_induction iterate step a s with
  | case1 a s t hstep => exact ha
  | case2 a s a' t hstep hlt ih =>
    have := h a ha s
    rw [hstep] at this
    exact ih this
  | case3 a s a' t hstep hlt =>
    have := h a ha s
    rw [hstep] at this
    exact this

end Yields

/-! ### Types -/

theorem typeNested_nesting (levels : Nat) : Yields (typeNested levels) fun t => t.nesting ≤ levels := by
  induction levels with
  | zero =>
    refine .after fun t => .ite ?_ ?_
    · exact .after fun _ => .pure (Nat.le_refl _)
    · exact .after fun _ => .pure (Nat.le_refl _)
  | succ levels ih =>
    have hleaf : 0 ≤ levels + 1 := Nat.zero_le _
    refine .after fun b => .ite (.after fun p => .after fun _ => .pure hleaf) ?_
    refine .after fun name => .after fun b => .ite (.after fun _ => .after fun _ => .pure hleaf) ?_
    split
    · exact .pure hleaf
    · refine .after fun _ => ih.bind fun key hkey => .after fun _ => ih.bind fun value hvalue => ?_
      exact .after fun _ => .pure (Nat.succ_le_succ (Nat.max_le.2 ⟨hkey, hvalue⟩))
    · refine .after fun _ => ih.bind fun elem helem => .after fun _ => .after fun size => ?_
      exact .after fun _ => .pure (Nat.succ_le_succ helem)
    · refine .after fun _ => ih.bind fun elem helem => ?_
      exact .after fun _ => .pure (Nat.succ_le_succ helem)
    · exact .pure hleaf

theorem typeExpr_shallow : Yields typeExpr TypeExpr.Shallow := typeNested_nesting _

theorem param_shallow (sofar : ParamsSoFar) (h : ∀ p ∈ sofar.params.toList, p.type.Shallow) :
    Yields (param sofar) fun r => ∀ p ∈ (r.getD sofar).params.toList, p.type.Shallow := by
  refine .after fun b => .after fun e => .ite (.pure h) ?_
  refine typeExpr_shallow.bind fun type htype => .after fun k => ?_
  have hpush (name : Option Ident) : ∀ p ∈ (sofar.params.push ⟨type, name⟩).toList,
      p.type.Shallow := by
    rw [Array.toList_push]
    exact List.forall_mem_append.2 ⟨h, List.forall_mem_singleton.2 htype⟩
  split
  · refine .after fun name => .after fun b => .ite (.after fun _ => .pure (hpush _)) (.pure (hpush _))
  · exact .after fun _ => .pure (hpush _)
  · exact .pure (hpush _)
  · exact .after fun t => .after fun _ => .pure (hpush _)

theorem paramList_shallow : Yields paramList fun l => ∀ p ∈ l.params, p.type.Shallow := by
  refine .after fun _ => .bind (.iterate param_shallow (a := {}) (by simp)) fun sofar hsofar => ?_
  split
  · exact .pure hsofar
  · exact .after fun _ => .pure hsofar

theorem methodResult_shallow (openLine : Nat) :
    Yields (methodResult openLine) fun r => ∀ t ∈ r, t.Shallow := by
  refine .after fun _ => .after fun _ => .after fun _ => .ite ?_ (.pure (by simp))
  exact typeExpr_shallow.bind fun t ht => .pure (by simpa using ht)

theorem signature_shallow : Yields signature fun s => ∀ t ∈ (MemberType.func s).types, t.Shallow := by
  refine .after fun l => paramList_shallow.bind fun params hparams => ?_
  refine (methodResult_shallow l).bind fun result hresult => .pure ?_
  refine List.forall_mem_append.2 ⟨List.forall_mem_map.2 hparams, fun t ht => hresult t ?_⟩
  exact Option.mem_toList.1 ht

/-! ### Members -/

theorem Member.shallow_of_type {m : Member} (h : ∀ t ∈ m.type, ∀ u ∈ t.types, u.Shallow) :
    m.Shallow := fun t ht => by
  obtain ⟨type, htype, ht⟩ := List.mem_flatMap.1 ht
  exact h type (Option.mem_toList.1 htype) t ht

theorem typeAndNames_shallow : Yields typeAndNames fun r => r.1.Shallow := by
  refine .after fun _ => .ite ?_ ?_
  · exact .after fun _ => typeExpr_shallow.bind fun t ht => .pure ht
  · exact typeExpr_shallow.bind fun t ht => .after fun _ => .pure ht

theorem field_shallow (scope : ScopeId) (i : Nat) : Yields (field scope i) Member.Shallow := by
  refine .after fun doc => .after fun options => typeAndNames_shallow.bind fun p hp => ?_
  refine .after fun tag => .after fun _ => .after fun comment => .after fun origin => ?_
  refine .after fun _ => .after fun _ => .pure (Member.shallow_of_type ?_)
  simpa [MemberType.types] using hp

theorem nameAndType_shallow : Yields nameAndType fun r => ∀ t ∈ r.2.types, t.Shallow := by
  refine typeExpr_shallow.bind fun first hfirst => .after fun opens => ?_
  split
  · exact signature_shallow.bind fun s hs => .pure hs
  · exact .pure (by simpa [MemberType.types] using hfirst)

theorem method_shallow (scope : ScopeId) (i : Nat) : Yields (method scope i) Member.Shallow := by
  refine .after fun doc => nameAndType_shallow.bind fun p hp => .after fun _ => .after fun comment => ?_
  refine .after fun origin => .after fun _ => .after fun _ => .pure (Member.shallow_of_type ?_)
  simpa using hp

theorem enumerator_shallow (scope : ScopeId) (i : Nat) :
    Yields (enumerator scope i) Member.Shallow := by
  refine .after fun doc => .after fun name => .after fun _ => .after fun value => .after fun _ => ?_
  refine .after fun comment => .after fun origin => .after fun _ => .pure (Member.shallow_of_type ?_)
  simp

theorem member?_shallow (kind : BeanKind) (scope : ScopeId) (i : Nat) :
    Yields (member? kind scope i) fun r => ∀ m ∈ r, m.Shallow := by
  have hsome {m : Parse Member} (h : Yields m Member.Shallow) :
      Yields (some <$> m) fun r => ∀ m ∈ r, m.Shallow :=
    .map fun s => by simpa using h s
  refine .after fun t => ?_
  split
  case h_1 => exact hsome (method_shallow scope i)
  case h_2 => exact hsome (enumerator_shallow scope i)
  case h_11 => exact .pure (by simp)
  all_goals exact hsome (field_shallow scope i)

/-! ### Declarations and files -/

theorem bean_shallow (kind : BeanKind) : Yields (bean kind) Bean.Shallow := by
  refine .after fun doc => .after fun start => .after fun name => .after fun tag => .after fun s => ?_
  refine .after fun _ => .after fun opening => ?_
  let I (members : Array Member) : Prop := ∀ m ∈ members.toList, m.Shallow
  refine Yields.bind (p := I) (.iterate (fun members hmembers => ?_) (by simp [I]))
    fun members hmembers => ?_
  · refine (member?_shallow kind _ members.size).bind fun r hr => .pure ?_
    cases r with
    | none => exact hmembers
    | some m =>
      show ∀ x ∈ (members.push m).toList, x.Shallow
      rw [Array.toList_push]
      exact List.forall_mem_append.2 ⟨hmembers, List.forall_mem_singleton.2 (hr m rfl)⟩
  · exact .after fun closing => .after fun s => .after fun _ => .pure hmembers

theorem decl_shallow : Yields decl Decl.Shallow := by
  have hbean (kind : BeanKind) : Yields (do return Decl.bean (← bean kind)) Decl.Shallow :=
    (bean_shallow kind).bind fun b hb => .pure fun b' h => Decl.bean.inj h ▸ hb
  refine .after fun k => ?_
  split
  · exact .after fun g => .pure fun b h => by cases h
  · exact hbean .struct
  · exact hbean .protocol
  · exact hbean .service
  · exact hbean .enum
  · exact .after fun _ => .after fun _ => .after fun _ => .after fun _ => .pure fun b h => by cases h

theorem declsWhile_shallow {more : Parse Bool} {one : Parse Decl} (hone : Yields one Decl.Shallow)
    {decls : Array Decl} (h : ∀ d ∈ decls.toList, d.Shallow) :
    Yields (declsWhile more one decls) fun decls => ∀ d ∈ decls.toList, d.Shallow := by
  refine .iterate (fun decls hdecls => ?_) h
  refine .after fun b => .ite (.after fun _ => hone.bind fun d hd => .pure ?_) (.pure hdecls)
  rw [Option.getD_some, Array.toList_push]
  exact List.forall_mem_append.2 ⟨hdecls, List.forall_mem_singleton.2 hd⟩

theorem file_shallow (comments : List CommentGroup) : Yields (file comments) File.Shallow := by
  refine .after fun doc => .after fun packagePos => .after fun name => .after fun _ => ?_
  have himport : Yields (Decl.imports <$> specGroup importSpec ()) Decl.Shallow :=
    .map fun s b h => by cases h
  refine (declsWhile_shallow himport (by simp)).bind fun imports himports => ?_
  refine (declsWhile_shallow decl_shallow himports).bind fun decls hdecls => ?_
  exact .after fun unresolved => .after fun s => .pure hdecls

end Parse

/-! ### Parsed and linked files -/

theorem parseFile_shallow {files : FileSet} {symbols : SymbolTable} {name source : String}
    {r : ParseResult} (h : parseFile files symbols name source = .ok r) : r.file.Shallow := by
  unfold parseFile at h
  cases hadd : files.addFile name none source.utf8ByteSize with
  | error e =>
    rw [hadd] at h
    cases h
  | ok added =>
    simp only [hadd, bind, Except.bind] at h
    split at h
    · rw [← Except.ok.inj h]
      exact Parse.file_shallow _ _
    · cases h

theorem parseSources_shallow (sources : List Source) :
    ∀ f ∈ (parseSources sources).parsed, f.Shallow := by
  refine List.foldlRecOn (motive := fun p : ParsedSources => ∀ f ∈ p.parsed, f.Shallow) sources _
    (by simp) fun p hp s _ => ?_
  unfold ParsedSources.add
  split
  · next r hr =>
    exact List.forall_mem_append.2 ⟨hp, List.forall_mem_singleton.2 (parseFile_shallow hr)⟩
  · exact hp

/-- Linking leaves the types of files as they are. -/
theorem linkSources_shallow (sources : List Source) :
    ∀ p ∈ (linkSources sources).packages.values, ∀ f ∈ p.files.values, f.Shallow := by
  intro p hp f hf
  obtain ⟨f₀, hf₀, -, r, u, rfl⟩ := exists_parsed hp hf
  exact parseSources_shallow sources f₀ hf₀

end Idl
