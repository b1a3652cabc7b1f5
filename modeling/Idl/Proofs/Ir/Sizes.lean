/-
Idl/Proofs/Ir/Sizes.lean

Where the sizes of arrays stand.

A size that is not missing is a token, a number or a name, and stands where that token stands.  While a
file is parsed, the sizes that come up belong to tokens that are taken one behind the other
(`Parse.Since`), so no two sizes of a file stand at one place.

Main result: the sizes of a file stand behind one another, within the file (`Source.sizePlaces`).
-/
import Idl.Proofs.Ir.Clean
import Idl.Proofs.Syntax.Members

namespace Idl

/-! ### Places of sizes -/

/-- Where the size of an array stands, unless it is missing. -/
def Value.place? : Value → Option Pos
  | .bad _ => none
  | .ident i => some i.pos
  | .lit l => some l.pos

/-- Where the sizes of the arrays in a type stand. -/
def TypeExpr.sizePlaces (t : TypeExpr) : List Pos := t.sizes.filterMap Value.place?

/-- Where the sizes of the arrays in a member stand. -/
def Member.sizePlaces (m : Member) : List Pos := m.types.flatMap TypeExpr.sizePlaces

/-- Where the sizes of the arrays in a bean stand. -/
def Bean.sizePlaces (b : Bean) : List Pos := b.body.members.flatMap Member.sizePlaces

theorem File.filterMap_sizes (f : File) : f.sizes.filterMap Value.place? =
    (f.decls.filterMap Decl.bean?).flatMap Bean.sizePlaces := by
  unfold File.sizes
  rw [List.filterMap_flatMap]
  refine List.flatMap_congr fun b _ => ?_
  show List.filterMap Value.place? (b.types.flatMap TypeExpr.sizes) = b.sizePlaces
  unfold Bean.types
  rw [List.filterMap_flatMap, List.flatMap_assoc]
  rfl

namespace Parse

variable {α β : Type} {s₀ : ParseState} {ps : List Pos}

/-! ### Tokens at places -/

/-- Since `s₀`, tokens at the places `ps` are taken, in this order. -/
structure Since (s₀ : ParseState) (ps : List Pos) (s : ParseState) : Prop where
  start : s₀.Ready
  behind : s₀.Behind s
  taken : ∃ ts, s₀.left = ts ++ s.left ∧ ps.Sublist (ts.map (·.token.pos))

namespace Since

variable {s : ParseState}

theorem lasting (s₀ : ParseState) (ps : List Pos) : Lasting (Since s₀ ps) where
  ready _ h := h.behind.ready h.start
  behind s t h hbehind := by
    obtain ⟨ts, hts, hps⟩ := h.taken
    obtain ⟨us, hus⟩ := hbehind.left
    refine ⟨h.start, h.behind.trans hbehind, ts ++ us, ?_, ?_⟩
    · rw [hts, ← hus, List.append_assoc]
    · rw [List.map_append]
      exact hps.trans (List.sublist_append_left ..)

/-- Nothing has been taken yet. -/
theorem nothing (hs : s.Ready) : Since s [] s := ⟨hs, .refl s, [], rfl, .slnil⟩

/-- The current token is taken. -/
theorem take (h : Since s₀ ps s) (hkind : s.current.token.kind ≠ .eof) :
    (advance s).1 = s.current.token ∧ Since s₀ (ps ++ [s.current.token.pos]) (advance s).2 := by
  obtain ⟨ts, hts, hps⟩ := h.taken
  obtain ⟨rest, hleft⟩ := left_of_kind (h.behind.ready h.start) hkind
  have hbehind : s.Behind (s.took rest) := ⟨hleft ▸ List.suffix_cons _ _, rfl, rfl⟩
  rw [advance_of_left hleft]
  refine ⟨rfl, h.start, h.behind.trans hbehind, ts ++ [s.current], ?_, ?_⟩
  · rw [hts, hleft, List.append_assoc]
    rfl
  · rw [List.map_append]
    exact hps.append (.refl _)

end Since

/-- Whatever was taken before, the step takes tokens at the places `P` of its answer. -/
def Sites (m : Parse α) (P : α → List Pos) : Prop :=
  ∀ s₀ ps, Leads (Since s₀ ps) m fun a => Since s₀ (ps ++ P a)

namespace Sites

variable {m : Parse α} {f : α → Parse β} {P : α → List Pos} {Q : β → ParseState → Prop}

protected theorem bind (hm : Sites m P) (hf : ∀ a, Leads (Since s₀ (ps ++ P a)) (f a) Q) :
    Leads (Since s₀ ps) (m >>= f) Q := (hm s₀ ps).bind hf

/-- The last step. -/
theorem last {qs : List Pos} {R : α → List Pos} (hm : Sites m P) (h : ∀ a, qs ++ P a = ps ++ R a) :
    Leads (Since s₀ qs) m fun a => Since s₀ (ps ++ R a) := by
  intro s hs
  rw [← h]
  exact hm s₀ qs s hs

end Sites

/-- A step that takes whatever it takes. -/
theorem Passes.next {m : Parse α} {f : α → Parse β} {Q : β → ParseState → Prop} (hm : Passes m)
    (hf : ∀ a, Leads (Since s₀ ps) (f a) Q) : Leads (Since s₀ ps) (m >>= f) Q :=
  hm.skip (Since.lasting s₀ ps) hf

/-- The answer has its places where tokens were taken. -/
theorem Leads.sited {a : α} {qs : List Pos} {P : α → List Pos} (h : ps ++ P a = qs) :
    Leads (Since s₀ qs) (pure a) fun a => Since s₀ (ps ++ P a) := .pure fun _ hs => h ▸ hs

/-! ### Types -/

theorem report_passes (d : Diagnostic) : Passes (report d) := fun _ _ =>
  ⟨List.suffix_refl _, rfl, rfl⟩

theorem reportExpected_passes (what : String) : Passes (reportExpected what) := fun _ _ =>
  ⟨List.suffix_refl _, rfl, rfl⟩

theorem arraySize_sites : Sites arraySize fun v => v.place?.toList := by
  intro s₀ ps
  refine .kind fun k => ?_
  split
  · rintro s ⟨hs, hkind⟩
    obtain ⟨htaken, hsince⟩ := hs.take (by rw [hkind]; decide)
    show Since s₀ (ps ++ [(advance s).1.pos]) (advance s).2
    rwa [htaken]
  · rintro s ⟨hs, hkind⟩
    have hsince := (hs.take (by rw [hkind]; decide)).2
    show Since s₀ (ps ++ [(ident s).1.pos]) (ident s).2
    obtain ⟨rest, hleft⟩ := left_of_kind (hs.behind.ready hs.start) (by rw [hkind]; decide)
    rw [ident_of_kind hleft hkind]
    rw [advance_of_left hleft] at hsince
    exact (Since.lasting s₀ _).behind _ _ hsince ⟨List.suffix_refl _, rfl, rfl⟩
  · refine .forget (.pos fun p => .forget ((reportExpected_passes _).next fun _ => ?_))
    exact .sited (List.append_nil ps)

theorem typeNested_sites (levels : Nat) : Sites (typeNested levels) TypeExpr.sizePlaces := by
  have hnone {t : TypeExpr} (h : t.sizes = []) {s₀ : ParseState} {ps : List Pos} :
      Leads (Since s₀ ps) (pure t) fun t => Since s₀ (ps ++ t.sizePlaces) := by
    refine .sited ?_
    unfold TypeExpr.sizePlaces
    rw [h]
    exact List.append_nil ps
  -- by induction on the levels that are left, since elements are types of one level less
  induction levels with
  | zero =>
    intro s₀ ps
    refine .current fun t => .forget (.ite (fun _ => ?_) fun _ => ?_)
    · exact (report_passes _).next fun _ => hnone rfl
    · exact (reportExpected_passes _).next fun _ => hnone rfl
  | succ levels ih =>
    intro s₀ ps
    refine .check fun b => .forget (.ite (fun _ => ?_) fun _ => ?_)
    · exact .pos fun p => .forget ((reportExpected_passes _).next fun _ => hnone rfl)
    refine ident_passes.next fun name => .check fun b => .forget (.ite (fun _ => ?_) fun _ => ?_)
    · exact advance_passes.next fun _ => ident_passes.next fun _ => hnone rfl
    split
    · exact hnone rfl
    · refine (expect_passes _).next fun _ => ih.bind fun key => (expect_passes _).next fun _ => ?_
      refine ih.bind fun value => (expect_passes _).next fun closing => .sited ?_
      show ps ++ (key.sizes ++ value.sizes).filterMap Value.place? = _
      rw [List.filterMap_append, ← List.append_assoc]
      rfl
    · refine (expect_passes _).next fun _ => ih.bind fun elem => (expect_passes _).next fun _ => ?_
      refine arraySize_sites.bind fun size => (expect_passes _).next fun closing => .sited ?_
      show ps ++ (elem.sizes ++ [size]).filterMap Value.place? = _
      have hsize : [size].filterMap Value.place? = size.place?.toList := by
        cases size <;> rfl
      rw [List.filterMap_append, hsize, ← List.append_assoc]
      rfl
    · refine (expect_passes _).next fun _ => ih.bind fun elem => (expect_passes _).next fun _ => ?_
      exact .sited rfl
    · exact hnone rfl

theorem typeExpr_sites : Sites typeExpr TypeExpr.sizePlaces := typeNested_sites _

/-! ### Signatures -/

/-- Where sizes stand in parameters. -/
def paramPlaces (params : List Param) : List Pos := params.flatMap fun p => p.type.sizePlaces

theorem param_sites (sofar : ParamsSoFar) :
    Leads (Since s₀ (ps ++ paramPlaces sofar.params.toList)) (param sofar)
      fun r => Since s₀ (ps ++ paramPlaces (r.getD sofar).params.toList) := by
  refine .check fun b => .forget (.atEnd fun e => .forget ?_)
  refine .ite (fun _ => .pure fun _ hs => hs) fun _ => ?_
  refine typeExpr_sites.bind fun type => .kind fun k => .forget ?_
  -- however the parameter ends, its type is what is added
  have hpush (name : Option Ident) (broken : Option Pos) :
      Leads (Since s₀ (ps ++ paramPlaces sofar.params.toList ++ type.sizePlaces))
        (pure (some { params := sofar.params.push ⟨type, name⟩, broken := broken }))
        fun r => Since s₀ (ps ++ paramPlaces (r.getD sofar).params.toList) := by
    refine .pure fun s hs => ?_
    have hplaces : paramPlaces (sofar.params.push ⟨type, name⟩).toList =
        paramPlaces sofar.params.toList ++ type.sizePlaces := by simp [paramPlaces]
    rw [Option.getD_some, hplaces, ← List.append_assoc]
    exact hs
  split
  · refine ident_passes.next fun name => .check fun b => .forget (.ite (fun _ => ?_) fun _ => ?_)
    · exact advance_passes.next fun _ => hpush _ _
    · exact hpush _ _
  · exact advance_passes.next fun _ => hpush _ _
  · exact hpush _ _
  · exact .current fun t => .forget ((report_passes _).next fun _ => hpush _ _)

theorem paramList_sites : Sites paramList fun l => paramPlaces l.params := by
  intro s₀ ps
  have hloop : Leads (Since s₀ ps) (iterate param {}) fun sofar : ParamsSoFar =>
      Since s₀ (ps ++ paramPlaces sofar.params.toList) := by
    have hstart : ps = ps ++ paramPlaces ({} : ParamsSoFar).params.toList :=
      (List.append_nil ps).symm
    intro s hs
    rw [hstart] at hs
    exact Leads.iterate param_sites {} s hs
  refine (expect_passes _).next fun opening => hloop.bind fun sofar => ?_
  split
  · exact .sited rfl
  · exact (expect_passes _).next fun closing => .sited rfl

theorem methodResult_sites (openLine : Nat) :
    Sites (methodResult openLine) fun r => r.toList.flatMap TypeExpr.sizePlaces := by
  intro s₀ ps
  refine .check fun b => .forget (.line fun l => .nextKind fun k => .ite (fun _ => ?_) fun _ => ?_)
  · exact typeExpr_sites.bind fun t => .sited (by simp)
  · exact .sited (List.append_nil ps)

theorem signature_sites :
    Sites signature fun sig => (MemberType.func sig).types.flatMap TypeExpr.sizePlaces := by
  intro s₀ ps
  refine .line fun l => paramList_sites.bind fun list => (methodResult_sites l).bind fun result => ?_
  refine .sited ?_
  simp [MemberType.types, paramPlaces, List.flatMap_map]

/-! ### Members -/

theorem typeAndNames_sites : Sites typeAndNames fun r => r.1.sizePlaces := by
  intro s₀ ps
  refine .check fun b => .forget (.ite (fun _ => ?_) fun _ => ?_)
  · exact advance_passes.next fun _ => typeExpr_sites.bind fun t => .sited rfl
  · exact typeExpr_sites.bind fun t => identList_passes.next fun names => .sited rfl

theorem field_sites (scope : ScopeId) (i : Nat) : Sites (field scope i) Member.sizePlaces := by
  intro s₀ ps
  refine takeLead_passes.next fun doc => fieldOptions_passes.next fun options => ?_
  refine typeAndNames_sites.bind fun p => string?_passes.next fun tag => ?_
  refine endOfItem_passes.next fun _ => .trailing fun comment => .read _ fun origin => .forget ?_
  refine (declareAll_passes _ _ _ _ _).next fun _ => (resolveTypeExpr_passes _).next fun _ => ?_
  exact .sited (by simp [Member.sizePlaces, Member.types, MemberType.types])

theorem nameAndType_sites :
    Sites nameAndType fun r => r.2.types.flatMap TypeExpr.sizePlaces := by
  intro s₀ ps
  refine typeExpr_sites.bind fun first => .check fun opens => .forget ?_
  split
  · next name hname =>
    -- a type that can be read as a name has no sizes
    have hnone : first.sizePlaces = [] := by
      split at hname
      · cases first <;> first | rfl | cases hname
      · cases hname
    rw [hnone, List.append_nil]
    exact signature_sites.bind fun sig => .sited rfl
  · exact .sited (by simp [MemberType.types])

theorem method_sites (scope : ScopeId) (i : Nat) : Sites (method scope i) Member.sizePlaces := by
  intro s₀ ps
  refine takeLead_passes.next fun doc => nameAndType_sites.bind fun p => ?_
  refine endOfItem_passes.next fun _ => .trailing fun comment => .read _ fun origin => .forget ?_
  refine (declareAll_passes _ _ _ _ _).next fun _ => (resolveMemberType_passes _).next fun _ => ?_
  exact .sited (by simp [Member.sizePlaces, Member.types])

theorem member?_sites (kind : BeanKind) (scope : ScopeId) (i : Nat) :
    Sites (member? kind scope i) fun r => r.toList.flatMap Member.sizePlaces := by
  have hsome {m : Parse Member} (hm : Sites m Member.sizePlaces) :
      Sites (some <$> m) fun r => r.toList.flatMap Member.sizePlaces := fun s₀ ps =>
    .map (hm.last fun a => by simp)
  have hnone {m : Parse Member} (hm : Passes m) (h : ∀ s, (m s).1.type = none) :
      Sites m Member.sizePlaces := by
    intro s₀ ps s hs
    have hplaces : (m s).1.sizePlaces = [] := by
      unfold Member.sizePlaces Member.types
      rw [h s]
      rfl
    rw [hplaces, List.append_nil]
    exact hm.leads (Since.lasting s₀ ps) s hs
  intro s₀ ps
  refine .current fun t => .forget ?_
  split
  case h_1 => exact hsome (method_sites scope i) s₀ ps
  case h_2 => exact hsome (hnone (enumerator_passes scope i) fun _ => rfl) s₀ ps
  case h_11 => exact .sited (by simp)
  all_goals exact hsome (field_sites scope i) s₀ ps

/-! ### Files -/

namespace Since

variable {s t : ParseState}

theorem members {kind : BeanKind} {ms : List Member} (h : Members kind s ms t)
    (hs : Since s₀ ps s) : Since s₀ (ps ++ ms.flatMap Member.sizePlaces) t := by
  induction h generalizing ps with
  | @nil s t h =>
    rw [List.flatMap_nil, List.append_nil]
    exact (lasting s₀ ps).behind s t hs h
  | @cons s t u scope i m ms hready h hrest ih =>
    have hm := member?_sites kind scope i s₀ ps s hs
    rw [h] at hm
    have hmember : [m].flatMap Member.sizePlaces = m.sizePlaces := List.flatMap_singleton ..
    rw [List.flatMap_cons, ← List.append_assoc]
    exact ih (hmember ▸ hm)

theorem beans {bs : List Bean} (h : Beans s bs t) (hs : Since s₀ ps s) :
    Since s₀ (ps ++ bs.flatMap Bean.sizePlaces) t := by
  induction h generalizing ps with
  | @nil s t h =>
    rw [List.flatMap_nil, List.append_nil]
    exact (lasting s₀ ps).behind s t hs h
  | @cons s t u v b bs h hmembers hrest ih =>
    rw [List.flatMap_cons, ← List.append_assoc]
    exact ih (members hmembers ((lasting s₀ ps).behind s t hs h))

end Since

end Parse

/-- Sizes stand apart: those of the arrays in a source stand behind one another, in the source. -/
theorem Source.sizePlaces (s : Source) :
    (s.alone.file.sizes.filterMap Value.place?).Pairwise (· < ·) ∧
      ∀ p ∈ s.alone.file.sizes.filterMap Value.place?, s.alone.source.Owns p := by
  obtain ⟨ts, hleft, hsublist⟩ :=
    (Parse.Since.beans (Parse.file_beans _ s.start_ready) (.nothing s.start_ready)).taken
  rw [← s.parsed_eq, List.nil_append] at hsublist
  rw [File.filterMap_sizes]
  -- the places of sizes are a part of those of tokens, which stand behind one another in the source
  have htokens : (ts.map (·.token)).Sublist s.start.tokens := by
    unfold ParseState.tokens
    rw [hleft, List.map_append, List.append_assoc]
    exact List.sublist_append_left ..
  have hpos : (ts.map (·.token.pos)).Sublist (s.start.tokens.map Token.pos) := by
    have hmap := htokens.map Token.pos
    rwa [List.map_map] at hmap
  refine ⟨?_, fun p hp => ?_⟩
  · exact (List.pairwise_map.2 s.start_ready.increasing).sublist (hsublist.trans hpos)
  · obtain ⟨t, ht, rfl⟩ := List.mem_map.1 ((hsublist.trans hpos).subset hp)
    exact s.start_ready.owned t ht

end Idl
