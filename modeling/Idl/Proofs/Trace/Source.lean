/-
Idl/Proofs/Trace/Source.lean

What is known of a source that is read alone.

`Source.reading` puts together what runs, accounts and name events say about one source: what its
scope names, what its identifiers stand for, what is reported, and where all of it stands.  Nothing
later looks into the parser again.
-/
import Idl.Proofs.Placement.Source
import Idl.Proofs.Trace.Grammar
import Idl.Proofs.Trace.Places

namespace Idl

namespace Source

variable (s : Source)

/-- The account of a source. -/
def account : Account := s.alone.file.account 1

/-- What happens to names while a source is read. -/
def events : List NameEvent := s.account.events

/-- What is wrong with the tokens of a source. -/
def lexical : List Diagnostic := s.scanned.1.errors.map (·.toDiagnostic)

end Source

/-- What is known of a source. -/
structure Source.Reading (s : Source) : Prop where
  id : s.alone.file.id = 0
  filename : s.alone.file.filename = s.name
  scope : s.alone.file.scope = 0
  qualified : s.alone.file.qualified = s.alone.file.qualifiedNames
  lists : s.alone.symbols.Lists (declarations s.events)
  scopes : s.alone.symbols.scopes.size = 1 + NameEvent.enters s.events
  /-- A declared identifier stands for its declaration. -/
  bound : ∀ {k : ObjectId} {i : Ident}, (declaredIn s.events)[k]? = some i →
    s.alone.file.resolutions.get? i.id = some k
  /-- A name that is used stands for what the file declares first. -/
  referred : ∀ i ∈ referredIn s.events, i.isBlank = false →
    s.alone.file.resolutions.get? i.id = s.alone.symbols.lookup? 0 i.name
  /-- Nothing else stands for anything. -/
  free : ∀ x, (∀ i ∈ declaredIn s.events, i.id ≠ x) →
    (∀ i ∈ referredIn s.events, i.isBlank = false → i.id ≠ x) →
    s.alone.file.resolutions.get? x = none
  unresolved : s.alone.file.unresolved = (referredIn s.events).filter fun i =>
    !i.isBlank && (s.alone.symbols.lookup? 0 i.name).isNone
  /-- The reports are those about tokens, those about syntax, and those about names. -/
  diagnostics : ∃ reports, s.alone.diagnostics.Perm
      (s.lexical ++ reports ++ redeclarations s.alone.source (declarations s.events)) ∧
    (∀ d ∈ reports, d.Plain ∧ s.alone.source.Owns d.span.start ∧ s.start.Shows d) ∧
    ∀ p ∈ s.account.faults, ∃ d ∈ reports, d.span.start = p
  numbered : (s.account.idents.map (·.id)).Nodup
  /-- Identifiers stand in order, and only where two are missing they share a place. -/
  ordered : s.account.idents.Pairwise fun i j => i.pos ≤ j.pos ∧ (i.pos = j.pos →
    (i.name = "_" ∧ i ∉ s.account.solid) ∧ j.name = "_" ∧ j ∉ s.account.solid)
  spelled : ∀ i ∈ s.account.idents, ∃ c cs, isIdentStart c = true ∧
    cs.all isIdentContinue = true ∧ i.name = String.ofList (c :: cs)
  covers : ∀ p, s.account.Covers p → s.alone.source.Owns p
  /-- An identifier with a name lies in the file. -/
  held : ∀ i ∈ s.account.idents, i.isBlank = false → s.alone.source.Holds i.span

namespace Source

variable (s : Source)

theorem start_ready : s.start.Ready :=
  Idl.start_ready s.registered 0 {} s.text Nat.one_ne_zero (utf8ByteSize_eq s.text)

/-- The state in which parsing starts has one scope, which names nothing. -/
theorem start_records :
    s.start.Knows { symbols := s.start.symbols } [] ∧
      Names.Records s.alone.source 0 { symbols := s.start.symbols } [] := by
  refine ⟨⟨rfl, rfl, rfl, rfl, .nil⟩, ?_⟩
  refine Names.Records.start (s := { outer := none }) ⟨rfl, fun {i t} h => ?_, by simp⟩ rfl rfl
  have h : (#[{ outer := none }] : Array Scope)[i]? = some t := h
  have hi := (Array.getElem?_eq_some_iff.1 h).1
  simp only [List.size_toArray, List.length_cons, List.length_nil, Nat.zero_add, Nat.lt_one_iff] at hi
  rw [hi] at h
  rw [← Option.some.inj h]
  rfl

/-- Reading a source, as its account tells. -/
theorem told :
    (s.alone.file.id = 0 ∧ s.alone.file.filename = s.name ∧ s.alone.file.scope = 0 ∧
      s.alone.file.qualified = s.parsed.2.qualified.toList ∧
      s.alone.file.resolutions = s.parsed.2.resolutions) ∧
    ∃ i t, Told i s.start s.account t ∧
      Parse.settlePending t = (s.alone.file.unresolved, s.parsed.2) := by
  have hnothing : Told 0 s.start {} s.start :=
    ⟨s.start_ready, rfl, [], .nil _, .nil⟩
  obtain ⟨⟨hid, hname, hscope, hqualified, hresolutions⟩, i, t, ht, hsettle⟩ :=
    Parse.file_told (s.tokens.flatMap (·.groups)) s.start hnothing
  rw [← s.parsed_eq] at hid hname hscope hqualified hresolutions ht hsettle
  exact ⟨⟨hid, hname.trans s.alone_source.1, hscope, hqualified, hresolutions⟩, i, t, ht, hsettle⟩

/-- The events of a source are those of its declarations. -/
theorem events_eq : s.events = (declsAccount s.alone.file.scope 1 s.alone.file.id 0
    s.alone.file.decls).events := rfl

theorem unmentioned_subperm :
    (s.alone.file.decls.flatMap Decl.unmentioned ++ mentioned s.events).Subperm s.account.idents :=
  (mentioned_subperm_decls ..).trans ((List.sublist_cons_self ..).subperm)

theorem mentioned_subperm : (s.alone.file.decls.flatMap Decl.aliases ++ mentioned s.events).Subperm
    s.account.idents :=
  have haliases : (s.alone.file.decls.flatMap Decl.aliases).Sublist
      (s.alone.file.decls.flatMap Decl.unmentioned) :=
    flatMap_sublist _ fun _ => List.sublist_append_left ..
  (haliases.append (.refl _)).subperm.trans s.unmentioned_subperm

end Source

/-- Whatever a run has counted as an identifier is spelled like one. -/
theorem Run.ident_spelled {s t : ParseState} {tr : Trace} (r : Run s tr t) (hs : s.Ready)
    {i : Ident} (hi : i ∈ Trace.idents tr) : ∃ c cs, isIdentStart c = true ∧
      cs.all isIdentContinue = true ∧ i.name = String.ofList (c :: cs) := by
  by_cases hblank : i.name = "_"
  · exact ⟨'_', [], by decide, rfl, hblank⟩
  · obtain ⟨token, htoken, hkind, htext, -⟩ := r.named_token (r.named_of_ne hi hblank)
    have hspelled := hs.spelled token (r.tokens ▸ List.mem_append_left _ htoken)
    unfold Token.Spelled at hspelled
    rw [hkind] at hspelled
    rwa [htext] at hspelled

/-- Identifiers come in the order of their places, and only missing ones share one. -/
theorem Run.idents_apart {s t : ParseState} {tr : Trace} (r : Run s tr t) (hs : s.Ready)
    {a : Account} (ha : Trace.Tells s tr a) :
    a.idents.Pairwise fun i j => i.pos ≤ j.pos ∧ (i.pos = j.pos →
      (i.name = "_" ∧ i ∉ a.solid) ∧ j.name = "_" ∧ j ∉ a.solid) := by
  have hmissing {i : Ident} (hi : i ∈ a.idents)
      (hno : ∀ t ∈ s.tokens, t.kind = .ident → t.pos ≠ i.pos) : i.name = "_" ∧ i ∉ a.solid := by
    have hnamed : i ∉ Trace.named tr := fun h => by
      obtain ⟨token, htoken, hkind, -, hpos⟩ := r.named_token h
      exact hno token (r.tokens ▸ List.mem_append_left _ htoken) hkind hpos
    refine ⟨?_, fun h => hnamed (ha.solid i h)⟩
    by_contra hne
    exact hnamed (r.named_of_ne (ha.idents.subset hi) hne)
  refine ((r.idents_ordered hs).sublist ha.idents).imp_of_mem fun {i j} hi hj hij => ?_
  refine ⟨hij.1, fun heq => ⟨hmissing hi (hij.2 heq), hmissing hj fun t ht hkind => ?_⟩⟩
  exact heq ▸ hij.2 heq t ht hkind

theorem Source.reading (s : Source) : s.Reading := by
  obtain ⟨⟨hid, hname, hscope, hqualified, hresolutions⟩, index, t, ht, hsettle⟩ := s.told
  obtain ⟨tr, r, htr⟩ := ht.run
  have hready := s.start_ready
  have hnumbered : (s.account.idents.map (·.id)).Nodup := by
    have hlt := r.numbered_lt.sublist (htr.idents.trans tr.idents_sublist)
    exact (List.pairwise_map.2 hlt).imp fun h => Nat.ne_of_lt h
  have hmentioned : ((mentioned s.events).map (·.id)).Nodup := by
    have hsub := (List.sublist_append_right ..).subperm.trans s.mentioned_subperm
    obtain ⟨is, hperm, hsublist⟩ := hsub
    exact ((hperm.map (·.id)).nodup_iff).1 (hnumbered.sublist (hsublist.map _))
  have hfit : NameEvent.Fit s.start.symbols.scopes.size s.events := by
    rw [s.events_eq, hscope, hid]
    exact fit_decls 0 0 Nat.one_pos 0 _
  -- what is known at the end of the run, before the names that wait get another look
  obtain ⟨hstart, hbegin⟩ := s.start_records
  have hrecords := hbegin.all s.events hfit hmentioned
  have hknows := r.knows hstart
  rw [htr.events] at hknows
  change t.Knows (s.events.foldl (Names.after s.alone.source 0) { symbols := s.start.symbols })
    (Trace.reports tr) at hknows
  rw [List.nil_append] at hrecords
  generalize s.events.foldl (Names.after s.alone.source 0) { symbols := s.start.symbols } = n
    at hrecords hknows
  have hsettled := hrecords.settle hmentioned
  obtain ⟨found, hfound⟩ : ∃ r, r =
      n.pending.foldl (settleOne fun i => n.symbols.lookup? 0 i.name) n.resolutions := ⟨_, rfl⟩
  have hend : Parse.settlePending t =
      (n.pending.filter (fun i => (n.symbols.lookup? 0 i.name).isNone),
        { t with resolutions := found }) := by
    have hzero : t.fileScope = 0 := ht.fileScope
    unfold Parse.settlePending
    rw [hknows.symbols, hknows.resolutions, hknows.pending, hzero, hfound]
    rfl
  rw [hend] at hsettle
  obtain ⟨hunresolved, hstate⟩ := Prod.mk.inj hsettle
  have hsymbols : s.alone.symbols = n.symbols := by
    rw [← hknows.symbols]
    exact (congrArg ParseState.symbols hstate).symm
  have hfinal : s.alone.file.resolutions = found :=
    hresolutions.trans (congrArg ParseState.resolutions hstate).symm
  change n.Settled 0 s.events (n.pending.foldl (settleOne fun i => n.symbols.lookup? 0 i.name)
    n.resolutions) _ at hsettled
  rw [← hfound] at hsettled
  have hreports {d : Diagnostic} (hd : d ∈ Trace.reports tr) := r.reports hd
  refine
    { id := hid
      filename := hname
      scope := hscope
      qualified := ?_
      lists := hsymbols ▸ hrecords.declares.lists
      scopes := ?_
      bound := fun hk => hfinal ▸ hsettled.bound hk
      referred := fun i hi hb => hsymbols ▸ hfinal ▸ hsettled.referred i hi hb
      free := fun x h h' => hfinal ▸ hsettled.free x h h'
      unresolved := hsymbols ▸ hunresolved.symm.trans hsettled.unresolved
      diagnostics := ⟨Trace.reports tr, ?_, fun d hd => ?_, htr.faults⟩
      numbered := hnumbered
      ordered := r.idents_apart hready htr
      spelled := fun i hi => r.ident_spelled hready (htr.idents.subset hi)
      covers := fun p hp => ?_
      held := fun i hi hb => ?_ }
  · rw [hqualified, ← congrArg ParseState.qualified hstate]
    show t.qualified.toList = _
    rw [hknows.qualified, hrecords.qualified, s.events_eq]
    exact qualifiedIn_decls ..
  · rw [hsymbols, ← hknows.symbols, ht.scopes_size]
    rfl
  · rw [List.append_assoc]
    refine List.Perm.append_left _ ?_
    rw [← hrecords.declares.repeated, ← congrArg ParseState.diagnostics hstate]
    exact hknows.diagnostics
  · exact ⟨(hreports hd).1, (hreports hd).2, htr.shown d hd⟩
  · obtain ⟨i, hi, rfl⟩ | ⟨l, hl, rfl⟩ | h | h := hp.place
    · exact r.numbered_owned hready (tr.idents_sublist.subset (htr.idents.subset hi))
    · exact r.lit_owned hready (htr.lits.subset hl)
    · obtain ⟨d, hd, rfl⟩ := htr.faults p h
      exact (hreports hd).2
    · exact htr.spots p h
  · exact r.named_held hready (r.named_of_ne (htr.idents.subset hi) (of_decide_eq_false hb))

/-- Whatever is reported about a source alone is an error. -/
theorem Source.isError_of_mem (s : Source) {d : Diagnostic} (hd : d ∈ s.alone.diagnostics) :
    d.isError = true := by
  obtain ⟨reports, hperm, hplain, -⟩ := s.reading.diagnostics
  rcases List.mem_append.1 (hperm.mem_iff.1 hd) with hd | hd
  · rcases List.mem_append.1 hd with hd | hd
    · obtain ⟨e, -, rfl⟩ := List.mem_map.1 hd
      rfl
    · exact (hplain d hd).1.isError
  · obtain ⟨x, -, rfl⟩ := List.mem_map.1 hd
    rfl

end Idl
