/-
Idl/Proofs/Respelling/Sources.lean

Compiling respelled sources.

`s.ReadsAs ρ base base' s'` says what the texts of two sources have to do with each other for the one to
be the other, respelled: the tokens, the lines and the end.  It is all that is asked of the texts.  Read
one behind the other, such sources are parsed, linked and lowered alike.  So if the first ones are without
errors the second ones are as well (`hasErrors_respelled`), and the representations of both agree once
their texts are reconciled (`ir_respelled`).
-/
import Idl.Proofs.Ir.Clean
import Idl.Proofs.Placement.Lines
import Idl.Proofs.Reordering.Sources
import Idl.Proofs.Respelling.Lower
import Idl.Proofs.Respelling.Parse
import Idl.Proofs.Respelling.Scan

namespace Idl

/-! ### Reports that are no errors -/

/-- None of the reports is an error. -/
def Harmless (ds : List Diagnostic) : Prop := ∀ d ∈ ds, d.isError = false

namespace Harmless

variable {ds es : List Diagnostic}

theorem nil : Harmless [] := fun _ hd => absurd hd List.not_mem_nil

theorem warning (text : String) (span : Span) : Harmless [.warning text span] := by
  intro d hd
  rw [List.mem_singleton.1 hd]
  rfl

theorem append : Harmless (ds ++ es) ↔ Harmless ds ∧ Harmless es := List.forall_mem_append

/-- Whether a report is an error is a matter of its severity. -/
theorem of_severities (h : es.map (·.severity) = ds.map (·.severity)) (hds : Harmless ds) :
    Harmless es := by
  -- what is no error is a warning
  have hseverity : ∀ x ∈ es.map (·.severity), x = .warning := by
    rw [h]
    refine List.forall_mem_map.2 fun d hd => ?_
    have hd := of_decide_eq_false (hds d hd)
    cases hs : d.severity with
    | error => exact absurd hs hd
    | warning => rfl
  intro d hd
  unfold Diagnostic.isError
  rw [hseverity _ (List.mem_map_of_mem hd)]
  rfl

end Harmless

theorem tagWarnings_harmless (tag : Option Lit) : Harmless (tagWarnings tag) := by
  cases tag with
  | none => exact .nil
  | some l =>
    unfold tagWarnings
    dsimp only
    split
    · exact .nil
    · exact .warning _ _

theorem sizeWarnings_harmless (env : LowerEnv) (f : File) (size : Value) :
    Harmless (sizeWarnings env f size) := by
  unfold sizeWarnings
  cases size with
  | bad p => exact .nil
  | _ =>
    dsimp only
    split
    · exact .nil
    · exact .warning _ _

theorem Bean.warnings_harmless (env : LowerEnv) (f : File) (b : Bean) :
    Harmless (b.warnings env f) := by
  refine Harmless.append.2 ⟨fun d hd => ?_, tagWarnings_harmless _⟩
  obtain ⟨m, -, hd⟩ := List.mem_flatMap.1 hd
  unfold Bean.memberWarnings at hd
  rcases List.mem_append.1 hd with hd | hd
  · cases htype : m.type with
    | none =>
      rw [htype] at hd
      cases hd
    | some t =>
      rw [htype] at hd
      have hd : d ∈ t.warnings env f := hd
      rw [t.warnings_eq] at hd
      obtain ⟨u, -, hd⟩ := List.mem_flatMap.1 hd
      rw [u.warnings_eq] at hd
      obtain ⟨v, -, hd⟩ := List.mem_flatMap.1 hd
      exact sizeWarnings_harmless env f v d hd
  · split at hd
    · cases hd
    · exact tagWarnings_harmless _ d hd

/-- What is said while packages are lowered is never an error. -/
theorem loweringWarnings_harmless (packages : NameMap Package) (t : SymbolTable) :
    Harmless (loweringWarnings packages t) := by
  intro d hd
  obtain ⟨p, -, hd⟩ := List.mem_flatMap.1 hd
  obtain ⟨f, -, hd⟩ := List.mem_flatMap.1 hd
  rcases List.mem_append.1 hd with hd | hd
  · obtain ⟨n, -, hn⟩ := List.mem_filterMap.1 hd
    unfold badNodeWarning? at hn
    split at hn
    · cases hn
      rfl
    · cases hn
  · obtain ⟨b, -, hd⟩ := List.mem_flatMap.1 hd
    exact b.warnings_harmless _ f d hd

/-- A compilation is without errors if all of its stages but the last are. -/
theorem hasErrors_eq_false_iff (sources : List Source) : (compile sources).hasErrors = false ↔
    Harmless (parseSources sources).diagnostics ∧ Harmless (linkSources sources).diagnostics := by
  have hall : Harmless (compile sources).diagnostics ↔
      Harmless (parseSources sources).diagnostics ∧ Harmless (linkSources sources).diagnostics := by
    have hmem : Harmless (compile sources).diagnostics ↔ Harmless ((parseSources sources).diagnostics ++
        (linkSources sources).diagnostics ++
          loweringWarnings (linkSources sources).packages (linkSources sources).symbols) :=
      forall_congr' fun d => imp_congr_left mem_sortDiagnostics
    rw [hmem, Harmless.append, Harmless.append]
    exact and_iff_left (loweringWarnings_harmless _ _)
  rw [← hall]
  exact List.any_eq_false.trans
    (forall_congr' fun d => imp_congr_right fun _ => Bool.not_eq_true _ ▸ Iff.rfl)

/-! ### A source -/

/-- Read from `base'` on, the source `s'` is what the source `s` is from `base` on, respelled.  Of the
tokens this is asked only if there is nothing wrong with those of `s`. -/
structure Source.ReadsAs (ρ : Respelling) (base base' : Pos) (s s' : Source) : Prop where
  name : s'.name = s.name
  stop : base' + s'.text.utf8ByteSize = ρ.pos (base + s.text.utf8ByteSize)
  lineOf (p : Pos) : (s'.fileAt base').lineOf (ρ.pos p) = (s.fileAt base).lineOf p
  tokens : (scanSource base s.text).errors = [] → (scanSource base' s'.text).errors = [] ∧
    List.Forall₂ (fun t t' => Token.ReadsAs ρ (s.fileAt base).lineOf (s'.fileAt base').lineOf
      t.token t'.token) (scanSource base s.text).tokens (scanSource base' s'.text).tokens

namespace Source.ReadsAs

variable {ρ : Respelling} {base base' : Pos} {s s' : Source}

/-- The significant tokens are those of the source, respelled. -/
theorem significant_eq (h : s.ReadsAs ρ base base' s') (hclean : (scanSource base s.text).errors = []) :
    significant (s'.fileAt base').lineOf (scanSource base' s'.text).allTokens =
      (significant (s.fileAt base).lineOf (scanSource base s.text).allTokens).map
        (SignificantToken.respelled ρ) := by
  have heof : Token.ReadsAs ρ (s.fileAt base).lineOf (s'.fileAt base').lineOf
      (scanSource base s.text).eof (scanSource base' s'.text).eof := by
    have hstop : base' + byteWidth s'.text.toList = ρ.pos (base + byteWidth s.text.toList) := by
      rw [← utf8ByteSize_eq, ← utf8ByteSize_eq]
      exact h.stop
    exact ⟨rfl, rfl, hstop, fun _ => hstop, fun hk => by cases hk⟩
  refine significant_respelled h.lineOf ?_
  refine List.rel_append (List.forall₂_map_left_iff.2 (List.forall₂_map_right_iff.2
    (h.tokens hclean).2)) (.cons heof .nil)

/-- Parsing starts in a state that follows the one in which parsing the source starts. -/
theorem start_follows (h : s.ReadsAs ρ base base' s') (id : FileId) (t : SymbolTable)
    (tokens : List SignificantToken) :
    (ParseState.start (s.fileAt base) id t tokens).Follows ρ
      (.start (s'.fileAt base') id (t.respelled ρ) (tokens.map (SignificantToken.respelled ρ))) := by
  obtain ⟨hname, hbase, hsize⟩ := s.fileAt_eq base
  obtain ⟨hname', hbase', hsize'⟩ := s'.fileAt_eq base'
  have heof : (tokens.map (SignificantToken.respelled ρ)).getLastD
        ⟨⟨.eof, "", .ofPos (base' + s'.text.utf8ByteSize)⟩, none, none, []⟩ =
      (tokens.getLastD ⟨⟨.eof, "", .ofPos (base + s.text.utf8ByteSize)⟩, none, none, []⟩).respelled
        ρ := by
    rw [List.getLastD_eq_getLast?, List.getLastD_eq_getLast?, List.getLast?_map, h.stop]
    cases tokens.getLast? with
    | none => rfl
    | some t => rfl
  -- parsing starts with the comments in front of the first token, or of the end if there is none
  have hlead (eof : SignificantToken) :
      ((tokens.dropLast.map (SignificantToken.respelled ρ)).headD (eof.respelled ρ)).lead =
        (tokens.dropLast.headD eof).lead.map (CommentGroup.respelled ρ) := by
    cases tokens.dropLast <;> rfl
  have hfollows := ParseState.Follows.intro (ρ := ρ)
    (s := ParseState.start (s.fileAt base) id t tokens) (s'.fileAt base') #[]
    (hname'.trans (h.name.trans hname.symm)) h.lineOf rfl
  refine (congrArg (ParseState.Follows ρ _) ?_).mp hfollows
  unfold ParseState.start
  rw [hbase, hsize, hbase', hsize', heof, ← List.map_dropLast]
  dsimp only
  rw [hlead]
  simp [ParseState.respelled, SymbolTable.newScope_respelled, ρ.pos_zero]

end Source.ReadsAs

/-! ### Sources in turn -/

namespace ParsedSources

variable (p : ParsedSources) (s : Source)

/-- A source for which there are positions left is read and parsed. -/
theorem add_of_room (h : p.files.next + s.extent < positionBound) :
    let file := s.fileAt p.files.next
    let tokens := significant file.lineOf (scanSource p.files.next s.text).allTokens
    let result := ParseResult.of ⟨p.files.next + s.extent, p.files.files.push file⟩
      (scanSource p.files.next s.text) (tokens.flatMap (·.groups))
      (.start file p.files.files.size p.symbols tokens)
    p.add s = ⟨result.files, result.symbols, p.parsed ++ [result.file],
      p.diagnostics ++ result.diagnostics⟩ := by
  have h : ¬ positionBound ≤ p.files.next + s.text.utf8ByteSize + 1 := Nat.not_le.2 h
  unfold add
  rw [parseFile_eq_of, if_neg h]
  rfl

/-- A source for which there are none is reported. -/
theorem add_of_full (h : positionBound ≤ p.files.next + s.extent) :
    p.add s = { p with diagnostics := p.diagnostics ++ [s.refusal] } := by
  have h : positionBound ≤ p.files.next + s.text.utf8ByteSize + 1 := h
  unfold add
  rw [parseFile_eq_of, if_pos h]
  rfl

/-- If nothing is wrong with a source, there was room for it, and nothing is wrong with its tokens. -/
theorem room_of_harmless (h : Harmless (p.add s).diagnostics) :
    p.files.next + s.extent < positionBound ∧ (scanSource p.files.next s.text).errors = [] := by
  have hroom : p.files.next + s.extent < positionBound := by
    refine Nat.not_le.1 fun hfull => ?_
    rw [p.add_of_full s hfull] at h
    have hrefusal := h s.refusal (List.mem_append_right _ List.mem_cons_self)
    cases hrefusal
  refine ⟨hroom, List.eq_nil_iff_forall_not_mem.2 fun e he => ?_⟩
  rw [p.add_of_room s hroom] at h
  have herror := h e.toDiagnostic
    (List.mem_append_right _ (List.mem_append_left _ (List.mem_map_of_mem he)))
  cases herror

/-- What was reported stays. -/
theorem diagnostics_prefix_foldl (ss : List Source) :
    p.diagnostics <+: (ss.foldl add p).diagnostics := by
  induction ss generalizing p with
  | nil => exact List.prefix_rfl
  | cons s ss ih =>
    refine .trans ?_ (ih (p.add s))
    unfold add
    split
    · exact List.prefix_append ..
    · exact List.prefix_append ..

end ParsedSources

/-- As many files, and the same trees, symbols and severities, respelled. -/
structure ParsedSources.Follows (ρ : Respelling) (p p' : ParsedSources) : Prop where
  count : p'.files.files.size = p.files.files.size
  symbols : p'.symbols = p.symbols.respelled ρ
  parsed : p'.parsed = p.parsed.map (File.respelled ρ)
  severities : p'.diagnostics.map (·.severity) = p.diagnostics.map (·.severity)

/-- A respelled source is parsed as the source is. -/
theorem ParsedSources.Follows.add {ρ : Respelling} {p p' : ParsedSources} {s s' : Source}
    (h : p.Follows ρ p') (hreads : s.ReadsAs ρ p.files.next p'.files.next s')
    (hclean : Harmless (p.add s).diagnostics) (hroom' : p'.files.next + s'.extent < positionBound) :
    (p.add s).Follows ρ (p'.add s') ∧ (p.add s).files.next = p.files.next + s.extent ∧
      (p'.add s').files.next = p'.files.next + s'.extent := by
  obtain ⟨hroom, hfaults⟩ := p.room_of_harmless s hclean
  have htokens := hreads.significant_eq hfaults
  rw [p.add_of_room s hroom, p'.add_of_room s' hroom', htokens, h.count, h.symbols]
  generalize significant (s.fileAt p.files.next).lineOf _ = tokens at htokens ⊢
  have hgroups : (tokens.map (SignificantToken.respelled ρ)).flatMap (·.groups) =
      (tokens.flatMap (·.groups)).map (CommentGroup.respelled ρ) := by
    rw [List.flatMap_map, List.map_flatMap]
    rfl
  have hstart := hreads.start_follows p.files.files.size p.symbols tokens
  obtain ⟨hfile, hstate⟩ := Parse.file_respells (ρ := ρ) (tokens.flatMap (·.groups)) _ _ hstart
  unfold ParseResult.of
  dsimp only
  rw [hgroups, hfaults, (hreads.tokens hfaults).1]
  refine ⟨⟨?_, hstate.symbols, ?_, ?_⟩, rfl, rfl⟩
  · dsimp only
    rw [Array.size_push, Array.size_push, h.count]
  · dsimp only
    rw [hfile, h.parsed, List.map_append]
    rfl
  · have hreports := congrArg Array.toList hstate.severities
    rw [Array.toList_map, Array.toList_map] at hreports
    dsimp only
    rw [List.map_append, List.map_append, h.severities]
    simpa using hreports

/-- Read in turn, from positions that are given for either side, the second sources are the first
ones, respelled. -/
inductive Source.ReadInTurn (ρ : Respelling) : Pos → Pos → List Source → List Source → Prop
  | nil {base base' : Pos} : ReadInTurn ρ base base' [] []
  | cons {base base' : Pos} {s s' : Source} {ss ss' : List Source} (h : s.ReadsAs ρ base base' s')
    (hrest : ReadInTurn ρ (base + s.extent) (base' + s'.extent) ss ss') :
    ReadInTurn ρ base base' (s :: ss) (s' :: ss')

/-- Respelled sources are parsed as the sources are. -/
theorem ParsedSources.Follows.foldl_add {ρ : Respelling} {p p' : ParsedSources}
    {ss ss' : List Source} (h : p.Follows ρ p')
    (hreads : Source.ReadInTurn ρ p.files.next p'.files.next ss ss')
    (hclean : Harmless (ss.foldl ParsedSources.add p).diagnostics)
    (hroom : p'.files.next + (ss'.map Source.extent).sum < positionBound) :
    (ss.foldl ParsedSources.add p).Follows ρ (ss'.foldl ParsedSources.add p') := by
  generalize hbase : p.files.next = base at hreads
  generalize hbase' : p'.files.next = base' at hreads hroom
  induction hreads generalizing p p' with
  | nil => exact h
  | @cons base base' s s' ss ss' hs _ ih =>
    subst hbase hbase'
    rw [List.map_cons, List.sum_cons, ← Nat.add_assoc] at hroom
    -- an error of this source would still be there when all sources are read
    have hadd : Harmless (p.add s).diagnostics := fun d hd =>
      hclean d ((ParsedSources.diagnostics_prefix_foldl (p.add s) ss).subset hd)
    obtain ⟨hfollows, hnext, hnext'⟩ := h.add hs hadd (Nat.lt_of_le_of_lt (Nat.le_add_right ..) hroom)
    exact ih hfollows hclean hnext hnext' hroom

/-! ### Compilations -/

section Compilation

variable {ρ : Respelling} {sources sources' : List Source}
  (hreads : Source.ReadInTurn ρ 1 1 sources sources')
  (hok : (compile sources).hasErrors = false)
  (hroom : 1 + (sources'.map Source.extent).sum < positionBound)
include hreads hok hroom

theorem parseSources_respelled : (parseSources sources).Follows ρ (parseSources sources') := by
  have hempty : ParsedSources.Follows ρ {} {} := ⟨rfl, by simp [SymbolTable.respelled], rfl, rfl⟩
  exact hempty.foldl_add hreads ((hasErrors_eq_false_iff sources).1 hok).1 hroom

/-- Respelled sources are without errors if the sources are. -/
theorem hasErrors_respelled : (compile sources').hasErrors = false := by
  obtain ⟨hparsed, hlinked⟩ := (hasErrors_eq_false_iff sources).1 hok
  have h := parseSources_respelled hreads hok hroom
  obtain ⟨-, -, hseverities⟩ := link_respelled (ρ := ρ) (parseSources sources).parsed
    (parseSources sources).symbols (parseSources sources).files (parseSources sources').files
  rw [← h.parsed, ← h.symbols] at hseverities
  exact (hasErrors_eq_false_iff sources').2
    ⟨hparsed.of_severities h.severities, hlinked.of_severities hseverities⟩

/-- The representations agree once their texts are reconciled. -/
theorem ir_respelled {σ τ : Retexting} (hρ : ρ.Reconciles σ τ) :
    (compile sources').ir.retext σ = (compile sources).ir.retext τ := by
  have h := parseSources_respelled hreads hok hroom
  obtain ⟨hpackages, hsymbols, -⟩ := link_respelled (ρ := ρ) (parseSources sources).parsed
    (parseSources sources).symbols (parseSources sources).files (parseSources sources').files
  rw [← h.parsed, ← h.symbols] at hpackages hsymbols
  show (Ir.ofPackages (linkSources sources').packages (linkSources sources').symbols).retext σ =
    (Ir.ofPackages (linkSources sources).packages (linkSources sources).symbols).retext τ
  unfold linkSources
  rw [hpackages, hsymbols]
  exact Ir.ofPackages_respelled hρ _ _

end Compilation

end Idl
