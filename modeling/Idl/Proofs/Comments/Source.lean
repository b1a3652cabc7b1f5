/-
Idl/Proofs/Comments/Source.lean

Comments and illegal text mean nothing.

A source whose comments and illegal text are blanked has the tokens that count, where they were, and
the same lines.  So it is parsed from the same tokens without the comments around them, and what comes
of it is the same, save for the comments in the tree and for what is reported of the illegal text
(`parseFile_blanked`).
-/
import Idl.Proofs.Comments.Parse
import Idl.Proofs.Parsing
import Idl.Proofs.Token.Blanking

namespace Idl

/-! ### Tokens without comments -/

/-- The tokens that count are the significant ones of all tokens, bare. -/
theorem significant_bare (lineOf : Pos → Nat) (base : Pos) (source : String) :
    significant lineOf (scanSource base source).bare.allTokens =
      (significant lineOf (scanSource base source).allTokens).map .bare := by
  have hkept : (scanSource base source).bare.allTokens =
      (scanSource base source).allTokens.filter fun t => t.kind ≠ .illegal ∧ t.kind ≠ .comment := by
    have hcounts (t : Token) : t.counts = decide (t.kind ≠ .illegal ∧ t.kind ≠ .comment) := by
      unfold Token.counts Token.IsIdle
      simp only [not_or, and_comm]
    unfold Scanned.allTokens Scanned.bare
    simp only [List.filter_append, List.filter_map, ← hcounts]
    rfl
  have hall : ∀ t ∈ (scanSource base source).bare.allTokens,
      t.kind ≠ .comment ∧ t.kind ≠ .illegal := by
    intro t ht
    rw [hkept, List.mem_filter, decide_eq_true_eq] at ht
    exact ht.2.symm
  unfold significant
  rw [significantFrom_bare lineOf 0 hall, hkept, ← significantFrom_token lineOf 0 [], List.map_map]
  rfl

theorem ParseState.start_bare (file : SourceFile) (id : FileId) (symbols : SymbolTable)
    (tokens : List SignificantToken) : ParseState.start file id symbols (tokens.map .bare) =
      (ParseState.start file id symbols tokens).bare := by
  have hsifted := ParseState.start_sifted (fun _ => false) file id symbols tokens
  rwa [SignificantToken.sifted_none, ParseState.sifted_none] at hsifted

/-! ### Sources without comments -/

/-- What comes of two sources of which the second is the first one, blanked; the tokens of the first
are given. -/
structure ParseResult.Blanked (ts : List ScannedToken) (r r' : ParseResult) : Prop where
  /-- The trees are the same but for the comments in them. -/
  file : r'.file = r.file.bare
  files : r'.files = r.files
  symbols : r'.symbols = r.symbols
  /-- The reports are the same but for those of illegal tokens. -/
  diagnostics : ∃ syntactic : List Diagnostic,
    r.diagnostics = (ts.flatMap (·.faults)).map (·.toDiagnostic) ++ syntactic ∧
      r'.diagnostics = ((ts.filter fun t => t.token.kind ≠ .illegal).flatMap (·.faults)).map
        (·.toDiagnostic) ++ syntactic

/-- Reading a registered file from its blanked source makes the same lines known. -/
theorem SourceFile.scan_blanked (f : SourceFile) (source : String) :
    (f.scan (blanked source)).2 = (f.scan source).2 := by
  unfold scan
  rw [scanSource_blanked]
  rfl

/-- The tokens that count give what all tokens give, but for comments and illegal text. -/
theorem ParseResult.of_bare (files : FileSet) (base : Pos) (source : String)
    (groups : List CommentGroup) (start : ParseState) :
    (ParseResult.of files (scanSource base source) groups start).Blanked
      (scanSource base source).tokens (.of files (scanSource base source).bare [] start.bare) := by
  have hfile : Parse.file [] start.bare =
      ((Parse.file groups start).1.bare, (Parse.file groups start).2.bare) :=
    Parse.file_bare groups start
  unfold ParseResult.of
  rw [hfile, errors_bare]
  exact ⟨rfl, rfl, rfl, _, rfl, rfl⟩

/-- **Comments and illegal text mean nothing.**  When every byte of them but the newlines is blanked,
the source is parsed to the same result, save for the comments in the tree and the faults of illegal
tokens. -/
theorem parseFile_blanked (files : FileSet) (symbols : SymbolTable) (name source : String) :
    bytesOf (blanked source) = (bytesOf source).mapIdx (blankedAt (scanSource 0 source).allTokens) ∧
      ((∃ e, parseFile files symbols name source = .error e ∧
          parseFile files symbols name (blanked source) = .error e) ∨
        ∃ r r', parseFile files symbols name source = .ok r ∧
          parseFile files symbols name (blanked source) = .ok r' ∧
          r.Blanked (scanSource files.next source).tokens r') := by
  refine ⟨bytesOf_blanked source, ?_⟩
  have hsize : (blanked source).utf8ByteSize = source.utf8ByteSize := by
    rw [utf8ByteSize_eq, utf8ByteSize_eq, blanked, String.toList_ofList, byteWidth_blankedFrom]
  have hgroups (ts : List SignificantToken) :
      (ts.map SignificantToken.bare).flatMap (·.groups) = [] := by
    rw [List.flatMap_map]
    exact List.flatMap_eq_nil_iff.2 fun _ _ => rfl
  rw [parseFile_eq_of, parseFile_eq_of, hsize]
  split
  · exact .inl ⟨_, rfl, rfl⟩
  · rw [SourceFile.scan_blanked, scanSource_blanked, significant_bare, hgroups,
      ParseState.start_bare]
    exact .inr ⟨_, _, rfl, rfl, ParseResult.of_bare ..⟩

end Idl
