/-
Idl/Proofs/Placement/Source.lean

Sources side by side.

A source that is read alone gives a tree, diagnostics and symbols of its own (`Source.alone`).  Read
behind others it gives the same, placed behind them (`parseFile_eq`).  So what many sources give
together is what each of them gives alone, placed one behind the other (`parseSources_eq`); only
sources for which there are no positions left are missing.
-/
import Idl.Compilation
import Idl.Proofs.Parsing
import Idl.Proofs.Placement.Parse
import Idl.Proofs.Trace.Start

namespace Idl

/-! ### A source alone -/

/-- What comes of a source that is read alone. -/
structure Alone where
  /-- The source file, with its lines. -/
  source : SourceFile
  file : File
  diagnostics : List Diagnostic
  symbols : SymbolTable

namespace Source

/-- The file of a source, alone in its file set. -/
def registered (s : Source) : SourceFile :=
  { name := s.name, base := 1, size := s.text.utf8ByteSize }

/-- The tokens of a source alone, and its file with the lines. -/
def scanned (s : Source) : Scanned × SourceFile := s.registered.scan s.text

/-- The significant tokens of a source alone. -/
def tokens (s : Source) : List SignificantToken :=
  significant s.scanned.2.lineOf s.scanned.1.allTokens

/-- The state in which parsing a source alone starts. -/
def start (s : Source) : ParseState := .start s.scanned.2 0 {} s.tokens

/-- The tree of a source alone, and the state in which parsing it ends. -/
def parsed (s : Source) : File × ParseState :=
  Parse.file (s.tokens.flatMap (·.groups)) s.start

/-- A source that is read alone. -/
def alone (s : Source) : Alone where
  source := s.scanned.2
  file := s.parsed.1
  diagnostics := s.scanned.1.errors.map (·.toDiagnostic) ++ s.parsed.2.diagnostics.toList
  symbols := s.parsed.2.symbols

end Source

theorem Source.alone_source (s : Source) :
    s.alone.source.name = s.name ∧ s.alone.source.base = 1 ∧
      s.alone.source.size = s.text.utf8ByteSize :=
  SourceFile.foldl_addLine s.registered _

/-- What parsing gives, by its name; nothing later looks into it. -/
theorem Source.parsed_eq (s : Source) :
    s.parsed = Parse.file (s.tokens.flatMap (·.groups)) s.start := rfl

/-! ### A source behind others -/

section Placed

variable (ρ : Placement)

/-- Tokens of the placed file. -/
def Scanned.placed (s : Scanned) : Scanned where
  tokens := s.tokens.map (ScannedToken.placed ρ)
  eof := s.eof.placed ρ
  lineStarts := s.lineStarts

theorem Scanned.allTokens_placed (s : Scanned) :
    (s.placed ρ).allTokens = s.allTokens.map (Token.placed ρ) := by
  simp [allTokens, placed, ScannedToken.placed, Function.comp_def]

theorem Scanned.errors_placed (s : Scanned) :
    (s.placed ρ).errors = s.errors.map (LexError.placed ρ) := by
  simp [errors, placed, ScannedToken.placed, List.flatMap_map, List.map_flatMap]

theorem SourceFile.addLine_placed (f : SourceFile) (l : Nat) :
    (f.placed ρ).addLine l = (f.addLine l).placed ρ := by
  by_cases h : (∀ last ∈ f.lines.back?, last < l) ∧ l ≤ f.size
  · have hf : f.addLine l = { f with lines := f.lines.push l } := if_pos h
    rw [hf]
    exact if_pos h
  · have hf : f.addLine l = f := if_neg h
    rw [hf]
    exact if_neg h

theorem SourceFile.foldl_addLine_placed (f : SourceFile) (ls : List Nat) :
    ls.foldl SourceFile.addLine (f.placed ρ) = (ls.foldl SourceFile.addLine f).placed ρ := by
  induction ls generalizing f with
  | nil => rfl
  | cons l ls ih => rw [List.foldl_cons, addLine_placed, ih, List.foldl_cons]

theorem SourceFile.scan_placed (f : SourceFile) (source : String) (h : f.base ≠ 0) :
    (f.placed ρ).scan source = ((f.scan source).1.placed ρ, (f.scan source).2.placed ρ) := by
  have hscanned : scanSource (f.placed ρ).base source = (scanSource f.base source).placed ρ := by
    have heof : Token.placed ρ ⟨.eof, "", .ofPos (f.base + byteWidth source.toList)⟩ =
        ⟨.eof, "", .ofPos (f.base + ρ.shift + byteWidth source.toList)⟩ := by
      have hne : ¬ f.base + byteWidth source.toList = 0 := fun h0 =>
        h (Nat.eq_zero_of_add_eq_zero_right h0)
      unfold Token.placed Span.placed Span.ofPos
      rw [if_neg hne, Nat.add_right_comm]
    unfold scanSource Scanned.placed
    rw [heof, ← tokensFrom_placed ρ h]
    rfl
  unfold scan
  rw [hscanned]
  exact Prod.ext rfl (f.foldl_addLine_placed ρ _)

theorem ParseState.start_placed (file : SourceFile) (tokens : List SignificantToken)
    (h : file.base ≠ 0) : ParseState.start (file.placed ρ) ρ.fileId ρ.before
      (tokens.map (SignificantToken.placed ρ)) = (ParseState.start file 0 {} tokens).placed ρ := by
  have hsymbols : ρ.before = SymbolTable.placed ρ {} := by simp [SymbolTable.placed]
  have hnew := SymbolTable.newScope_placed ρ {} none
  rw [← hsymbols] at hnew
  have heof : (tokens.map (SignificantToken.placed ρ)).getLastD
        ⟨⟨.eof, "", .ofPos ((file.placed ρ).base + file.size)⟩, none, none, []⟩ =
      (tokens.getLastD ⟨⟨.eof, "", .ofPos (file.base + file.size)⟩, none, none, []⟩).placed ρ := by
    rw [List.getLastD_eq_getLast?, List.getLastD_eq_getLast?, List.getLast?_map]
    cases tokens.getLast? with
    | some t => rfl
    | none =>
      have hne : ¬ file.base + file.size = 0 := fun h0 => h (Nat.eq_zero_of_add_eq_zero_right h0)
      simp only [Option.map_none, Option.getD_none, SignificantToken.placed, Token.placed,
        Span.placed, Span.ofPos, if_neg hne, SourceFile.placed, Nat.add_right_comm,
        List.map_nil]
  unfold start
  simp only [Option.map_none] at hnew
  rw [hnew]
  dsimp only
  rw [show (file.placed ρ).size = file.size from rfl, heof, ← List.map_dropLast]
  generalize tokens.getLastD _ = eof
  have hlead : ((tokens.dropLast.map (SignificantToken.placed ρ)).headD (eof.placed ρ)).lead =
      (tokens.dropLast.headD eof).lead.map (CommentGroup.placed ρ) := by
    cases tokens.dropLast <;> rfl
  rw [hlead]
  simp [placed, Resolutions.placed]

end Placed

/-- Behind the files and symbols that are there. -/
def Placement.behind (files : FileSet) (symbols : SymbolTable) : Placement :=
  ⟨files.next - 1, files.files.size, symbols⟩

/-- Reading a source behind others gives what it gives alone, placed behind them. -/
theorem parseFile_eq (files : FileSet) (symbols : SymbolTable) (s : Source)
    (hnext : files.next ≠ 0) :
    parseFile files symbols s.name s.text =
      if positionBound ≤ files.next + s.text.utf8ByteSize + 1 then .error .overflow
      else
        let ρ := Placement.behind files symbols
        .ok {
          file := s.alone.file.placed ρ
          diagnostics := s.alone.diagnostics.map (Diagnostic.placed ρ)
          files := {
            next := files.next + s.text.utf8ByteSize + 1
            files := files.files.push (s.alone.source.placed ρ) }
          symbols := s.alone.symbols.placed ρ } := by
  let ρ := Placement.behind files symbols
  have hregistered : ({ name := s.name, base := files.next, size := s.text.utf8ByteSize } :
      SourceFile) = s.registered.placed ρ := by
    unfold Source.registered SourceFile.placed
    have hbase : files.next = 1 + ρ.shift := by
      show files.next = 1 + (files.next - 1)
      unfold Pos at *
      omega
    rw [← hbase]
  have hscan : (s.registered.placed ρ).scan s.text = (s.scanned.1.placed ρ, s.scanned.2.placed ρ) :=
    SourceFile.scan_placed ρ s.registered s.text Nat.one_ne_zero
  have hscanned : scanSource files.next s.text = s.scanned.1.placed ρ := by
    have hbase : files.next = (s.registered.placed ρ).base := congrArg SourceFile.base hregistered
    rw [hbase]
    exact congrArg Prod.fst hscan
  have hlines : (s.scanned.2).base ≠ 0 := by
    rw [show s.scanned.2.base = s.registered.base from (SourceFile.foldl_addLine ..).2.1]
    exact Nat.one_ne_zero
  have htokens : significant (s.scanned.2.placed ρ).lineOf (s.scanned.1.placed ρ).allTokens =
      s.tokens.map (SignificantToken.placed ρ) := by
    rw [Scanned.allTokens_placed]
    exact significant_placed ρ (fun p => SourceFile.lineOf_placed ρ _ p) _
  have hgroups : (s.tokens.map (SignificantToken.placed ρ)).flatMap (·.groups) =
      (s.tokens.flatMap (·.groups)).map (CommentGroup.placed ρ) := by
    rw [List.flatMap_map, List.map_flatMap]
    rfl
  have hfile : Parse.file ((s.tokens.flatMap (·.groups)).map (CommentGroup.placed ρ))
      (s.start.placed ρ) = (s.parsed.1.placed ρ, s.parsed.2.placed ρ) :=
    Parse.file_carries _ _
  have hstart : ParseState.start (s.scanned.2.placed ρ) files.files.size symbols
      (s.tokens.map (SignificantToken.placed ρ)) = s.start.placed ρ :=
    ParseState.start_placed ρ s.scanned.2 s.tokens hlines
  have herrors : (s.scanned.1.errors.map (LexError.placed ρ)).map (·.toDiagnostic) =
      (s.scanned.1.errors.map (·.toDiagnostic)).map (Diagnostic.placed ρ) := by
    rw [List.map_map, List.map_map]
    rfl
  rw [parseFile_eq_of]
  split
  · rfl
  · rw [hregistered, hscan, hscanned, htokens, hgroups, hstart]
    unfold ParseResult.of
    rw [hfile, Scanned.errors_placed, herrors]
    show Except.ok _ = Except.ok _
    congr 1
    simp [Source.alone, ParseState.placed, ρ]

/-! ### Sources side by side -/

/-- The files and the symbols of the sources so far. -/
structure Board where
  files : FileSet
  symbols : SymbolTable

namespace Board

/-- Whether there are positions left for a source. -/
def fits (b : Board) (s : Source) : Bool :=
  decide (b.files.next + s.text.utf8ByteSize + 1 < positionBound)

/-- Where the next source goes. -/
def placement (b : Board) : Placement := .behind b.files b.symbols

/-- The board with a source put behind the others. -/
def put (b : Board) (s : Source) : Board where
  files := {
    next := b.files.next + s.text.utf8ByteSize + 1
    files := b.files.files.push (s.alone.source.placed b.placement) }
  symbols := s.alone.symbols.placed b.placement

/-- Where each source goes that fits, one behind the other. -/
def layout (b : Board) : List Source → List (Source × Option Placement)
  | [] => []
  | s :: ss =>
    if b.fits s then (s, some b.placement) :: layout (b.put s) ss else (s, none) :: layout b ss

/-- The board after all sources that fit. -/
def after (b : Board) : List Source → Board
  | [] => b
  | s :: ss => if b.fits s then after (b.put s) ss else after b ss

/-- The board without sources. -/
def empty : Board := ⟨{}, {}⟩

end Board

/-- A source for which there are no positions left. -/
def Source.refusal (s : Source) : Diagnostic :=
  .error (s.name ++ ": " ++ FileSetError.overflow.message) ⟨0, 0⟩

/-- The sources of a layout for which there was a place. -/
def seated (layout : List (Source × Option Placement)) : List (Source × Placement) :=
  layout.filterMap fun x => x.2.map (x.1, ·)

/-- What is reported while the sources of a layout are read. -/
def diagnosticsOf (layout : List (Source × Option Placement)) : List Diagnostic :=
  layout.flatMap fun x =>
    match x.2 with
    | some ρ => x.1.alone.diagnostics.map (Diagnostic.placed ρ)
    | none => [x.1.refusal]

namespace Board

variable (b : Board) (s : Source) (ss : List Source)

/-- A board with the files that were parsed on the way to it. -/
def parsed (fs : List File) (ds : List Diagnostic) : ParsedSources :=
  ⟨b.files, b.symbols, fs, ds⟩

theorem layout_cons_of_fits (h : b.fits s = true) :
    b.layout (s :: ss) = (s, some b.placement) :: (b.put s).layout ss := if_pos h

theorem layout_cons_of_not_fits (h : b.fits s = false) :
    b.layout (s :: ss) = (s, none) :: b.layout ss := by simp [layout, h]

theorem after_cons_of_fits (h : b.fits s = true) : b.after (s :: ss) = (b.put s).after ss := if_pos h

theorem after_cons_of_not_fits (h : b.fits s = false) : b.after (s :: ss) = b.after ss := by
  simp [after, h]

theorem put_next_ne : (b.put s).files.next ≠ 0 := Nat.succ_ne_zero _

theorem add_of_fits (fs : List File) (ds : List Diagnostic) (hnext : b.files.next ≠ 0)
    (h : b.fits s = true) :
    (b.parsed fs ds).add s = (b.put s).parsed (fs ++ [s.alone.file.placed b.placement])
      (ds ++ s.alone.diagnostics.map (Diagnostic.placed b.placement)) := by
  have hfit : ¬ positionBound ≤ b.files.next + s.text.utf8ByteSize + 1 :=
    Nat.not_le.2 (of_decide_eq_true h)
  unfold ParsedSources.add
  simp only [parsed, parseFile_eq b.files b.symbols s hnext, if_neg hfit]
  rfl

theorem add_of_not_fits (fs : List File) (ds : List Diagnostic) (hnext : b.files.next ≠ 0)
    (h : b.fits s = false) : (b.parsed fs ds).add s = b.parsed fs (ds ++ [s.refusal]) := by
  have hfit : positionBound ≤ b.files.next + s.text.utf8ByteSize + 1 :=
    Nat.not_lt.1 (of_decide_eq_false h)
  unfold ParsedSources.add
  simp only [parsed, parseFile_eq b.files b.symbols s hnext, if_pos hfit]
  rfl

theorem foldl_add (fs : List File) (ds : List Diagnostic) (hnext : b.files.next ≠ 0) :
    ss.foldl ParsedSources.add (b.parsed fs ds) = (b.after ss).parsed
      (fs ++ (seated (b.layout ss)).map fun x => x.1.alone.file.placed x.2)
      (ds ++ diagnosticsOf (b.layout ss)) := by
  induction ss generalizing b fs ds with
  | nil => simp [after, layout, seated, diagnosticsOf]
  | cons s ss ih =>
    cases hfit : b.fits s with
    | true =>
      rw [List.foldl_cons, b.add_of_fits s fs ds hnext hfit, ih _ _ _ (b.put_next_ne s),
        b.layout_cons_of_fits s ss hfit, b.after_cons_of_fits s ss hfit]
      simp [seated, diagnosticsOf]
    | false =>
      rw [List.foldl_cons, b.add_of_not_fits s fs ds hnext hfit, ih _ _ _ hnext,
        b.layout_cons_of_not_fits s ss hfit, b.after_cons_of_not_fits s ss hfit]
      simp [seated, diagnosticsOf]

end Board

/-- What is parsed of many sources is what is parsed of each of them, placed. -/
theorem parseSources_eq (ss : List Source) :
    parseSources ss = (Board.empty.after ss).parsed
      ((seated (Board.empty.layout ss)).map fun x => x.1.alone.file.placed x.2)
      (diagnosticsOf (Board.empty.layout ss)) :=
  Board.foldl_add .empty ss [] [] Nat.one_ne_zero

attribute [irreducible] Source.parsed

end Idl
