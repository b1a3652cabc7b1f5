/-
Idl/Proofs/Isolation.lean

Files are parsed in isolation.

Parsing a source behind other files gives what parsing it alone gives, placed behind them
(`parseFile_eq`).  So two readings of one source, wherever they happen, have one origin and differ
by a renaming only: positions move by the distance of the two bases, files, scopes and objects are
numbered behind those that are there, and no message changes.  For the diagnostics this needs that
none of them is about the position of nothing (`Source.diagnostics_owned`).

Main result: `parseFile_renamed`.
-/
import Idl.Proofs.Redeclaration

namespace Idl

/-! ### Reports stand in their source -/

namespace Source

variable (s : Source)

/-- What is wrong with a token is wrong somewhere in the source. -/
theorem lexical_owned {d : Diagnostic} (hd : d ∈ s.lexical) :
    s.alone.source.Owns d.span.start := by
  obtain ⟨e, he, rfl⟩ := List.mem_map.1 hd
  obtain ⟨t, ht, het⟩ := List.mem_flatMap.1 he
  obtain ⟨hlow, hhigh⟩ := ((tokensFrom_within 1 s.text.toList).1 t ht).faults e het
  obtain ⟨-, hbase, hsize⟩ := s.alone_source
  refine SourceFile.owns_iff.2 ⟨Nat.ne_of_gt hlow, ?_⟩
  rw [hbase, hsize, utf8ByteSize_eq]
  exact ⟨hlow, hhigh⟩

/-- Whatever is reported of a source is about a place in it. -/
theorem diagnostics_owned {d : Diagnostic} (hd : d ∈ s.alone.diagnostics) :
    s.alone.source.Owns d.span.start := by
  obtain ⟨reports, hperm, hreports, -⟩ := s.reading.diagnostics
  rcases List.mem_append.1 (hperm.mem_iff.1 hd) with hd | hd
  · exact (List.mem_append.1 hd).elim s.lexical_owned fun h => (hreports d h).2.1
  · obtain ⟨x, hx, rfl⟩ := List.mem_map.1 hd
    exact (s.declaration_spot ((repeats_sublist [] _).subset hx)).2

end Source

/-! ### Two readings of one source -/

/-- A position of one reading and the same one of another: the position of nothing stays, and every
other one is `moved` further. -/
def Pos.Moved (moved : Int) (p p' : Pos) : Prop :=
  (p = 0 ↔ p' = 0) ∧ (p ≠ 0 → (p' : Int) = p + moved)

/-- A report of one reading and the same one of another. -/
structure Diagnostic.Moved (moved : Int) (d d' : Diagnostic) : Prop where
  severity : d'.severity = d.severity
  message : d'.message = d.message
  hint : d'.hint = d.hint
  start : Pos.Moved moved d.span.start d'.span.start
  stop : (d'.span.stop : Int) = d.span.stop + moved

/-- Two readings of one source, at two places, that differ by a renaming. -/
structure ParseResult.Renamed (moved : Int) (ρ ρ' : Placement) (r r' : ParseResult) : Prop where
  positions : ∀ p, Pos.Moved moved (ρ.pos p) (ρ'.pos p)
  /-- Both trees are one tree, with its positions moved, and with its file, scopes and objects
  numbered as the two places ask for. -/
  file : ∃ f : File, r.file = f.placed ρ ∧ r'.file = f.placed ρ'
  symbols : ∃ t : SymbolTable, r.symbols = t.placed ρ ∧ r'.symbols = t.placed ρ'
  diagnostics : r.diagnostics.Forall₂ (Diagnostic.Moved moved) r'.diagnostics

namespace Placement

variable (ρ ρ' : Placement)

theorem moved_pos (p : Pos) : Pos.Moved (ρ'.shift - ρ.shift) (ρ.pos p) (ρ'.pos p) := by
  refine ⟨by rw [pos_eq_zero, pos_eq_zero], fun h => ?_⟩
  have hp : p ≠ 0 := fun h0 => h (ρ.pos_eq_zero.2 h0)
  rw [ρ.pos_of_ne hp, ρ'.pos_of_ne hp]
  unfold Pos at *
  omega

/-- A report about something differs by the distance of the places. -/
theorem moved_diagnostic {d : Diagnostic} (h : d.span.start ≠ 0) :
    Diagnostic.Moved (ρ'.shift - ρ.shift) (d.placed ρ) (d.placed ρ') := by
  have hstop (ρ : Placement) : (d.placed ρ).span.stop = d.span.stop + ρ.shift := by
    show (d.span.placed ρ).stop = _
    unfold Span.placed
    rw [if_neg h]
  refine ⟨rfl, rfl, rfl, ?_, ?_⟩
  · show Pos.Moved _ (d.span.placed ρ).start (d.span.placed ρ').start
    rw [Span.placed_start, Span.placed_start]
    exact ρ.moved_pos ρ' d.span.start
  · rw [hstop, hstop]
    unfold Pos at *
    omega

end Placement

/-- A file set that was begun, and has positions left for a source. -/
structure FileSet.Admits (fs : FileSet) (s : Source) : Prop where
  begun : fs.next ≠ 0
  room : fs.next + s.text.utf8ByteSize + 1 < positionBound

/-- Adding files to a file set never undoes its beginning. -/
theorem FileSet.next_ne_of_addFile {fs fs' : FileSet} {name : String} {base? : Option Pos}
    {size : Nat} {id : FileId} (h : fs.addFile name base? size = .ok (id, fs')) : fs'.next ≠ 0 := by
  unfold addFile at h
  dsimp only at h
  split at h
  · cases h
  · split at h
    · cases h
    · injection h with h
      obtain ⟨-, rfl⟩ := Prod.mk.inj h
      exact Nat.succ_ne_zero _

/-- What is read where there is room is the source alone, placed behind what is there. -/
theorem FileSet.Admits.parseFile {fs : FileSet} {s : Source} (h : fs.Admits s)
    (symbols : SymbolTable) : ∃ r, parseFile fs symbols s.name s.text = .ok r ∧
      r.file = s.alone.file.placed (.behind fs symbols) ∧
      r.symbols = s.alone.symbols.placed (.behind fs symbols) ∧
      r.diagnostics = s.alone.diagnostics.map (Diagnostic.placed (.behind fs symbols)) ∧
      symbols.Within r.symbols := by
  have hparse := parseFile_eq fs symbols s h.begun
  rw [if_neg (Nat.not_le.2 h.room)] at hparse
  exact ⟨_, hparse, rfl, rfl, rfl, SymbolTable.within_placed (.behind fs symbols) _⟩

/-- Reading a source behind some files gives the same as reading it behind others, up to a renaming
that moves positions by the distance of the bases, and changes no scope and no object that was there
before. -/
theorem parseFile_renamed (s : Source) {files files' : FileSet} (symbols symbols' : SymbolTable)
    (h : files.Admits s) (h' : files'.Admits s) :
    ∃ r r', parseFile files symbols s.name s.text = .ok r ∧
      parseFile files' symbols' s.name s.text = .ok r' ∧
      r.Renamed (files'.next - files.next) (.behind files symbols) (.behind files' symbols') r' ∧
      symbols.Within r.symbols ∧ symbols'.Within r'.symbols := by
  obtain ⟨r, hr, hfile, hsymbols, hdiagnostics, hwithin⟩ := h.parseFile symbols
  obtain ⟨r', hr', hfile', hsymbols', hdiagnostics', hwithin'⟩ := h'.parseFile symbols'
  have hmoved : ((Placement.behind files' symbols').shift : Int) -
      (Placement.behind files symbols).shift = files'.next - files.next := by
    have hbegun := h.begun
    have hbegun' := h'.begun
    show ((files'.next - 1 : Nat) : Int) - ((files.next - 1 : Nat) : Int) = _
    unfold Pos at *
    omega
  rw [← hmoved]
  refine ⟨r, r', hr, hr', ⟨?_, ⟨_, hfile, hfile'⟩, ⟨_, hsymbols, hsymbols'⟩, ?_⟩, hwithin, hwithin'⟩
  · exact Placement.moved_pos _ _
  · rw [hdiagnostics, hdiagnostics', List.forall₂_map_left_iff, List.forall₂_map_right_iff,
      List.forall₂_same]
    intro d hd
    exact Placement.moved_diagnostic _ _ (s.diagnostics_owned hd).1

/-- A source with errors of all sorts, read first and read behind a file of 998 bytes that has a
scope. -/
theorem parseFile_renamed_behind :
    let s : Source := ⟨"a.schema", "package p struct S \x7b int32 a a  S ? b \x7d"⟩
    let behind : FileSet := ⟨1000, #[⟨"b.schema", 1, 998, #[0], #[]⟩]⟩
    let symbols : SymbolTable := ⟨#[⟨none, []⟩], #[]⟩
    FileSet.Admits {} s ∧ behind.Admits s ∧
      ∃ r r', parseFile {} {} s.name s.text = .ok r ∧
        parseFile behind symbols s.name s.text = .ok r' ∧
        r.Renamed 999 (.behind {} {}) ⟨999, 1, symbols⟩ r' ∧ symbols.Within r'.symbols := by
  intro s behind symbols
  have hadd : FileSet.addFile {} "b.schema" none 998 = .ok (0, behind) := rfl
  have h : FileSet.Admits {} s := ⟨by decide, by decide +kernel⟩
  have h' : behind.Admits s := ⟨FileSet.next_ne_of_addFile hadd, by decide +kernel⟩
  obtain ⟨r, r', hr, hr', hrenamed, -, hwithin⟩ := parseFile_renamed s {} symbols h h'
  exact ⟨h, h', r, r', hr, hr', hrenamed, hwithin⟩

end Idl
