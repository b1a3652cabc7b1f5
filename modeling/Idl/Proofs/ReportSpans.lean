/-
Idl/Proofs/ReportSpans.lean

The text that a report is about.

What is reported while a file is parsed is about a token, about a part of a token, or about an
identifier.  All of these lie in the file, but for the identifiers that stand in for missing ones:
these count as a byte wide, also where the file ends and there is no byte.  Only one report is about
such an identifier, the one about a constant without a value.

Main result: every report lies in its file, unless the file ends in the keyword of a constant
(`diagnostics_within`).
-/
import Idl.Proofs.Isolation
import Idl.Proofs.Token.Literals

namespace Idl

/-! ### Spans in a file -/

namespace SourceFile

variable {f : SourceFile}

/-- What lies in a part of the file lies in the file. -/
theorem Holds.inside {s t : Span} (h : f.Holds s) (hin : s.contains t = true)
    (hordered : t.start ≤ t.stop) : f.Holds t := by
  simp only [Span.contains, Bool.and_eq_true, decide_eq_true_eq] at hin
  exact ⟨Nat.le_trans h.start hin.1, hordered, Nat.le_trans hin.2 h.stop⟩

variable (ρ : Placement)

/-- A span that lies in a file lies in it wherever the file is placed. -/
theorem Holds.placed {s : Span} (h : f.Holds s) (hbase : f.base ≠ 0) :
    (f.placed ρ).Holds (s.placed ρ) := by
  have hstart : s.start ≠ 0 := fun h0 => hbase (Nat.le_zero.1 (h0 ▸ h.start))
  have hsize : (f.placed ρ).base + (f.placed ρ).size = f.base + f.size + ρ.shift :=
    Nat.add_right_comm ..
  unfold Span.placed
  rw [if_neg hstart]
  constructor
  · exact Nat.add_le_add_right h.start _
  · exact Nat.add_le_add_right h.ordered _
  · rw [hsize]
    exact Nat.add_le_add_right h.stop _

/-- The error at the end of a file moves with the file. -/
theorem constAtEnd_placed (hbase : f.base ≠ 0) :
    f.constAtEnd.placed ρ = (f.placed ρ).constAtEnd := by
  have hend : f.base + f.size ≠ 0 := fun h => hbase (Nat.add_eq_zero_iff.1 h).1
  have hsize : (f.placed ρ).base + (f.placed ρ).size = f.base + f.size + ρ.shift :=
    Nat.add_right_comm ..
  unfold constAtEnd
  rw [Diagnostic.placed_error, Span.ofWidth_placed, ρ.pos_of_ne hend, hsize]

end SourceFile

/-! ### Reports of a source -/

namespace Source

variable (s : Source)

/-- A token of a source lies in the source. -/
theorem token_held {t : ScannedToken} (ht : t ∈ s.scanned.1.tokens) :
    s.alone.source.Holds t.token.span := by
  have hwithin := (tokensFrom_within 1 s.text.toList).1 t ht
  obtain ⟨-, hbase, hsize⟩ := s.alone_source
  constructor
  · rw [hbase]
    exact hwithin.start
  · exact hwithin.ordered
  · rw [hbase, hsize, utf8ByteSize_eq]
    exact hwithin.ends

/-- What is wrong with a token lies in the token. -/
theorem lexical_held {d : Diagnostic} (hd : d ∈ s.lexical) : s.alone.source.Holds d.span := by
  obtain ⟨e, he, rfl⟩ := List.mem_map.1 hd
  obtain ⟨t, ht, het⟩ := List.mem_flatMap.1 he
  have htoken := s.token_held ht
  obtain ⟨p, c, ds, rfl⟩ := exists_read ht
  obtain ⟨hlt, hinside⟩ := ScannedToken.read_faults e het
  exact htoken.inside hinside (Nat.le_of_lt hlt)

/-- A name that is declared twice is there, and so it lies in the source. -/
theorem redeclarations_held {d : Diagnostic}
    (hd : d ∈ redeclarations s.alone.source (declarations s.events)) :
    s.alone.source.Holds d.span := by
  obtain ⟨x, hx, rfl⟩ := List.mem_map.1 hd
  obtain ⟨before, after, key, -, hkey, -⟩ := mem_repeats.1 hx
  obtain ⟨i, hi, hname, hpos⟩ := s.exists_declared ((repeats_sublist [] _).subset hx)
  -- the blank name is never a repetition, and every other one is a token
  have hblank : i.isBlank = false := by
    obtain ⟨-, hkeyname, hne⟩ := Declaration.key_eq_some.1 (hkey : x.key = some (key.1, key.2))
    exact decide_eq_false (by rwa [hname, hkeyname])
  have hspan : i.span = .ofWidth x.2.pos x.2.name.utf8ByteSize := by
    rw [Ident.span, hname, hpos]
  show s.alone.source.Holds (.ofWidth x.2.pos x.2.name.utf8ByteSize)
  exact hspan ▸ s.reading.held i hi hblank

/-- The last token of the source, comments and illegal text apart, is of the kind. -/
def EndsIn (k : TokenKind) : Prop := s.start.EndsIn k

/-- Whatever is reported of a source lies in it, unless the source ends in the middle of a constant. -/
theorem diagnostics_shown {d : Diagnostic} (hd : d ∈ s.alone.diagnostics) :
    s.alone.source.Holds d.span ∨
      s.EndsIn (.keyword .const) ∧ d = s.alone.source.constAtEnd := by
  obtain ⟨reports, hperm, hreports, -⟩ := s.reading.diagnostics
  rcases List.mem_append.1 (hperm.mem_iff.1 hd) with hd | hd
  · rcases List.mem_append.1 hd with hd | hd
    · exact .inl (s.lexical_held hd)
    · exact (hreports d hd).2.2
  · exact .inl (s.redeclarations_held hd)

end Source

/-! ### Reports of a file -/

/-- **Reports lie in their file.**  Whatever is reported while a file is parsed starts in the file that
is registered for it, ends in it, and not before it starts; only if the last token of the file is the
keyword of a constant, the error about that constant reaches a byte beyond. -/
theorem diagnostics_within {files : FileSet} {symbols : SymbolTable} {s : Source} {r : ParseResult}
    (hbegun : files.next ≠ 0) (hparse : parseFile files symbols s.name s.text = .ok r) :
    ∃ f, r.files.files[r.file.id]? = some f ∧ f.base = files.next ∧
      f.size = s.text.utf8ByteSize ∧ ∀ d ∈ r.diagnostics,
        (f.base ≤ d.span.start ∧ d.span.start ≤ d.span.stop ∧ d.span.stop ≤ f.base + f.size) ∨
          s.EndsIn (.keyword .const) ∧
            d = .error "missing constant value" ⟨f.base + f.size, f.base + f.size + 1⟩ := by
  let ρ := Placement.behind files symbols
  obtain ⟨-, hbase, hsize⟩ := s.alone_source
  -- alone, the source starts at 1; behind the files it starts at the first free position
  have hplaced : (s.alone.source.placed ρ).base = files.next := by
    show s.alone.source.base + (files.next - 1) = _
    rw [hbase]
    unfold Pos at *
    omega
  rw [parseFile_eq files symbols s hbegun] at hparse
  split at hparse
  · cases hparse
  · obtain rfl := Except.ok.inj hparse
    refine ⟨s.alone.source.placed ρ, Array.getElem?_push_size, hplaced, hsize, ?_⟩
    refine List.forall_mem_map.2 fun d hd => ?_
    have hbegins : s.alone.source.base ≠ 0 := by rw [hbase]; exact Nat.one_ne_zero
    rcases s.diagnostics_shown hd with h | ⟨hconst, rfl⟩
    · have hplaced := h.placed ρ hbegins
      exact .inl ⟨hplaced.start, hplaced.ordered, hplaced.stop⟩
    · exact .inr ⟨hconst, SourceFile.constAtEnd_placed ρ hbegins⟩

/-- A source about whose tokens, names and syntax something is reported, up to its very end. -/
def endsInLiteral : Source :=
  ⟨"a.mid", "package p\nconst A = 1\nconst A\nconst ?\nenum \"\\q"⟩

theorem diagnostics_within_literal : FileSet.next {} ≠ 0 ∧
    ∃ r, parseFile {} {} endsInLiteral.name endsInLiteral.text = .ok r ∧
      r.diagnostics.length = 10 ∧
      ∃ f, r.files.files[r.file.id]? = some f ∧ f.base = FileSet.next {} ∧
        f.size = endsInLiteral.text.utf8ByteSize ∧ ∀ d ∈ r.diagnostics,
          (f.base ≤ d.span.start ∧ d.span.start ≤ d.span.stop ∧ d.span.stop ≤ f.base + f.size) ∨
            endsInLiteral.EndsIn (.keyword .const) ∧
              d = .error "missing constant value" ⟨f.base + f.size, f.base + f.size + 1⟩ := by
  have hbegun : FileSet.next {} ≠ 0 := by decide
  obtain ⟨r, hr, -, -, hdiagnostics, -⟩ :=
    FileSet.Admits.parseFile (s := endsInLiteral) ⟨hbegun, by decide +kernel⟩ {}
  refine ⟨hbegun, r, hr, ?_, diagnostics_within hbegun hr⟩
  rw [hdiagnostics, List.length_map]
  decide +kernel

/-- A file that ends where the name of a constant is missing. -/
def endsInConst : Source := ⟨"a.mid", "package p\nconst"⟩

/-- The constant at the end is reported behind the file, which ends at 16. -/
theorem constAtEnd_outside : ∃ r, parseFile {} {} endsInConst.name endsInConst.text = .ok r ∧
    ∃ f, r.files.files[r.file.id]? = some f ∧
      ∃ d ∈ r.diagnostics, ¬ (f.base ≤ d.span.start ∧ d.span.start ≤ d.span.stop ∧
        d.span.stop ≤ f.base + f.size) := by
  have hparse := parseFile_eq {} {} endsInConst (by decide)
  rw [if_neg (by decide +kernel)] at hparse
  refine ⟨_, hparse, _, Array.getElem?_push_size, .error "missing constant value" ⟨16, 17⟩, ?_, ?_⟩
  · decide +kernel
  · decide +kernel

end Idl
