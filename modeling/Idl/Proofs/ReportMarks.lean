/-
Idl/Proofs/ReportMarks.lean

The part of a text that a report marks.

A report takes the span of a diagnostic as offsets in a file and cuts it down to a text.  The span may
begin before the file, end behind it or miss it altogether, and the text need not be the one that the
file was registered for.  On the way two differences are taken: the length of the span, and the number
of bytes behind the offset.  Differences of natural numbers stop at zero, which would hide a mistake.
So the marked part is computed once more with partial differences (`Report.marked?`), and that fails
only for a span that ends before it starts.

Main results: what a report marks lies in the text, and it is what the span covers of it
(`Report.marks_within`); what is reported while a file is parsed is marked where it stands, also the
one error that reaches beyond the file (`parseFile_marked`).
-/
import Idl.Proofs.ReportSpans
import Idl.Report
import Mathlib.Data.Nat.PSub

namespace Idl

/-! ### Spans as offsets -/

namespace Span

/-- The number of bytes covered, unless the span ends before it starts. -/
def length? (s : Span) : Option Nat := Nat.psub s.stop s.start

theorem length?_of_le {s : Span} (h : s.start ≤ s.stop) : s.length? = some s.length :=
  Nat.psub_eq_sub h

theorem length?_eq_none {s : Span} : s.length? = none ↔ s.stop < s.start := Nat.psub_eq_none

/-- As offsets, a span ends before it starts exactly if it does so as positions and starts behind the
base: what lies before the base is moved to it. -/
theorem relativeTo_reversed {s : Span} {base : Pos} :
    (s.relativeTo base).stop < (s.relativeTo base).start ↔ s.stop < s.start ∧ base < s.start := by
  show s.stop - base < s.start - base ↔ _
  unfold Pos at *
  omega

end Span

namespace Report

/-! ### What is marked -/

/-- Whether a report marks the byte at an offset of its text. -/
def Marks (r : Report) (i : Nat) : Prop := r.offset ≤ i ∧ i < r.offset + r.length

/-- Offset and length of the marked part, if no difference on the way to them is below zero. -/
def marked? (d : Diagnostic) (file : SourceFile) (text : String) : Option (Nat × Nat) := do
  let part := file.localSpan d.span
  let offset := min part.start text.utf8ByteSize
  let covered ← part.length?
  let behind ← Nat.psub text.utf8ByteSize offset
  return (offset, min covered behind)

section Marked

variable (d : Diagnostic) (file : SourceFile) (text : String)

/-- A difference is below zero only for a span that ends before it starts, and that starts behind
the base of the file; otherwise a report has just this offset and length. -/
theorem marked?_eq : marked? d file text =
    if d.span.stop < d.span.start ∧ file.base < d.span.start then none
    else some ((ofDiagnostic d file text).offset, (ofDiagnostic d file text).length) := by
  by_cases h : d.span.stop < d.span.start ∧ file.base < d.span.start
  · have hcovered : (file.localSpan d.span).length? = none :=
      Span.length?_eq_none.2 (Span.relativeTo_reversed.2 h)
    rw [if_pos h]
    unfold marked?
    dsimp only
    rw [hcovered]
    rfl
  · have hcovered : (file.localSpan d.span).length? = some (file.localSpan d.span).length :=
      Span.length?_of_le (Nat.not_lt.1 (mt Span.relativeTo_reversed.1 h))
    -- the offset is cut down to the text before anything is taken from the text
    have hbehind := Nat.psub_eq_sub (Nat.min_le_right (file.localSpan d.span).start text.utf8ByteSize)
    rw [if_neg h]
    unfold marked?
    dsimp only
    rw [hcovered, Option.bind_eq_bind, Option.bind_some, hbehind]
    rfl

/-- What is marked ends in the text. -/
theorem offset_add_length_le :
    (ofDiagnostic d file text).offset + (ofDiagnostic d file text).length ≤ text.utf8ByteSize :=
  calc (ofDiagnostic d file text).offset + (ofDiagnostic d file text).length
      ≤ (ofDiagnostic d file text).offset +
          (text.utf8ByteSize - (ofDiagnostic d file text).offset) :=
        Nat.add_le_add_left (Nat.min_le_right ..) _
    _ = text.utf8ByteSize := Nat.add_sub_of_le (Nat.min_le_right ..)

variable {d file text}

/-- For a span that does not end before it starts, both differences are there. -/
theorem marked?_of_ordered (h : d.span.start ≤ d.span.stop) : marked? d file text =
    some ((ofDiagnostic d file text).offset, (ofDiagnostic d file text).length) := by
  rw [marked?_eq, if_neg fun hreversed => Nat.not_lt.2 h hreversed.1]

/-- What is marked ends where the span does, or with the text. -/
theorem offset_add_length (h : d.span.start ≤ d.span.stop) :
    (ofDiagnostic d file text).offset + (ofDiagnostic d file text).length =
      min (d.span.stop - file.base) text.utf8ByteSize := by
  have hcut {a b n : Nat} (hle : a ≤ b) : min a n + min (b - a) (n - min a n) = min b n := by
    omega
  exact hcut (Nat.sub_le_sub_right h file.base)

/-- A byte of the text is marked exactly if the span covers its position. -/
theorem marks_iff (h : d.span.start ≤ d.span.stop) (i : Nat) :
    (ofDiagnostic d file text).Marks i ↔
      i < text.utf8ByteSize ∧ d.span.start ≤ file.base + i ∧ file.base + i < d.span.stop := by
  have hstart : (ofDiagnostic d file text).offset ≤ i ↔
      d.span.start ≤ file.base + i ∨ text.utf8ByteSize ≤ i := by
    rw [← Nat.sub_le_iff_le_add']
    exact min_le_iff
  have hstop : i < min (d.span.stop - file.base) text.utf8ByteSize ↔
      file.base + i < d.span.stop ∧ i < text.utf8ByteSize := by
    rw [lt_min_iff, Nat.lt_sub_iff_add_lt']
  unfold Marks
  rw [offset_add_length h, hstart, hstop]
  constructor
  · rintro ⟨hstart | hout, hstop, hin⟩
    · exact ⟨hin, hstart, hstop⟩
    · exact absurd hin (Nat.not_lt.2 hout)
  · rintro ⟨hin, hstart, hstop⟩
    exact ⟨.inl hstart, hstop, hin⟩

/-- Beside the text of the file, a span in the file is marked as it is. -/
theorem ofDiagnostic_of_holds (hsize : text.utf8ByteSize = file.size) (h : file.Holds d.span) :
    (ofDiagnostic d file text).offset = d.span.start - file.base ∧
      (ofDiagnostic d file text).length = d.span.stop - d.span.start := by
  have hstop : d.span.stop - file.base ≤ text.utf8ByteSize := by
    rw [hsize]
    exact Nat.sub_le_iff_le_add'.2 h.stop
  have hoffset : (ofDiagnostic d file text).offset = d.span.start - file.base :=
    Nat.min_eq_left (Nat.le_trans (Nat.sub_le_sub_right h.ordered _) hstop)
  refine ⟨hoffset, ?_⟩
  have hend : (ofDiagnostic d file text).offset + (ofDiagnostic d file text).length =
      min (d.span.stop - file.base) text.utf8ByteSize := offset_add_length h.ordered
  rw [hoffset, Nat.min_eq_left hstop] at hend
  calc (ofDiagnostic d file text).length
      = d.span.stop - file.base - (d.span.start - file.base) := Nat.eq_sub_of_add_eq' hend
    _ = d.span.stop - d.span.start := Nat.sub_sub_sub_cancel_right h.start

/-- A span in the file is marked, beside the text of the file, from its offset on and in full. -/
theorem marked?_of_holds (hsize : text.utf8ByteSize = file.size) (h : file.Holds d.span) :
    marked? d file text = some (d.span.start - file.base, d.span.stop - d.span.start) := by
  obtain ⟨hoffset, hlength⟩ := ofDiagnostic_of_holds hsize h
  rw [marked?_of_ordered h.ordered, hoffset, hlength]

/-- The byte behind the file, which the error about a constant at the end is about, is cut off. -/
theorem marked?_constAtEnd (hsize : text.utf8ByteSize = file.size) :
    marked? file.constAtEnd file text = some (file.size, 0) := by
  have hordered : file.constAtEnd.span.start ≤ file.constAtEnd.span.stop := Nat.le_add_right ..
  have hoffset : (ofDiagnostic file.constAtEnd file text).offset = file.size := by
    show min (file.base + file.size - file.base) text.utf8ByteSize = _
    rw [Nat.add_sub_cancel_left, hsize, Nat.min_self]
  -- behind the offset nothing is left of the text
  have hend := offset_add_length_le file.constAtEnd file text
  rw [hoffset, hsize] at hend
  have hlength : (ofDiagnostic file.constAtEnd file text).length = 0 :=
    Nat.le_zero.1 (Nat.le_of_add_le_add_left hend)
  rw [marked?_of_ordered hordered, hoffset, hlength]

end Marked

/-- **Reports stay in their text.**  Whatever the file and the text are, for a span that does not end
before it starts no difference is below zero.  What the report marks ends in the text, and is made up
of the bytes of the text whose positions the span covers.  If the text has the size of the file and
the span lies in the file, the span is marked from its own offset on and in its own length. -/
theorem marks_within (d : Diagnostic) (file : SourceFile) (text : String)
    (h : d.span.start ≤ d.span.stop) :
    let r := ofDiagnostic d file text
    marked? d file text = some (r.offset, r.length) ∧
    r.offset + r.length ≤ text.utf8ByteSize ∧
    (∀ i, r.Marks i ↔
      i < text.utf8ByteSize ∧ d.span.start ≤ file.base + i ∧ file.base + i < d.span.stop) ∧
    (text.utf8ByteSize = file.size → file.base ≤ d.span.start →
      d.span.stop ≤ file.base + file.size →
      r.offset = d.span.start - file.base ∧ r.length = d.span.stop - d.span.start) := by
  refine ⟨marked?_of_ordered h, offset_add_length_le d file text, marks_iff h, ?_⟩
  intro hsize hstart hstop
  exact ofDiagnostic_of_holds hsize ⟨hstart, h, hstop⟩

/-- A report about the last declaration of a file that sits behind another one. -/
theorem marks_within_unclosed :
    let file : SourceFile := { name := "b.mid", base := 12, size := 26 }
    let text := "package p\n// é\nstruct S \x7b"
    let d := Diagnostic.error "expected '\x7d'" ⟨28, 34⟩
    let r := ofDiagnostic d file text
    d.span.start ≤ d.span.stop ∧ text.utf8ByteSize = file.size ∧ file.base ≤ d.span.start ∧
      d.span.stop ≤ file.base + file.size ∧ marked? d file text = some (16, 6) ∧
      r.offset = 16 ∧ r.length = 6 ∧ r.Marks 21 ∧ ¬ r.Marks 22 := by
  intro file text d r
  have hordered : d.span.start ≤ d.span.stop := by decide
  have hsize : text.utf8ByteSize = file.size := by decide +kernel
  obtain ⟨hmarked, -, hmarks, hexact⟩ := marks_within d file text hordered
  obtain ⟨hoffset, hlength⟩ := hexact hsize (by decide) (by decide)
  rw [hoffset, hlength] at hmarked
  refine ⟨hordered, hsize, by decide, by decide, hmarked, hoffset, hlength, ?_, ?_⟩
  · exact (hmarks 21).2 (by decide +kernel)
  · exact fun h => absurd ((hmarks 22).1 h) (by decide +kernel)

end Report

/-! ### Reports of a file -/

/-- Beside the text of a file, whatever is reported while the file is parsed is marked where it stands.
The error about a constant that the file ends before reaches a byte beyond the file; it marks the end
of the text, and no byte. -/
theorem parseFile_marked {files : FileSet} {symbols : SymbolTable} {s : Source} {r : ParseResult}
    (hbegun : files.next ≠ 0) (hparse : parseFile files symbols s.name s.text = .ok r) :
    ∃ f, r.files.files[r.file.id]? = some f ∧ ∀ d ∈ r.diagnostics,
      Report.marked? d f s.text = some (d.span.start - f.base, d.span.stop - d.span.start) ∨
        s.EndsIn (.keyword .const) ∧ d = f.constAtEnd ∧
          Report.marked? d f s.text = some (f.size, 0) := by
  let ρ := Placement.behind files symbols
  obtain ⟨-, hbase, hsize⟩ := s.alone_source
  have hbegins : s.alone.source.base ≠ 0 := by
    rw [hbase]
    exact Nat.one_ne_zero
  rw [parseFile_eq files symbols s hbegun] at hparse
  split at hparse
  · cases hparse
  · obtain rfl := Except.ok.inj hparse
    refine ⟨s.alone.source.placed ρ, Array.getElem?_push_size, ?_⟩
    refine List.forall_mem_map.2 fun d hd => ?_
    rcases s.diagnostics_shown hd with hholds | ⟨hconst, rfl⟩
    · exact .inl (Report.marked?_of_holds hsize.symm (hholds.placed ρ hbegins))
    · rw [SourceFile.constAtEnd_placed ρ hbegins]
      exact .inr ⟨hconst, rfl, Report.marked?_constAtEnd hsize.symm⟩

end Idl
