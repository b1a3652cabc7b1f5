/-
Idl/Proofs/Placeholders.lean

What could not be parsed is reported.

Whatever looks at a tree later on keeps silent about its bad nodes, because parsing has reported
them.  The report is about the place where the node starts.  The value of a constant may be a copy
of the one before it; then its place is that of the original, and so is the report.

Main result: an error starts where a bad node of a parsed file starts (`bad_nodes_explained`).
-/
import Idl.Proofs.Ir.Placed
import Idl.Proofs.Isolation

namespace Idl

/-- A bad node, as what it stands in for and its span. -/
theorem Node.isBad_iff {n : Node} : n.isBad = true ↔ ∃ what span, n = .bad what span := by
  constructor
  · intro h
    cases n with
    | bad what span => exact ⟨what, span, rfl⟩
    | _ => cases h
  · rintro ⟨what, span, rfl⟩
    rfl

/-- A bad node of a placed tree is a placed bad node of the tree. -/
theorem File.bad_of_placed (ρ : Placement) {f : File} {what : BadNode} {span : Span}
    (h : .bad what span ∈ (f.placed ρ).tree.nodes) :
    ∃ original, .bad what original ∈ f.tree.nodes ∧ span.start = ρ.pos original.start := by
  have hbads : (what, span) ∈ (f.placed ρ).tree.bads := List.mem_filterMap.2 ⟨_, h, rfl⟩
  rw [f.bads_placed ρ] at hbads
  obtain ⟨x, hx, hplaced⟩ := List.mem_map.1 hbads
  obtain ⟨rfl, rfl⟩ := Prod.mk.inj hplaced
  exact ⟨x.2, Tree.mem_bads hx, rfl⟩

/-- A source that is parsed alone explains its bad nodes: each of them is a fault of the account,
and faults are reported. -/
theorem Source.bad_explained (s : Source) {what : BadNode} {span : Span}
    (h : .bad what span ∈ s.alone.file.tree.nodes) :
    ∃ d ∈ s.alone.diagnostics, d.isError = true ∧ d.span.start = span.start := by
  obtain ⟨reports, hperm, hreports, hfaults⟩ := s.reading.diagnostics
  have hfault : span.start ∈ s.account.faults :=
    s.alone.file.faults_of_badAt 1 ⟨what, span, h, rfl⟩
  obtain ⟨d, hd, hstart⟩ := hfaults span.start hfault
  refine ⟨d, ?_, (hreports d hd).1.isError, hstart⟩
  exact hperm.mem_iff.2 (List.mem_append_left _ (List.mem_append_right _ hd))

/-- **Bad nodes are explained.**  Where a bad declaration, type or value of a parsed file starts, there
starts an error that is reported for the file. -/
theorem bad_nodes_explained {files : FileSet} {symbols : SymbolTable} {s : Source} {r : ParseResult}
    (hbegun : files.next ≠ 0) (hparse : parseFile files symbols s.name s.text = .ok r) :
    ∀ n ∈ r.file.tree.nodes, n.isBad = true →
      ∃ d ∈ r.diagnostics, d.isError = true ∧ d.span.start = n.begin := by
  intro n hn hbad
  obtain ⟨what, span, rfl⟩ := Node.isBad_iff.1 hbad
  rw [parseFile_eq files symbols s hbegun] at hparse
  split at hparse
  · cases hparse
  · obtain rfl := Except.ok.inj hparse
    -- what is parsed behind other files is the source parsed alone, and placed
    obtain ⟨original, horiginal, hstart⟩ := File.bad_of_placed _ hn
    obtain ⟨d, hd, herror, hplace⟩ := s.bad_explained horiginal
    refine ⟨d.placed _, List.mem_map_of_mem hd, herror, ?_⟩
    show (d.span.placed _).start = span.start
    rw [Span.placed_start, hplace, hstart]

/-- A source with bad nodes: the value of a constant and of those that inherit it, the size of an
array in a map, a type in a parameter, the value of a member, and a declaration. -/
def fullOfHoles : Source := ⟨"a.mid", String.intercalate "\n"
  ["package p", "const (", "  A = ;", "  B", "  C", ")", "struct S { map<string, array<int32, >> a }",
    "service T { f(vector<>) }", "enum E { X = }", "nonsense", ""]⟩

theorem bad_nodes_explained_holes : FileSet.next {} ≠ 0 ∧
    ∃ r, parseFile {} {} fullOfHoles.name fullOfHoles.text = .ok r ∧
      (r.file.tree.nodes.filter Node.isBad).map Node.begin = [25, 25, 25, 73, 101, 119, 121] ∧
      ∀ n ∈ r.file.tree.nodes, n.isBad = true →
        ∃ d ∈ r.diagnostics, d.isError = true ∧ d.span.start = n.begin := by
  have hbegun : FileSet.next {} ≠ 0 := by decide
  have hbad : (parseFile {} {} fullOfHoles.name fullOfHoles.text).toOption.map
      (fun r => (r.file.tree.nodes.filter Node.isBad).map Node.begin) =
        some [25, 25, 25, 73, 101, 119, 121] := by decide +kernel
  obtain ⟨r, hr, -⟩ :=
    FileSet.Admits.parseFile (s := fullOfHoles) ⟨hbegun, by decide +kernel⟩ {}
  rw [hr] at hbad
  exact ⟨hbegun, r, hr, Option.some.inj hbad, bad_nodes_explained hbegun hr⟩

end Idl
