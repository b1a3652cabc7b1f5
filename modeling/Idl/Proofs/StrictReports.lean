/-
Idl/Proofs/StrictReports.lean

What a strict compilation reports beyond a lenient one.

The reports of a compilation are sorted once, and again when the unresolved names have joined them as
errors.  Sorting keeps the order of reports at one place, so the second run moves none of the reports
that were sorted before past another one, and puts each of the new errors behind all of them at its place
(`StrictReports.sortDiagnostics`).

Whatever is sorted in is an error, so a strict compilation is free of errors if the lenient one is and
no name is unresolved (`failure?_eq_none`).

Main result: the reports of a strict compilation, and when a strict build fails (`strict_adds`).
-/
import Idl.Proofs.Reordering.Reports
import Idl.Proofs.Work

namespace Idl

/-! ### Reports at one place -/

/-- Whether a report stands at the file name, the line and the column of a place. -/
def Diagnostic.standsAt (files : FileSet) (p : Position) (d : Diagnostic) : Bool :=
  (d.position files).filename = p.filename ∧ (d.position files).line = p.line ∧
    (d.position files).column = p.column

/-- Reports in the order of their places. -/
def Diagnostic.placeLe (files : FileSet) (d e : Diagnostic) : Bool :=
  (d.position files).le (e.position files)

theorem Position.ranksAlike_iff {p q : Position} : ranksAlike Position.le p q = true ↔
    q.filename = p.filename ∧ q.line = p.line ∧ q.column = p.column := by
  unfold ranksAlike
  rw [Bool.and_eq_true]
  constructor
  · rintro ⟨hpq, hqp⟩
    have hname := Position.filename_eq hpq hqp
    have hirrefl : ¬ p.filename < q.filename := hname ▸ String.lt_irrefl _
    have hirrefl' : ¬ q.filename < p.filename := hname ▸ String.lt_irrefl _
    have hpq := (Position.le_iff.1 hpq).resolve_left hirrefl
    have hqp := (Position.le_iff.1 hqp).resolve_left hirrefl'
    exact ⟨hname.symm, by omega⟩
  · rintro ⟨hname, hline, hcolumn⟩
    exact ⟨Position.le_iff.2 (.inr ⟨hname.symm, by omega⟩),
      Position.le_iff.2 (.inr ⟨hname, by omega⟩)⟩

namespace Diagnostic

variable {files : FileSet}

theorem placeLe_trans (d e f : Diagnostic) (h : d.placeLe files e = true)
    (h' : e.placeLe files f = true) : d.placeLe files f = true :=
  Position.le_trans _ _ _ h h'

theorem placeLe_total (d e : Diagnostic) : (d.placeLe files e || e.placeLe files d) = true :=
  Position.le_total ..

/-- Reports of one rank are those at one place. -/
theorem ranksAlike_eq (d : Diagnostic) :
    ranksAlike (placeLe files) d = standsAt files (d.position files) := by
  funext e
  rw [Bool.eq_iff_iff]
  exact Position.ranksAlike_iff.trans decide_eq_true_iff.symm

end Diagnostic

/-- Reports are sorted by their places. -/
theorem sortDiagnostics_eq (files : FileSet) (ds : List Diagnostic) :
    sortDiagnostics files ds = ds.mergeSort (Diagnostic.placeLe files) := by
  have hmap := List.map_mergeSort (f := Prod.snd) (r := fun a b => a.1.le b.1)
    (s := Diagnostic.placeLe files) (l := ds.map fun d => (d.position files, d)) fun a ha b hb => by
      obtain ⟨d, -, rfl⟩ := List.mem_map.1 ha
      obtain ⟨e, -, rfl⟩ := List.mem_map.1 hb
      rfl
  rw [List.map_map] at hmap
  exact hmap.trans (congrArg (List.mergeSort · _) (List.map_id ds))

/-! ### Sorting in -/

/-- The reports `all` are the reports `before`, which keep their order, and the reports `added`.  They
come in the order of their places, and at each place those that are added come last. -/
structure StrictReports (files : FileSet) (before added all : List Diagnostic) : Prop where
  sorted : all.Pairwise fun d e => d.placeLe files e = true
  kept : before.Sublist all
  complete : all.Perm (before ++ added)
  behind : ∀ p, all.filter (Diagnostic.standsAt files p) =
    before.filter (Diagnostic.standsAt files p) ++ added.filter (Diagnostic.standsAt files p)

/-- Sorting once more sorts new reports in. -/
theorem StrictReports.sortDiagnostics {files : FileSet} {before : List Diagnostic}
    (h : before.Pairwise fun d e => d.placeLe files e = true) (added : List Diagnostic) :
    StrictReports files before added (sortDiagnostics files (before ++ added)) := by
  rw [sortDiagnostics_eq]
  have hperm := List.mergeSort_perm (before ++ added) (Diagnostic.placeLe files)
  refine ⟨List.pairwise_mergeSort Diagnostic.placeLe_trans Diagnostic.placeLe_total _, ?_, hperm,
    fun p => ?_⟩
  · exact List.sublist_mergeSort Diagnostic.placeLe_trans Diagnostic.placeLe_total h
      (List.sublist_append_left ..)
  · rw [← List.filter_append]
    by_cases hsome : ∃ d ∈ before ++ added, d.standsAt files p = true
    · obtain ⟨d, -, hd⟩ := hsome
      have hplace : Diagnostic.standsAt files p = Diagnostic.standsAt files (d.position files) := by
        obtain ⟨hname, hline, hcolumn⟩ := of_decide_eq_true hd
        unfold Diagnostic.standsAt
        rw [hname, hline, hcolumn]
      rw [hplace, ← Diagnostic.ranksAlike_eq]
      exact filter_mergeSort Diagnostic.placeLe_trans Diagnostic.placeLe_total d _
    · -- a place without reports has none afterwards
      have hnone : ∀ d ∈ before ++ added, ¬ d.standsAt files p = true :=
        fun d hd hp => hsome ⟨d, hd, hp⟩
      rw [List.filter_eq_nil_iff.2 hnone, List.filter_eq_nil_iff]
      exact fun d hd => hnone d (hperm.mem_iff.1 hd)

/-- The reports of a compilation come in the order of their places. -/
theorem compile_sorted (sources : List Source) :
    (compile sources).diagnostics.Pairwise fun d e => d.placeLe (compile sources).files e = true := by
  have hsort := sortDiagnostics_eq (parseSources sources).files ((parseSources sources).diagnostics ++
    (linkSources sources).diagnostics ++
      loweringWarnings (linkSources sources).packages (linkSources sources).symbols)
  show (Idl.sortDiagnostics _ _).Pairwise _
  exact hsort ▸ List.pairwise_mergeSort Diagnostic.placeLe_trans Diagnostic.placeLe_total _

/-- The reports of a strict compilation. -/
theorem compile_strict (sources : List Source) :
    StrictReports (compile sources).files (compile sources).diagnostics
      ((compile sources).unresolved.map UnresolvedIdent.error)
      ((compile sources).allDiagnostics true) :=
  .sortDiagnostics (compile_sorted sources) _

/-! ### Failing -/

namespace Project

/-- A compilation has no error to report if it is not strict and reports none, or if, besides, no name
is unresolved. -/
theorem failure?_eq_none (p : Project) (strict : Bool) :
    p.failure? ((Idl.compile p.sources).allDiagnostics strict) = none ↔
      p.failure? (Idl.compile p.sources).diagnostics = none ∧
        (strict = true → (Idl.compile p.sources).unresolved = []) := by
  have hfailure (ds : List Diagnostic) : p.failure? ds = none ↔ ∀ d ∈ ds, d.isError = false := by
    unfold failure?
    simp [List.countP_eq_zero]
  cases strict with
  | false => exact (and_iff_left nofun).symm
  | true =>
    rw [hfailure, hfailure]
    have hmem := fun d => (compile_strict p.sources).complete.mem_iff (a := d)
    simp only [hmem, List.mem_append, or_imp, forall_and, forall_const]
    refine and_congr_right fun _ => ⟨fun h => ?_, fun h d hd => ?_⟩
    · refine List.eq_nil_iff_forall_not_mem.2 fun u hu => ?_
      have herror : (UnresolvedIdent.error u).isError = false := h _ (List.mem_map_of_mem hu)
      exact Bool.noConfusion (herror : true = false)
    · rw [h] at hd
      cases hd

/-- When compiling a project fails.  It changes no file. -/
theorem compile_run (p : Project) (strict : Bool) (fs : FileSystem) :
    (compile FileSystem.host p strict).run fs =
      (match p.failure? ((Idl.compile p.sources).allDiagnostics (strict || p.manifest.strict)) with
        | some e => .error e
        | none => .ok (Idl.compile p.sources), fs) := by
  cases hf : p.failure? ((Idl.compile p.sources).allDiagnostics (strict || p.manifest.strict)) with
  | some e =>
    simp only [compile, hf]
    rfl
  | none =>
    simp only [compile, hf]
    rfl

/-- When the work on a project fails while it is compiled or behind that. -/
theorem fails_compile {α : Type} {k : Compilation → Work (StateM FileSystem) α} (p : Project)
    (strict : Bool) (fs : FileSystem) : Fails (compile FileSystem.host p strict >>= k) fs ↔
      ((p.failure? (Idl.compile p.sources).diagnostics = none ∧
        ((strict || p.manifest.strict) = true → (Idl.compile p.sources).unresolved = [])) →
      Fails (k (Idl.compile p.sources)) fs) := by
  have hrun := compile_run p strict fs
  rw [fails_bind, ← failure?_eq_none]
  cases hf : p.failure? ((Idl.compile p.sources).allDiagnostics (strict || p.manifest.strict)) with
  | some e =>
    rw [hf] at hrun
    exact iff_of_true (.inl ⟨e, congrArg Prod.fst hrun⟩) nofun
  | none =>
    rw [hf] at hrun
    refine ⟨?_, fun h => .inr ⟨_, fs, hrun, h rfl⟩⟩
    rintro (⟨e, he⟩ | ⟨c, fs', heq, h⟩) -
    · rw [hrun] at he
      cases he
    · rw [hrun] at heq
      cases heq
      exact h

/-- Work on a project that is loaded and compiled fails, if it is strict, exactly if it does
otherwise or a name is unresolved in a project that is loaded. -/
theorem fails_strict {α : Type} (k : Project → Compilation → Work (StateM FileSystem) α)
    (path : Path) (fs : FileSystem) :
    let work strict := load FileSystem.host path >>= fun p => compile FileSystem.host p strict >>= k p
    Fails (work true) fs ↔ Fails (work false) fs ∨
      ∃ p fs', (load FileSystem.host path).run fs = (.ok p, fs') ∧
        (Idl.compile p.sources).unresolved ≠ [] := by
  intro work
  simp only [work, fails_bind (w := load FileSystem.host path), fails_compile, Bool.true_or,
    Bool.false_or, forall_const]
  rw [or_assoc, ← exists_or]
  refine or_congr_right (exists_congr fun p => ?_)
  rw [← exists_or]
  refine exists_congr fun fs' => ?_
  rw [← and_or_left]
  refine and_congr_right fun _ => ?_
  by_cases hu : (Idl.compile p.sources).unresolved = []
  · simp [hu]
  · simp [hu]

/-- What being strict adds.  A lenient compilation reports what was found.  A strict one reports one more
error for each unresolved name, behind the other reports at its place, and the rest in the order that
it had.  So a strict build or check fails exactly if a lenient one does, or a name is unresolved in the
project that the path leads to. -/
theorem strict_adds :
    (∀ sources, (Idl.compile sources).allDiagnostics false = (Idl.compile sources).diagnostics ∧
      StrictReports (Idl.compile sources).files (Idl.compile sources).diagnostics
        ((Idl.compile sources).unresolved.map UnresolvedIdent.error)
        ((Idl.compile sources).allDiagnostics true)) ∧
    ∀ (fs : FileSystem) (path : Path),
      let unresolved := ∃ p fs', (load FileSystem.host path).run fs = (.ok p, fs') ∧
        (Idl.compile p.sources).unresolved ≠ []
      (∀ out, Fails (build FileSystem.host path out true) fs ↔
        Fails (build FileSystem.host path out false) fs ∨ unresolved) ∧
      (Fails (check FileSystem.host path true) fs ↔
        Fails (check FileSystem.host path false) fs ∨ unresolved) := by
  refine ⟨fun sources => ⟨rfl, compile_strict sources⟩, fun fs path => ⟨fun out => ?_, ?_⟩⟩
  · exact fails_strict (fun p c => writeOutput FileSystem.host (out.getD p.output) c.ir.encode) path fs
  · exact fails_strict (fun _ _ => pure ()) path fs

end Project

end Idl
