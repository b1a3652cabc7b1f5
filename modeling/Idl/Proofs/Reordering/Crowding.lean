/-
Idl/Proofs/Reordering/Crowding.lean

Sources for which there are not positions enough.

The sources of a run share 4 GB of positions, and a source that finds none left is reported and left
out.  So of two sources that do not fit together the first one is compiled, as if it stood alone
(`ir_crowded`), and the order decides which one that is (`compile_perm_crowded`).
-/
import Idl.Proofs.Ir.MethodText
import Idl.Proofs.Reordering.Reports

namespace Idl

/-- Of two sources that do not fit together, the first one is compiled. -/
theorem ir_crowded {s s' : Source} (hs : 1 + s.extent < positionBound)
    (h : positionBound ≤ 1 + s.extent + s'.extent) :
    (compile [s, s']).ir = (compile [s]).ir := by
  have hparsed := parseSources_crowded hs h
  unfold compile
  dsimp only
  rw [hparsed]

/-- A file of 2 GB and 25 bytes that declares a service with one method. -/
def halfSource (filename package : String) : Source :=
  serviceSource filename package "S" [longMethod 2147483648]

theorem halfSource_extent (filename : String) {package : String}
    (hpackage : package.utf8ByteSize = 1) : (halfSource filename package).extent = 2147483675 := by
  rw [Source.extent, halfSource, utf8ByteSize_longMethod, hpackage]

theorem halfSource_package (filename : String) {package : String} (hname : IsName package)
    (hblank : package ≠ "_") : (halfSource filename package).package = package := by
  have hstruct : IsName "S" := ⟨⟨_, [], by decide, rfl, rfl⟩, rfl⟩
  have hmethods : ∀ m ∈ [longMethod 2147483648], m.Writable :=
    List.forall_mem_singleton.2 (longMethod_writable (by decide))
  have hmembers (scope : ScopeId) := (@Parse.methods_consumes [] 2 _ hmethods 3 scope #[]).imp
    fun _ _ => trivial
  exact (Source.alone_bean (s := halfSource filename package) (P := fun _ => True) hblank
    (List.nodup_singleton _) hmembers
    (serviceSource_writes hname hstruct hmethods filename)).2.2.2.1

/-- Two such files do not fit together. -/
theorem ir_halfSource (filename filename' package' : String) {package : String}
    (hname : IsName package) (hblank : package ≠ "_") (hpackage : package.utf8ByteSize = 1)
    (hpackage' : package'.utf8ByteSize = 1) : ∃ p,
      (compile [halfSource filename package, halfSource filename' package']).ir = ⟨[p]⟩ ∧
        p.name = package := by
  have hextent := halfSource_extent filename hpackage
  have hextent' := halfSource_extent filename' hpackage'
  have hroom : 1 + (halfSource filename package).extent < positionBound := by
    rw [hextent]
    decide
  have hcrowded : positionBound ≤
      1 + (halfSource filename package).extent + (halfSource filename' package').extent := by
    rw [hextent, hextent']
    decide
  have hstruct : IsName "S" := ⟨⟨_, [], by decide, rfl, rfl⟩, rfl⟩
  obtain ⟨-, unresolved, hir⟩ := serviceSource_compiles hname hblank hstruct
    (List.forall_mem_singleton.2 (longMethod_writable (n := 2147483648) (by decide)))
    (List.nodup_singleton _) filename ⟨Nat.one_ne_zero, hroom⟩
  exact ⟨_, (ir_crowded hroom hcrowded).trans hir, rfl⟩

/-- The order matters for two files with different names and of different packages that do not fit
together. -/
theorem compile_perm_crowded :
    let s := halfSource "a.mid" "p"
    let s' := halfSource "b.mid" "q"
    s.name ≠ s'.name ∧ (s.package = "p" ∧ s'.package = "q") ∧ [s, s'].Perm [s', s] ∧
      (compile [s, s']).ir ≠ (compile [s', s]).ir := by
  intro s s'
  have hname {w : String} (hw : w ∈ ["p", "q"]) : IsName w := by
    simp only [List.mem_cons, List.not_mem_nil, or_false] at hw
    rcases hw with rfl | rfl <;> exact ⟨⟨_, [], by decide, rfl, rfl⟩, rfl⟩
  have hp : IsName "p" := hname (by simp)
  have hq : IsName "q" := hname (by simp)
  have hpackage : s.package = "p" := halfSource_package _ hp (by decide)
  have hpackage' : s'.package = "q" := halfSource_package _ hq (by decide)
  obtain ⟨x, hx, hxname⟩ := ir_halfSource "a.mid" "b.mid" "q" hp (by decide) rfl rfl
  obtain ⟨y, hy, hyname⟩ := ir_halfSource "b.mid" "a.mid" "p" hq (by decide) rfl rfl
  refine ⟨by decide, ⟨hpackage, hpackage'⟩, .swap .., ?_⟩
  -- each order leaves a package of its own
  rw [hx, hy]
  intro heq
  obtain rfl : x = y := List.singleton_inj.1 (congrArg Ir.packages heq)
  exact absurd (hxname.symm.trans hyname) (by decide)

end Idl
