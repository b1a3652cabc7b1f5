/-
Idl/Proofs/Messages.lean

Errors about names that are declared twice, as they read.

`Diagnostic.redeclared?` finds out from the text of an error whether it says that a name is
redeclared, and which one.  Names of files may be any text, so it is not enough to look at the first
words: such an error ends in a line and a column, and no other one does (`redeclared?_appearsTwice`,
`redeclared?_refusal`).
-/
import Idl.Proofs.Order

namespace Idl

/-! ### Places of positions -/

theorem le_bisectIn {α : Type} (p : α → Bool) (xs : Array α) (lo hi : Nat) (h : hi ≤ xs.size) :
    lo ≤ bisectIn p xs lo hi h := by
  fun_induction bisectIn p xs lo hi h with
  | case1 lo hi h hlt mid hmid hp ih => exact Nat.le_trans (by omega) ih
  | case2 lo hi h hlt mid hmid hp ih => exact ih
  | case3 lo hi h hlt => exact Nat.le_refl lo

/-- If the first element satisfies the predicate, it is counted. -/
theorem bisectIn_ne_zero {α : Type} {p : α → Bool} {xs : Array α}
    (hfirst : ∀ x ∈ xs[0]?, p x = true) (lo hi : Nat) (h : hi ≤ xs.size) (hne : 0 < hi ∨ 0 < lo) :
    bisectIn p xs lo hi h ≠ 0 := by
  fun_induction bisectIn p xs lo hi h with
  | case1 lo hi h hlt mid hmid hp ih =>
    exact Nat.ne_of_gt (Nat.lt_of_lt_of_le (Nat.succ_pos mid) (le_bisectIn p xs (mid + 1) hi h))
  | case2 lo hi h hlt mid hmid hp ih =>
    refine ih (.inl (Nat.pos_of_ne_zero fun hzero => hp (hfirst _ ?_)))
    simp only [hzero, Option.mem_def, Array.getElem?_eq_getElem (hzero ▸ hmid : 0 < xs.size)]
  | case3 lo hi h hlt => omega

namespace SourceFile

/-- A file whose first line starts with it. -/
structure Lined (f : SourceFile) : Prop where
  first : f.lines[0]? = some 0
  plain : f.remappings = #[]

theorem Lined.addLine {f : SourceFile} (h : f.Lined) (l : Nat) : (f.addLine l).Lined := by
  unfold SourceFile.addLine
  split
  · refine ⟨?_, h.plain⟩
    have hlt : 0 < f.lines.size := (Array.getElem?_eq_some_iff.1 h.first).1
    exact (Array.getElem?_push_lt hlt).trans (Array.getElem?_eq_getElem hlt ▸ h.first)
  · exact h

theorem Lined.foldl {f : SourceFile} (h : f.Lined) (ls : List Nat) :
    (ls.foldl SourceFile.addLine f).Lined := by
  induction ls generalizing f with
  | nil => exact h
  | cons l ls ih => exact ih (h.addLine l)

/-- Where the file owns the position, its place is as the file itself counts. -/
theorem Lined.position_eq {f : SourceFile} (h : f.Lined) {p : Pos} (hp : f.Owns p) :
    f.position p = f.unadjustedPlace (p - f.base) := by
  have hvalid : Pos.isValid p = true := bne_iff_ne.2 hp.1
  have hmap : f.remapping? (p - f.base) = none := by
    unfold remapping?
    rw [h.plain]
    exact if_pos (Nat.le_zero.1 (bisect_le_size _ _))
  unfold SourceFile.position place
  rw [hvalid, hp.2, hmap]
  rfl

/-- Whatever the file owns is on a line of the file. -/
theorem Lined.position {f : SourceFile} (h : f.Lined) {p : Pos} (hp : f.Owns p) :
    (f.position p).isValid = true ∧ (f.position p).filename = f.name := by
  have hline : f.lineNumber (p - f.base) ≠ 0 := by
    refine bisectIn_ne_zero (fun x hx => ?_) 0 f.lines.size _
      (.inl (Array.getElem?_eq_some_iff.1 h.first).1)
    obtain rfl : 0 = x := Option.some.inj (h.first.symm.trans hx)
    exact decide_eq_true (Nat.zero_le _)
  rw [h.position_eq hp]
  exact ⟨decide_eq_true (Nat.pos_of_ne_zero hline), rfl⟩

end SourceFile

theorem Source.lined (s : Source) : s.alone.source.Lined := by
  have h : s.registered.Lined := ⟨rfl, rfl⟩
  exact h.foldl _

/-- Positions of a run are places in their sources. -/
theorem position_of_seated {sources : List Source} {s : Source} {ρ : Placement}
    (h : (s, ρ) ∈ seated (Board.empty.layout sources)) {p : Pos} (hp : s.alone.source.Owns p) :
    (parseSources sources).files.position (ρ.pos p) = s.alone.source.position p := by
  rw [parseSources_eq]
  refine ((Board.after_ordered Board.empty_ordered Nat.one_ne_zero sources).position
    (Board.seats_after sources h).file (hp.placed ρ)).trans ?_
  exact SourceFile.position_placed ..

/-! ### Messages -/

/-- What stands behind the name in a message about a name that is declared twice, up to the place. -/
def redeclaredWords : List Char := " redeclared in this block\n\tprevious declaration at ".toList

/-- Whether a text ends in a colon and a number. -/
def endsInColumn (cs : List Char) : Bool := (cs.reverse.dropWhile Char.isDigit).head? = some ':'

/-- The name that an error says is redeclared. -/
def Diagnostic.redeclared? (d : Diagnostic) : Option String :=
  if d.isError && redeclaredWords.isPrefixOf (afterFirstWord d.message) &&
      endsInColumn d.message.toList then
    some (String.ofList (d.message.toList.takeWhile (· ≠ ' ')))
  else none

theorem head?_dropWhile_append {α : Type} {p : α → Bool} {x : α} (hx : p x = false)
    (as bs : List α) : ∃ y ∈ as ++ [x], ((as ++ x :: bs).dropWhile p).head? = some y := by
  induction as with
  | nil => exact ⟨x, List.mem_cons_self, by simp [hx]⟩
  | cons a as ih =>
    rw [List.cons_append, List.cons_append, List.dropWhile_cons]
    split
    · obtain ⟨y, hy, hhead⟩ := ih
      exact ⟨y, List.mem_cons_of_mem a hy, hhead⟩
    · exact ⟨a, List.mem_cons_self, rfl⟩

/-- A text does not end in a colon and a number if it ends in something else that is no number. -/
theorem endsInColumn_eq_false (pre : List Char) {c : Char} {cs : List Char}
    (hc : c.isDigit = false) (hno : ':' ∉ c :: cs) : endsInColumn (pre ++ c :: cs) = false := by
  have hreverse : (pre ++ c :: cs).reverse = cs.reverse ++ c :: pre.reverse := by simp
  obtain ⟨y, hy, hhead⟩ := head?_dropWhile_append (p := Char.isDigit) hc cs.reverse pre.reverse
  have hmem : y ∈ c :: cs := by simpa [or_comm] using hy
  unfold endsInColumn
  rw [hreverse, hhead]
  refine decide_eq_false fun heq => hno ?_
  exact Option.some.inj heq ▸ hmem

theorem endsInColumn_nat (pre : List Char) (n : Nat) :
    endsInColumn (pre ++ ':' :: (toString n).toList) = true := by
  have hreverse : (pre ++ ':' :: (toString n).toList).reverse =
      (toString n).toList.reverse ++ ':' :: pre.reverse := by simp
  have hdigits : ∀ c ∈ (toString n).toList.reverse, Char.isDigit c = true := by
    intro c hc
    have hc : c ∈ Nat.toDigits 10 n := by simpa [Nat.repr] using List.mem_reverse.1 hc
    exact Nat.isDigit_of_mem_toDigits (by decide) (by decide) hc
  unfold endsInColumn
  rw [hreverse, List.dropWhile_append_of_pos hdigits]
  rfl

namespace Diagnostic

theorem redeclared?_of_plain {d : Diagnostic} (h : d.Plain) : d.redeclared? = none := by
  have hlead : redeclaredWords.isPrefixOf (afterFirstWord d.message) = false := by
    rw [Bool.eq_false_iff]
    intro hp
    obtain ⟨rest, hrest⟩ := List.isPrefixOf_iff_prefix.1 hp
    refine h.message ?_
    rw [← hrest]
    rfl
  unfold redeclared?
  rw [hlead, Bool.and_false, Bool.false_and]
  rfl

theorem redeclared?_of_end {d : Diagnostic} (h : endsInColumn d.message.toList = false) :
    d.redeclared? = none := by
  unfold redeclared?
  rw [h, Bool.and_false]
  rfl

/-- An error about a name that is declared twice says so. -/
theorem redeclared?_error {name : String} (hname : ' ' ∉ name.toList) {p : Position}
    (hp : p.isValid = true) (span : Span) :
    (Diagnostic.error (redeclaredMessage name (some p)) span).redeclared? = some name := by
  have hwords : " redeclared in this block" ++ "\n\tprevious declaration at " =
      String.ofList redeclaredWords := by decide
  have hlist : (redeclaredMessage name (some p)).toList =
      name.toList ++ (redeclaredWords ++ p.text.toList) := by
    have hmessage : redeclaredMessage name (some p) =
        name ++ ((" redeclared in this block" ++ "\n\tprevious declaration at ") ++ p.text) := by
      simp only [redeclaredMessage, String.append_assoc]
    rw [hmessage, hwords, String.toList_append, String.toList_append, String.toList_ofList]
  have hpos : ∀ c ∈ name.toList, decide (c ≠ ' ') = true := fun c hc =>
    decide_eq_true fun heq => hname (heq ▸ hc)
  have hafter : afterFirstWord (redeclaredMessage name (some p)) =
      redeclaredWords ++ p.text.toList := by
    unfold afterFirstWord
    rw [hlist, List.dropWhile_append_of_pos hpos]
    rfl
  have hfirst : (redeclaredMessage name (some p)).toList.takeWhile (· ≠ ' ') = name.toList := by
    rw [hlist, List.takeWhile_append_of_pos hpos]
    exact List.append_nil _
  have htext : ∃ pre, p.text.toList = pre ++ ':' :: (toString p.column).toList := by
    unfold Position.text
    rw [if_pos hp]
    exact ⟨_, by rw [String.toList_append, String.toList_append, List.append_assoc]; rfl⟩
  obtain ⟨pre, htext⟩ := htext
  have hend : endsInColumn (redeclaredMessage name (some p)).toList = true := by
    rw [hlist, htext, ← List.append_assoc, ← List.append_assoc]
    exact endsInColumn_nat ..
  have hlead : redeclaredWords.isPrefixOf (redeclaredWords ++ p.text.toList) = true :=
    List.isPrefixOf_iff_prefix.2 (List.prefix_append ..)
  show (if _ then _ else _ : Option String) = _
  rw [show (error (redeclaredMessage name (some p)) span).message =
    redeclaredMessage name (some p) from rfl, hafter, hend, hlead, hfirst, String.ofList_toList]
  rfl

end Diagnostic

/-! ### Spelling -/

/-- Nothing but the characters of an identifier, and no digit at its start. -/
def Spelled (name : String) : Prop :=
  ∃ c cs, isIdentStart c = true ∧ cs.all isIdentContinue = true ∧ name = String.ofList (c :: cs)

namespace Spelled

theorem all_continue {name : String} (h : Spelled name) :
    ∀ c ∈ name.toList, isIdentContinue c = true := by
  obtain ⟨c, cs, hc, hcs, rfl⟩ := h
  intro x hx
  rw [String.toList_ofList] at hx
  rcases List.mem_cons.1 hx with rfl | hx
  · unfold isIdentStart at hc
    unfold isIdentContinue
    rcases Bool.or_eq_true_iff.1 hc with h | h <;> simp [h]
  · exact List.all_eq_true.1 hcs x hx

/-- A character that no identifier has. -/
theorem not_mem {name : String} (h : Spelled name) {c : Char} (hc : isIdentContinue c = false) :
    c ∉ name.toList := fun hmem => by
  rw [h.all_continue c hmem] at hc
  cases hc

theorem isDigit_eq_false {c : Char} (h : isIdentStart c = true) : c.isDigit = false := by
  rw [Bool.eq_false_iff]
  intro hd
  have hdigits : ∀ n < 10, isIdentStart (Char.ofNat (48 + n)) = false := by decide +kernel
  obtain ⟨hlow, hhigh⟩ := Bool.and_eq_true_iff.1 hd
  have hlow : 48 ≤ c.toNat := UInt32.le_iff_toNat_le.1 (of_decide_eq_true hlow)
  have hhigh : c.toNat ≤ 57 := UInt32.le_iff_toNat_le.1 (of_decide_eq_true hhigh)
  have hc : c = Char.ofNat (48 + (c.toNat - 48)) := by
    rw [Nat.add_sub_cancel' hlow, Char.ofNat_toNat]
  rw [hc, hdigits _ (by omega)] at h
  cases h

end Spelled

/-! ### Other errors -/

theorem Diagnostic.plain_of_words {d : Diagnostic} (w rest : String) (hd : d.isError = true)
    (hmessage : d.message = w ++ " " ++ rest) (hw : w.toList.all (· ≠ ' ') = true)
    (hr : rest.toList.head? ≠ some 'r') : d.Plain :=
  ⟨hd, hmessage ▸ (Parse.plain_of_words w rest d.span hw hr).message⟩

theorem LexError.plain (e : LexError) : e.toDiagnostic.Plain := by
  obtain ⟨kind, span⟩ := e
  have hone (kind : LexErrorKind) (h : (afterFirstWord kind.message).take 2 ≠ [' ', 'r']) :
      (LexError.toDiagnostic ⟨kind, span⟩).Plain := ⟨rfl, h⟩
  cases kind with
  | unexpectedCharacter c =>
    refine Diagnostic.plain_of_words "illegal" ("character " ++ shown c) rfl ?_ (by decide +kernel) ?_
    · show "illegal character " ++ shown c = _
      rw [← String.append_assoc]
      rfl
    · rw [String.toList_append]
      exact ne_of_beq_false rfl
  | invalidEscape name =>
    refine Diagnostic.plain_of_words "unknown" ("escape sequence '\\" ++ name.toString ++ "'") rfl ?_
      (by decide +kernel) ?_
    · show "unknown escape sequence '\\" ++ name.toString ++ "'" = _
      rw [← String.append_assoc, ← String.append_assoc]
      rfl
    · rw [String.toList_append, String.toList_append]
      exact ne_of_beq_false rfl
  | invalidNumber fault => cases fault <;> exact hone _ (by decide +kernel)
  | _ => exact hone _ (by decide +kernel)

theorem ImportSpec.notFound_plain (spec : ImportSpec) (id : String) : (spec.notFound id).Plain := by
  refine Diagnostic.plain_of_words "package" ("\x60" ++ id ++ "\x60 not found") rfl ?_
    (by decide +kernel) ?_
  · show "package \x60" ++ id ++ "\x60 not found" = _
    rw [← String.append_assoc, ← String.append_assoc]
    rfl
  · rw [String.toList_append, String.toList_append]
    exact ne_of_beq_false rfl

theorem Source.redeclared?_refusal (s : Source) : s.refusal.redeclared? = none := by
  refine Diagnostic.redeclared?_of_end ?_
  have hlast : FileSetError.overflow.message =
      "position overflow: more than 4GB of source in file " ++ "set" := by decide +kernel
  show endsInColumn (s.name ++ ": " ++ FileSetError.overflow.message).toList = false
  rw [hlast, ← String.append_assoc, String.toList_append]
  exact endsInColumn_eq_false _ (by decide) (by decide)

theorem File.redeclared?_appearsTwice (f : File) {package : String} (h : Spelled package) :
    (f.appearsTwice package).redeclared? = none := by
  refine Diagnostic.redeclared?_of_end ?_
  have hno : ':' ∉ package.toList := h.not_mem (by decide +kernel)
  obtain ⟨c, cs, hc, -, rfl⟩ := h
  rw [String.toList_ofList] at hno
  show endsInColumn (("file " ++ f.filename ++ " appears twice in package " ++
    String.ofList (c :: cs)).toList) = false
  rw [String.toList_append, String.toList_ofList]
  exact endsInColumn_eq_false _ (Spelled.isDigit_eq_false hc) hno

end Idl
