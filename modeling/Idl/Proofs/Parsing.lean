/-
Idl/Proofs/Parsing.lean

Parsing a file, in one equation.

A file for which there are no positions left is refused.  Every other one is registered at the first
free position; its tokens are read, its lines become known, and the significant tokens are parsed
(`parseFile_eq_of`).  A source that is refused is reported, and nothing else (`ParsedSources.add_refused`).
-/
import Idl.Compilation

namespace Idl

/-- A file that states no wish for its base is put at the first free position. -/
theorem FileSet.addFile_none (files : FileSet) (name : String) (size : Nat) :
    files.addFile name none size =
      if positionBound ≤ files.next + size + 1 then .error .overflow
      else .ok (files.files.size,
        { next := files.next + size + 1
          files := files.files.push { name := name, base := files.next, size := size } }) := by
  unfold addFile
  exact if_neg (Nat.lt_irrefl _)

/-- Changing the last element. -/
theorem modify_push_array {α : Type} (xs : Array α) (x : α) (g : α → α) :
    (xs.push x).modify xs.size g = xs.push (g x) := by
  refine Array.ext (by simp) fun i hi _ => ?_
  rw [Array.size_modify, Array.size_push] at hi
  rw [Array.getElem_modify, Array.getElem_push, Array.getElem_push]
  by_cases h : i < xs.size
  · rw [if_neg (Nat.ne_of_gt h), dif_pos h, dif_pos h]
  · rw [if_pos (by omega), dif_neg h, dif_neg h]

/-- What parsing a registered file gives. -/
def ParseResult.of (files : FileSet) (scanned : Scanned) (groups : List CommentGroup)
    (start : ParseState) : ParseResult where
  file := (Parse.file groups start).1
  diagnostics := scanned.errors.map (·.toDiagnostic) ++
    (Parse.file groups start).2.diagnostics.toList
  files := files
  symbols := (Parse.file groups start).2.symbols

/-- A file is refused, or registered, read and parsed. -/
theorem parseFile_eq_of (files : FileSet) (symbols : SymbolTable) (name text : String) :
    let scanned := scanSource files.next text
    let f := (SourceFile.scan { name, base := files.next, size := text.utf8ByteSize } text).2
    let tokens := significant f.lineOf scanned.allTokens
    parseFile files symbols name text =
      if positionBound ≤ files.next + text.utf8ByteSize + 1 then .error .overflow
      else .ok (.of ⟨files.next + text.utf8ByteSize + 1, files.files.push f⟩ scanned
        (tokens.flatMap (·.groups)) (.start f files.files.size symbols tokens)) := by
  intro scanned f tokens
  unfold parseFile
  rw [FileSet.addFile_none]
  split
  · rfl
  · simp only [bind, Except.bind, Array.getElem?_push_size, FileSet.modifyFile, modify_push_array]
    rfl

/-- A file for which there are no positions left is refused. -/
theorem parseFile_refused (symbols : SymbolTable) (name : String) {files : FileSet} {text : String}
    (h : positionBound ≤ files.next + text.utf8ByteSize + 1) :
    parseFile files symbols name text = .error .overflow := by
  rw [parseFile_eq_of, if_pos h]

/-- A source for which there are no positions left is reported and left out. -/
theorem ParsedSources.add_refused {p : ParsedSources} {s : Source}
    (h : positionBound ≤ p.files.next + s.text.utf8ByteSize + 1) :
    p.add s = { p with
      diagnostics := p.diagnostics ++
        [.error (s.name ++ ": " ++ FileSetError.overflow.message) ⟨0, 0⟩] } := by
  rw [add, parseFile_refused p.symbols s.name h]

end Idl
