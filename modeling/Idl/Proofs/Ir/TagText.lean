/-
Idl/Proofs/Ir/TagText.lean

The text of a tag, quoted, is schema text for the tag.

A quoted text is one word (`Writes.quoted`), and where it stands behind the name of a field it is the
tag of the field and stands for the text again (`Parse.tag_consumes`).  So a struct with such fields
is compiled to them, and as the literals are well formed nothing is reported.

Main result: quoted text survives the whole way (`taggedSource_compiles`).
-/
import Idl.Proofs.Ir.Quiet
import Idl.Proofs.Ir.TypeText
import Idl.Proofs.Token.Quoting

namespace Idl

/-! ### Quoted words -/

/-- A quoted text as a word. -/
def Word.quoted (text : String) (line : Nat) : Word := ⟨.string, quote text, line⟩

/-- A quoted text writes one word, whatever follows it. -/
theorem Writes.quoted {n : Nat} {cs : List Char} {ws : List Word} (text : String)
    (h : Writes n cs ws) : Writes n ((quote text).toList ++ cs) (.quoted text n :: ws) := by
  have hscan : scan '"' (text.toList.flatMap quotedChar ++ ['"'] ++ cs) =
      ⟨.string, (text.toList.flatMap quotedChar ++ ['"']).length, []⟩ := by
    rw [List.append_assoc, List.singleton_append, scan_quoted, List.length_append]
    rfl
  have hline : '\n' ∉ '"' :: (text.toList.flatMap quotedChar ++ ['"']) := by
    intro hmem
    rcases List.mem_cons.1 hmem with hmem | hmem
    · cases hmem
    rcases List.mem_append.1 hmem with hmem | hmem
    · exact newline_not_mem_quoted text.toList hmem
    · cases List.mem_singleton.1 hmem
  have hword := Writes.word rfl hscan ⟨nofun, nofun⟩ hline h
  rw [toList_quote]
  exact hword

/-! ### Fields with tags -/

namespace Ir

/-- A field as schemas write it, with or without a tag. -/
structure TaggedField where
  type : Ty
  name : String
  tag : Option String

namespace TaggedField

/-- The field in the representation. -/
def field (f : TaggedField) : Field :=
  { type := some f.type, names := [f.name], tag := ⟨f.tag.getD ""⟩ }

/-- The name can be written, and so can the type, the sizes in which are numbers. -/
structure Writable (f : TaggedField) : Prop where
  type : f.type.Writable
  nesting : f.type.nesting ≤ 63
  sizes : f.type.Clean fun n => n.length?.isSome = true
  name : IsName f.name

/-- The words of a tag. -/
def tagWords (line : Nat) (tag : Option String) : List Word := tag.toList.map (.quoted · line)

/-- The words of a field. -/
def words (line : Nat) (f : TaggedField) : List Word :=
  f.type.words line ++ .name f.name line :: tagWords line f.tag

/-- The words of fields that stand on lines of their own. -/
def bodyWords (line : Nat) : List TaggedField → List Word
  | [] => []
  | f :: fs => f.words line ++ bodyWords (line + 1) fs

/-- A field in the notation of schemas. -/
def text (f : TaggedField) : String :=
  f.type.text ++ " " ++ f.name ++ String.join (f.tag.toList.map (" " ++ quote ·))

/-- Fields one per line. -/
def bodyText (fs : List TaggedField) : String := String.join (fs.map fun f => f.text ++ "\n")

variable {n : Nat} {cs : List Char} {ws : List Word}

/-- The text of a field writes its words where no letter follows it. -/
theorem Writable.writes {f : TaggedField} (hf : f.Writable)
    (hnext : ∀ c ∈ cs.head?, isIdentContinue c = false) (h : Writes n cs ws) :
    Writes n (f.text.toList ++ cs) (f.words n ++ ws) := by
  obtain ⟨type, name, tag⟩ := f
  cases tag with
  | none =>
    have hwords : Writes n (type.text.toList ++ ' ' :: (name.toList ++ cs))
        (type.words n ++ .name name n :: ws) :=
      hf.type.writes (Writes.ends rfl) (.space (.ident hf.name hnext h))
    simpa [text, words, tagWords] using hwords
  | some tag =>
    have hwords : Writes n (type.text.toList ++ ' ' :: (name.toList ++ ' ' ::
        ((quote tag).toList ++ cs))) (type.words n ++ .name name n :: .quoted tag n :: ws) :=
      hf.type.writes (Writes.ends rfl) (.space (.ident hf.name (Writes.ends rfl)
        (.space (h.quoted tag))))
    simpa [text, words, tagWords] using hwords

theorem writes_body {fs : List TaggedField} (hfs : ∀ f ∈ fs, f.Writable)
    (h : Writes (n + fs.length) cs ws) :
    Writes n ((bodyText fs).toList ++ cs) (bodyWords n fs ++ ws) := by
  induction fs generalizing n with
  | nil => exact h
  | cons f fs ih =>
    obtain ⟨hf, hfs⟩ := List.forall_mem_cons.1 hfs
    rw [List.length_cons, Nat.add_comm fs.length, ← Nat.add_assoc] at h
    have hline := hf.writes (Writes.ends rfl) (ih hfs h).newline
    simpa [bodyText, bodyWords] using hline

theorem headKind_words (line : Nat) (f : TaggedField) (ws : List Word) :
    headKind (f.words line ++ ws) = .ident := by
  rw [words, List.append_assoc]
  exact f.type.headKind_words line _

end TaggedField

end Ir

/-! ### Reading fields with tags -/

/-- The literal of a quoted text is the tag with this text, and there is nothing to say about it. -/
theorem lowerTag_quote {l : Lit} {text : String} (h : l.text = quote text) :
    lowerTag (some l) = ⟨text⟩ ∧ tagWarnings (some l) = [] := by
  have hvalue : unquote? l.text = some text := h ▸ unquote?_quote text
  constructor
  · unfold lowerTag
    rw [Option.bind_some, hvalue]
    rfl
  · unfold tagWarnings
    simp only [hvalue, Option.isSome_some, if_true]

namespace Parse

variable {rest : List Word} {line : Nat}

/-- A tag is read as the text that is quoted. -/
theorem tag_consumes (tag : Option String) (hrest : headKind rest ≠ .string) :
    Consumes [] (Ir.TaggedField.tagWords line tag) rest string? fun l =>
      lowerTag l = ⟨tag.getD ""⟩ ∧ tagWarnings l = [] := by
  cases tag with
  | none => exact (string?_consumes hrest).imp fun l hl => hl ▸ ⟨rfl, rfl⟩
  | some text =>
    exact .check true rfl (.before (lit_consumes .string) fun l hl => .pure (lowerTag_quote hl.2))

/-- A field is taken in front of the next one or the end of the body. -/
theorem taggedField_consumes {f : Ir.TaggedField} (hf : f.Writable)
    (hrest : headKind rest ∈ [.ident, .punct .rbrace]) (scope : ScopeId) (index : Nat) :
    Consumes [(scope, f.name)] (f.words line) rest (field scope index)
      fun m => m.LowersTo f.field ∧ m.Quiet := by
  have hother {k : TokenKind} (hk : k ∉ [.ident, .punct .rbrace]) : headKind rest ≠ k :=
    fun heq => hk (heq ▸ hrest)
  have hnext : headKind (Ir.TaggedField.tagWords line f.tag ++ rest) ≠ .punct .comma := by
    cases f.tag with
    | none => exact hother (by decide)
    | some text => exact nofun
  have hend : headKind rest ∉ [.punct .comma, .punct .semicolon] := by
    simp only [List.mem_cons, List.not_mem_nil, or_false, not_or]
    exact ⟨hother (by decide), hother (by decide)⟩
  refine (field_consumes hf.type hf.nesting f.name (tag_consumes f.tag (hother (by decide))) hnext
    hend scope index).imp fun m hm => ?_
  obtain ⟨⟨htag, hwarnings⟩, ⟨e, htype, he⟩, hlowers⟩ := hm
  rw [htag] at hlowers
  refine ⟨hlowers, fun env g hbare b => ?_⟩
  -- nothing is said about a type that is lowered to one whose sizes are numbers
  have hclean : (e.lower env g).Clean fun n => n.length?.isSome = true := by
    rw [he env g (hbare.mono (by simp [Member.types, htype, MemberType.types]))]
    exact hf.sizes
  have hnone : (m.type.map (MemberType.warnings env g)).getD [] = [] := by
    rw [htype]
    exact TypeExpr.warnings_eq_nil hclean
  unfold Bean.memberWarnings
  rw [hnone, hwarnings]
  exact ite_self _

/-- Fields with different names, one per line, are taken one by one. -/
theorem taggedFields_consumes {fs : List Ir.TaggedField} (hfs : ∀ f ∈ fs, f.Writable)
    {last : Nat} (scope : ScopeId) (members : Array Member) :
    Consumes (fs.map fun f => (scope, f.name)) (Ir.TaggedField.bodyWords line fs)
      (.mark .rbrace last :: rest) (iterate (moreMembers .struct scope) members) fun r =>
        ∃ taken, r.toList = members.toList ++ taken ∧ (∀ m ∈ taken, m.Quiet) ∧
          List.Forall₂ Member.LowersTo taken (fs.map Ir.TaggedField.field) := by
  induction fs generalizing line members with
  | nil =>
    exact .stop moreMembers_ended ⟨[], (List.append_nil _).symm, List.forall_mem_nil _, .nil⟩
  | cons f fs ih =>
    obtain ⟨hf, hfs⟩ := List.forall_mem_cons.1 hfs
    have hends : headKind (Ir.TaggedField.bodyWords (line + 1) fs ++ .mark .rbrace last :: rest) ∈
        [.ident, .punct .rbrace] := by
      cases fs with
      | nil => exact List.mem_cons_of_mem _ List.mem_cons_self
      | cons g fs =>
        rw [Ir.TaggedField.bodyWords, List.append_assoc, g.headKind_words]
        exact List.mem_cons_self
    have hfield := moreMembers_consumes .struct scope members
      (taggedField_consumes hf hends scope members.size) fun s hs => by
        apply member?_struct
        rw [hs.kind]
        exact f.headKind_words line _
    -- a field takes at least one word, so the loop goes on
    obtain ⟨w, ws, hw⟩ := cons_of_headKind fun h => nomatch (f.headKind_words line []).symm.trans h
    rw [List.append_nil] at hw
    rw [Ir.TaggedField.bodyWords]
    rw [hw] at hfield ⊢
    refine .again hfield fun b hb => ?_
    obtain ⟨m, rfl, hm, hquiet⟩ := hb
    refine (ih hfs (members.push m)).imp fun r hr => ?_
    obtain ⟨taken, htaken, hall, hlower⟩ := hr
    refine ⟨m :: taken, ?_, List.forall_mem_cons.2 ⟨hquiet, hall⟩, .cons hm hlower⟩
    rw [htaken, Array.toList_push, List.append_assoc]
    rfl

end Parse

/-! ### Files with one struct -/

/-- A file that writes a struct with its fields one per line. -/
def taggedSource (filename package struct : String) (fs : List Ir.TaggedField) : Source :=
  ⟨filename, "package " ++ package ++ " struct " ++ struct ++ " \x7b\n" ++
    Ir.TaggedField.bodyText fs ++ "\x7d"⟩

theorem taggedSource_writes {package struct : String} (hpackage : IsName package)
    (hstruct : IsName struct) {fs : List Ir.TaggedField} (hfs : ∀ f ∈ fs, f.Writable)
    (filename : String) :
    Writes 1 (taggedSource filename package struct fs).text.toList
      (beanWords .struct package struct (Ir.TaggedField.bodyWords 2 fs) (2 + fs.length)) := by
  have htext : (taggedSource filename package struct fs).text.toList =
      Keyword.pkg.spelling.toList ++ ' ' :: (package.toList ++ ' ' ::
        (BeanKind.struct.keyword.spelling.toList ++ ' ' :: (struct.toList ++ ' ' ::
          '\x7b' :: ('\n' :: ((Ir.TaggedField.bodyText fs).toList ++ ['\x7d']))))) := by
    simp [taggedSource, BeanKind.keyword, Keyword.spelling]
  rw [htext]
  refine .bean hpackage hstruct (.newline (Ir.TaggedField.writes_body hfs ?_))
  exact Writes.done.sign .rbrace (by decide)

/-- A file that writes fields with different names is compiled to a struct with just these fields, and
nothing is reported. -/
theorem taggedSource_compiles {package struct : String} (hpackage : IsName package)
    (hblank : package ≠ "_") (hstruct : IsName struct) {fs : List Ir.TaggedField}
    (hfs : ∀ f ∈ fs, f.Writable) (hnames : (fs.map (·.name)).Nodup) (filename : String)
    (hroom : FileSet.Admits {} (taggedSource filename package struct fs)) :
    (compile [taggedSource filename package struct fs]).diagnostics = [] ∧
      ∃ unresolved, (compile [taggedSource filename package struct fs]).ir = ⟨[{
        name := package
        files := [{
          filename
          package
          beans := [{
            kind := .struct
            name := struct
            fields := fs.map Ir.TaggedField.field }]
          unresolved }] }]⟩ := by
  have hwords := taggedSource_writes hpackage hstruct hfs filename
  have hmembers (scope : ScopeId) : Parse.Consumes ((fs.map (·.name)).map (scope, ·))
      (Ir.TaggedField.bodyWords 2 fs) [.mark .rbrace (2 + fs.length)]
      (Parse.iterate (Parse.moreMembers .struct scope) #[]) fun ms =>
        (∀ m ∈ ms.toList, m.Quiet) ∧
          List.Forall₂ Member.LowersTo ms.toList (fs.map Ir.TaggedField.field) := by
    rw [List.map_map]
    refine (Parse.taggedFields_consumes hfs scope #[]).imp fun r hr => ?_
    obtain ⟨taken, htaken, hboth⟩ := hr
    rw [htaken]
    exact hboth
  constructor
  · obtain ⟨hquiet, -, -, -, b, hdecls, -, -, -, htag, hall, -⟩ := Source.alone_bean
      (P := fun ms => (∀ m ∈ ms, m.Quiet) ∧
        List.Forall₂ Member.LowersTo ms (fs.map Ir.TaggedField.field)) hblank hnames hmembers hwords
    exact Source.compile_quiet hroom hquiet hdecls htag hall
  · exact (Source.compile_bean hroom hblank hnames
      (fun scope => (hmembers scope).imp fun _ h => h.2) hwords).2

/-- Quoted text survives the whole way.  However long it is, it is lexed to a single string literal
without a fault and stands for the text again; a member with this literal as its tag has the tag with
this text, and there is nothing to say about it; and a file that writes a struct with such fields is
compiled to just these fields, without a report, if it is one of less than 4 GB. -/
theorem quoted_text_survives :
    (∀ (text : String) (base : UInt32), unquote? (quote text) = some text ∧
      ∃ s, lexSource? base (quote text) = some s ∧ s.errors = [] ∧
        s.tokens.map (·.token) = [⟨.string, quote text,
          ⟨base.toNat, (base + (quote text).utf8ByteSize.toUInt32).toNat⟩⟩]) ∧
      (∀ (text : String) (m : Member) (l : Lit), m.tag = some l → l.text = quote text →
        tagWarnings m.tag = [] ∧ ∀ env f, (m.lower env f).tag = ⟨text⟩) ∧
      ∀ (filename package struct : String) (fs : List Ir.TaggedField), IsName package →
        package ≠ "_" → IsName struct → (∀ f ∈ fs, f.Writable) → (fs.map (·.name)).Nodup →
        FileSet.Admits {} (taggedSource filename package struct fs) →
          (compile [taggedSource filename package struct fs]).diagnostics = [] ∧
            ∃ unresolved, (compile [taggedSource filename package struct fs]).ir = ⟨[{
              name := package
              files := [{
                filename
                package
                beans := [{
                  kind := .struct
                  name := struct
                  fields := fs.map Ir.TaggedField.field }]
                unresolved }] }]⟩ := by
  refine ⟨fun text base => ⟨unquote?_quote text, lexSource?_quote base text⟩,
    fun text m l hl htext => ?_, ?_⟩
  · obtain ⟨hvalue, hwarnings⟩ := lowerTag_quote htext
    rw [hl]
    refine ⟨hwarnings, fun env f => ?_⟩
    rw [← hvalue, ← hl]
    rfl
  · intro filename package struct fs hpackage hblank hstruct hfs hnames hroom
    exact taggedSource_compiles hpackage hblank hstruct hfs hnames filename hroom

/-- Tags with quotes, backslashes, line breaks, control characters and others. -/
theorem quoted_text_survives_escapes :
    let text := "json:\"a\\b\"\n\x07\x7f\u0085\u00e9\t"
    let fs : List Ir.TaggedField := [⟨.vector (.struct "" "T"), "a", some text⟩,
      ⟨.array (.basic "int32") (.literal 4), "b", none⟩, ⟨.basic "string", "c", some ""⟩]
    (∀ f ∈ fs, f.Writable) ∧ (fs.map (·.name)).Nodup ∧
      FileSet.Admits {} (taggedSource "a" "p" "S" fs) ∧ unquote? (quote text) = some text ∧
      (compile [taggedSource "a" "p" "S" fs]).diagnostics = [] := by
  intro text fs
  have hname {w : String} (hw : w ∈ ["p", "S", "T", "a", "b", "c"]) : IsName w := by
    simp only [List.mem_cons, List.not_mem_nil, or_false] at hw
    rcases hw with rfl | rfl | rfl | rfl | rfl | rfl <;>
      exact ⟨⟨_, [], by decide, rfl, rfl⟩, rfl⟩
  have hfs : ∀ f ∈ fs, f.Writable := by
    refine List.forall_mem_cons.2 ⟨?_, List.forall_mem_cons.2 ⟨?_, List.forall_mem_singleton.2 ?_⟩⟩
    · exact ⟨.vector (.plain (hname (by simp)) rfl), by decide, .vector (.struct _ _),
        hname (by simp)⟩
    · exact ⟨.sized (.scalar .int32 rfl) 4, by decide, .array (.basic _) rfl, hname (by simp)⟩
    · exact ⟨.scalar .string rfl, by decide, .basic _, hname (by simp)⟩
  have hnames : (fs.map (·.name)).Nodup := by decide
  have hroom : FileSet.Admits {} (taggedSource "a" "p" "S" fs) := ⟨by decide, by decide +kernel⟩
  obtain ⟨hquote, -, hcompiles⟩ := quoted_text_survives
  exact ⟨hfs, hnames, hroom, (hquote text 1).1,
    (hcompiles "a" "p" "S" fs (hname (by simp)) (by decide) (hname (by simp)) hfs hnames hroom).1⟩

theorem le_utf8ByteSize_quote_letters (n : Nat) : n ≤ (quote (letters n)).utf8ByteSize := by
  have hplain : (letters n).toList.flatMap quotedChar = (letters n).toList := by
    rw [letters, String.toList_ofList, List.flatMap_replicate]
    show (List.replicate n ['a']).flatten = _
    rw [List.flatten_replicate_singleton]
  rw [utf8ByteSize_eq, toList_quote, hplain, byteWidth_cons, byteWidth_append, ← utf8ByteSize_eq,
    utf8ByteSize_letters]
  omega

/-- A source of 4 GB is refused and reported. -/
theorem Source.mem_diagnostics_of_refused {s : Source} (h : positionBound ≤ s.text.utf8ByteSize) :
    .error (s.name ++ ": " ++ FileSetError.overflow.message) ⟨0, 0⟩ ∈ (compile [s]).diagnostics := by
  have hrefused := ParsedSources.add_refused (p := {}) (s := s)
    (h.trans ((Nat.le_add_left ..).trans (Nat.le_succ _)))
  have hmem : Diagnostic.error (s.name ++ ": " ++ FileSetError.overflow.message) ⟨0, 0⟩ ∈
      (parseSources [s]).diagnostics := by
    show _ ∈ (ParsedSources.add {} s).diagnostics
    rw [hrefused]
    exact List.mem_singleton_self _
  exact mem_sortDiagnostics.2 (List.mem_append_left _ (List.mem_append_left _ hmem))

/-- A file is as long as the text of its tag. -/
theorem le_utf8ByteSize_tagged {text : String} {n : Nat} (h : n ≤ (quote text).utf8ByteSize) :
    n ≤ (taggedSource "a" "p" "S" [⟨.basic "int32", "a", some text⟩]).text.utf8ByteSize := by
  have htext : (taggedSource "a" "p" "S" [⟨.basic "int32", "a", some text⟩]).text =
      "package " ++ "p" ++ " struct " ++ "S" ++ " \x7b\n" ++
        ("" ++ ("int32" ++ " " ++ "a" ++ ("" ++ (" " ++ quote text)) ++ "\n")) ++ "\x7d" := rfl
  rw [htext]
  simp only [String.utf8ByteSize_append]
  omega

/-- A tag of 4 GB does not survive, since its file is refused. -/
theorem taggedSource_refused :
    let f : Ir.TaggedField := ⟨.basic "int32", "a", some (letters positionBound)⟩
    f.Writable ∧ ([f].map (·.name)).Nodup ∧
      Diagnostic.error ("a: " ++ FileSetError.overflow.message) ⟨0, 0⟩ ∈
        (compile [taggedSource "a" "p" "S" [f]]).diagnostics := by
  have hfield (tag : Option String) : Ir.TaggedField.Writable ⟨.basic "int32", "a", tag⟩ :=
    ⟨.scalar .int32 rfl, Nat.zero_le _, .basic _, ⟨⟨_, [], by decide, rfl, rfl⟩, rfl⟩⟩
  exact ⟨hfield _, List.nodup_singleton _,
    Source.mem_diagnostics_of_refused (le_utf8ByteSize_tagged (le_utf8ByteSize_quote_letters _))⟩

end Idl
