/-
Idl/Proofs/Ir/Slots.lean

The intermediate representation as records with slots.

Types, fields and values refer to one another, so what holds of all of them is proved at once
(`induct`).  Every record is written with a slot for each of its fields, in their order (`slots`),
and what is written is a written value (`toJson_written`).
-/
import Idl.Proofs.Json.Records

namespace Idl

namespace Ir

/-- Types, fields and values have a property each if those have it that are built from such ones. -/
theorem induct {P : Ty → Prop} {Q : Field → Prop} {R : Expr → Prop}
    (basic : ∀ name, P (.basic name))
    (array : ∀ elem size, P elem → P (.array elem size))
    (vector : ∀ elem, P elem → P (.vector elem))
    (map : ∀ key value, P key → P value → P (.map key value))
    (struct : ∀ package name, P (.struct package name))
    (func : ∀ params result, (∀ p ∈ params, Q p) → (∀ t, result = some t → P t) →
      P (.func params result))
    (invalid : P .invalid)
    (field : ∀ f : Field, (∀ t, f.type = some t → P t) → (∀ e, f.default = some e → R e) → Q f)
    (ident : ∀ name, R (.ident name))
    (lit : ∀ kind text, R (.lit kind text))
    (type : ∀ t, P t → R (.type t))
    (nothing : R .invalid) :
    (∀ t, P t) ∧ (∀ f, Q f) ∧ ∀ e, R e := by
  have htype (t : Ty) : P t := by
    refine Ty.rec (motive_1 := P) (motive_2 := Q) (motive_3 := R)
      (motive_4 := fun fs => ∀ f ∈ fs, Q f) (motive_5 := fun o => ∀ t, o = some t → P t)
      (motive_6 := fun o => ∀ e, o = some e → R e) basic array vector map struct func invalid
      (fun doc options t names d tag comment => field ⟨doc, options, t, names, d, tag, comment⟩)
      ident lit type nothing ?_ ?_ ?_ ?_ ?_ ?_ t
    · simp
    · intro f fs hf hfs x hx
      rcases List.mem_cons.1 hx with rfl | hx
      · exact hf
      · exact hfs x hx
    · simp
    · rintro t ht _ ⟨⟩
      exact ht
    · simp
    · rintro e he _ ⟨⟩
      exact he
  have hexpr (e : Expr) : R e := by
    cases e with
    | ident name => exact ident name
    | lit kind text => exact lit kind text
    | type t => exact type t (htype t)
    | invalid => exact nothing
  exact ⟨htype, fun f => field f (fun t _ => htype t) fun e _ => hexpr e, hexpr⟩

/-! ### The slots of records -/

/-- A type as a record with its kind in the first slot. -/
def Ty.kindSlots : Ty → String × List (String × Option Json)
  | .basic name => ("basic", [("name", some (.ofString name))])
  | .array elem size => ("array", [("elem", some elem.toJson), ("size", some size.toJson)])
  | .vector elem => ("vector", [("elem", some elem.toJson)])
  | .map key value => ("map", [("key", some key.toJson), ("value", some value.toJson)])
  | .struct package name =>
    ("struct", [("package", textSlot package), ("name", some (.ofString name))])
  | .func params result =>
    ("func", [("params", some (.array (params.map Field.toJson))),
      ("result", result.map Ty.toJson)])
  | .invalid => ("invalid", [])

/-- The slots of a field. -/
def Field.slots (f : Field) : List (String × Option Json) :=
  [("doc", textSlot f.doc), ("options", listSlot (f.options.map .ofString)),
    ("type", f.type.map Ty.toJson), ("names", listSlot (f.names.map .ofString)),
    ("default", f.default.map Expr.toJson), ("tag", textSlot f.tag.text),
    ("comment", textSlot f.comment)]

theorem Field.listToJson_eq (fs : List Field) : Field.listToJson fs = fs.map Field.toJson := by
  induction fs with
  | nil => rfl
  | cons f fs ih => rw [Field.listToJson, ih, List.map_cons]

theorem Ty.optionToJson_eq (t : Option Ty) : Ty.optionToJson t = t.map Ty.toJson := by
  cases t <;> rfl

theorem Expr.optionToJson_eq (e : Option Expr) : Expr.optionToJson e = e.map Expr.toJson := by
  cases e <;> rfl

theorem Ty.toJson_eq (t : Ty) : t.toJson =
    .ofFields (("kind", .ofString t.kindSlots.1) :: present t.kindSlots.2) := by
  cases t with
  | struct package name =>
    have hslots : present [("package", textSlot package), ("name", some (.ofString name))] =
        textField "package" package ++ [("name", .ofString name)] := by
      rw [textField_eq]
      exact present_append [("package", textSlot package)] [("name", some (.ofString name))]
    rw [Ty.kindSlots, hslots]
    rfl
  | func params result =>
    simp only [Ty.toJson, Ty.kindSlots, optionField_eq, Field.listToJson_eq, Ty.optionToJson_eq]
    rfl
  | _ => rfl

theorem Field.toJson_eq (f : Field) : f.toJson = .ofFields (present f.slots) := by
  obtain ⟨doc, options, type, names, default, tag, comment⟩ := f
  simp only [Field.toJson, textField_eq, listField_eq, optionField_eq, Ty.optionToJson_eq,
    Expr.optionToJson_eq, ← present_append]
  rfl

theorem Ty.toJson_ne_null (t : Ty) : t.toJson ≠ .null := by
  rw [t.toJson_eq]
  exact Json.noConfusion

theorem Expr.toJson_ne_null (e : Expr) : e.toJson ≠ .null := by
  cases e <;> exact Json.noConfusion

/-- The slots of a bean. -/
def Bean.slots (b : Bean) : List (String × Option Json) :=
  [("id", b.id.map fun id => .ofNat id.toNat), ("kind", some (.ofString b.kind.text)),
    ("doc", textSlot b.doc), ("name", some (.ofString b.name)),
    ("extends", listSlot (b.extended.map Ty.toJson)), ("tag", textSlot b.tag.text),
    ("fields", some (.array (b.fields.map Field.toJson))), ("comment", textSlot b.comment)]

/-- The slots of an import. -/
def ImportSpec.slots (s : ImportSpec) : List (String × Option Json) :=
  [("doc", textSlot s.doc), ("name", textSlot s.name), ("package", some (.ofString s.package)),
    ("comment", textSlot s.comment)]

/-- The slots of a constant. -/
def ConstSpec.slots (s : ConstSpec) : List (String × Option Json) :=
  [("doc", textSlot s.doc), ("name", some (.ofString s.name)), ("value", some s.value.toJson),
    ("comment", textSlot s.comment)]

/-- The slots of imports or constants that are declared together. -/
def GenDecl.slots (d : GenDecl) : List (String × Option Json) :=
  [("doc", textSlot d.doc), ("imports", listSlot (d.imports.map ImportSpec.toJson)),
    ("consts", listSlot (d.consts.map ConstSpec.toJson))]

/-- The slots of a file. -/
def File.slots (f : File) : List (String × Option Json) :=
  [("filename", some (.ofString f.filename)), ("doc", textSlot f.doc),
    ("package", some (.ofString f.package)), ("beans", listSlot (f.beans.map Bean.toJson)),
    ("decls", listSlot (f.decls.map GenDecl.toJson)),
    ("unresolved", listSlot (f.unresolved.map .ofString))]

/-- The slots of a package. -/
def Package.slots (p : Package) : List (String × Option Json) :=
  [("name", some (.ofString p.name)),
    ("imports", if p.imports.isEmpty then none else some (importsToJson p.imports)),
    ("files", some (.array (p.files.map File.toJson)))]

/-- A field that is always there. -/
theorem present_some (n : String) (j : Json) : [(n, j)] = present [(n, some j)] := rfl

theorem Bean.toJson_eq (b : Bean) : b.toJson = .ofFields (present b.slots) := by
  simp only [Bean.toJson, textField_eq, listField_eq, optionField_eq, present_some, ← present_append]
  rfl

theorem ImportSpec.toJson_eq (s : ImportSpec) : s.toJson = .ofFields (present s.slots) := by
  simp only [ImportSpec.toJson, textField_eq, present_some, ← present_append]
  rfl

theorem ConstSpec.toJson_eq (s : ConstSpec) : s.toJson = .ofFields (present s.slots) := by
  have hpair : [("name", .ofString s.name), ("value", s.value.toJson)] =
      present [("name", some (.ofString s.name)), ("value", some s.value.toJson)] := rfl
  simp only [ConstSpec.toJson, textField_eq, hpair, ← present_append]
  rfl

theorem GenDecl.toJson_eq (d : GenDecl) : d.toJson = .ofFields (present d.slots) := by
  simp only [GenDecl.toJson, textField_eq, listField_eq, ← present_append]
  rfl

theorem File.toJson_eq (f : File) : f.toJson = .ofFields (present f.slots) := by
  simp only [File.toJson, textField_eq, listField_eq, present_some, ← present_append]
  rfl

theorem Package.toJson_eq (p : Package) : p.toJson = .ofFields (present p.slots) := by
  have himports : (if p.imports.isEmpty then [] else [("imports", importsToJson p.imports)]) =
      present [("imports", if p.imports.isEmpty then none else some (importsToJson p.imports))] := by
    split <;> rfl
  rw [Package.toJson, himports]
  simp only [present_some, ← present_append]
  rfl

/-! ### What is written -/

/-- A record is written if all its slots are. -/
theorem written_present {slots : List (String × Option Json)}
    (h : ∀ s ∈ slots, ∀ j ∈ s.2, j.Written) : (Json.ofFields (present slots)).Written :=
  .ofFields fun f hf => h (f.1, some f.2) (mem_present.1 hf) f.2 rfl

theorem written_textSlot (t : String) : ∀ j ∈ textSlot t, j.Written := by
  unfold textSlot
  split
  · simp
  · simp [Json.Written.text]

theorem written_array {α : Type} {toJson : α → Json} {xs : List α}
    (h : ∀ x ∈ xs, (toJson x).Written) : (Json.array (xs.map toJson)).Written :=
  .array (List.forall_mem_map.2 h)

theorem written_listSlot {α : Type} {toJson : α → Json} {xs : List α}
    (h : ∀ x ∈ xs, (toJson x).Written) : ∀ j ∈ listSlot (xs.map toJson), j.Written := by
  unfold listSlot
  split
  · simp
  · simpa using written_array h

theorem written_some {j : Json} (h : j.Written) : ∀ i ∈ some j, i.Written := by
  rintro _ ⟨⟩
  exact h

theorem written_map {α : Type} {toJson : α → Json} {v : Option α}
    (h : ∀ x, v = some x → (toJson x).Written) : ∀ j ∈ v.map toJson, j.Written := by
  intro j hj
  obtain ⟨x, hx, rfl⟩ := Option.map_eq_some_iff.1 hj
  exact h x hx

theorem ArraySize.toJson_written (s : ArraySize) : s.toJson.Written := by
  cases s with
  | literal n => exact .ofFields (by simpa using .number n.toNat_lt)
  | const name value =>
    refine .ofFields ?_
    rw [List.forall_mem_singleton]
    refine .ofFields ?_
    rw [List.forall_mem_cons, List.forall_mem_singleton]
    refine ⟨.text name, ?_⟩
    cases value with
    | none => exact .null
    | some n => exact .number n.toNat_lt
  | invalid => exact .text _

theorem toJson_written :
    (∀ t : Ty, t.toJson.Written) ∧ (∀ f : Field, f.toJson.Written) ∧ ∀ e : Expr, e.toJson.Written := by
  have htype {t : Ty} (h : ∀ s ∈ t.kindSlots.2, ∀ j ∈ s.2, j.Written) : t.toJson.Written := by
    rw [t.toJson_eq]
    refine .ofFields ?_
    rw [List.forall_mem_cons]
    exact ⟨.text _, fun f hf => h (f.1, some f.2) (mem_present.1 hf) f.2 rfl⟩
  have hpair {n : String} {j : Json} (h : j.Written) : (Json.ofFields [(n, j)]).Written :=
    .ofFields (by simpa using h)
  apply induct
  case basic => exact fun name => htype (by simp [Ty.kindSlots, Json.Written.text])
  case array =>
    intro elem size helem
    exact htype (by simp [Ty.kindSlots, helem, size.toJson_written])
  case vector => exact fun elem helem => htype (by simp [Ty.kindSlots, helem])
  case map => exact fun key value hkey hvalue => htype (by simp [Ty.kindSlots, hkey, hvalue])
  case struct =>
    intro package name
    refine htype ?_
    rw [Ty.kindSlots, List.forall_mem_cons, List.forall_mem_singleton]
    exact ⟨written_textSlot package, written_some (.text name)⟩
  case func =>
    intro params result hparams hresult
    refine htype ?_
    rw [Ty.kindSlots, List.forall_mem_cons, List.forall_mem_singleton]
    exact ⟨written_some (written_array hparams), written_map hresult⟩
  case invalid => exact htype (by simp [Ty.kindSlots])
  case field =>
    intro f htype hdefault
    rw [f.toJson_eq]
    refine written_present ?_
    simp only [Field.slots, List.forall_mem_cons]
    exact ⟨written_textSlot _, written_listSlot fun s _ => .text s, written_map htype,
      written_listSlot fun s _ => .text s, written_map hdefault, written_textSlot _,
      written_textSlot _, by simp⟩
  case ident => exact fun name => hpair (.text name)
  case lit => exact fun kind text => hpair (.ofFields (by simp [Json.Written.text]))
  case type => exact fun t ht => hpair ht
  case nothing => exact .text _

theorem Bean.toJson_written (b : Bean) : b.toJson.Written := by
  rw [b.toJson_eq]
  refine written_present ?_
  simp only [Bean.slots, List.forall_mem_cons]
  exact ⟨written_map fun id _ => .number (Nat.lt_trans id.toNat_lt (by decide)),
    written_some (.text _), written_textSlot _, written_some (.text _),
    written_listSlot fun t _ => Ir.toJson_written.1 t, written_textSlot _,
    written_some (written_array fun f _ => Ir.toJson_written.2.1 f), written_textSlot _, by simp⟩

theorem ImportSpec.toJson_written (s : ImportSpec) : s.toJson.Written := by
  rw [s.toJson_eq]
  refine written_present ?_
  simp only [ImportSpec.slots, List.forall_mem_cons]
  exact ⟨written_textSlot _, written_textSlot _, written_some (.text _), written_textSlot _, by simp⟩

theorem ConstSpec.toJson_written (s : ConstSpec) : s.toJson.Written := by
  rw [s.toJson_eq]
  refine written_present ?_
  simp only [ConstSpec.slots, List.forall_mem_cons]
  exact ⟨written_textSlot _, written_some (.text _), written_some (Ir.toJson_written.2.2 _),
    written_textSlot _, by simp⟩

theorem GenDecl.toJson_written (d : GenDecl) : d.toJson.Written := by
  rw [d.toJson_eq]
  refine written_present ?_
  simp only [GenDecl.slots, List.forall_mem_cons]
  exact ⟨written_textSlot _, written_listSlot fun s _ => s.toJson_written,
    written_listSlot fun s _ => s.toJson_written, by simp⟩

theorem File.toJson_written (f : File) : f.toJson.Written := by
  rw [f.toJson_eq]
  refine written_present ?_
  simp only [File.slots, List.forall_mem_cons]
  exact ⟨written_some (.text _), written_textSlot _, written_some (.text _),
    written_listSlot fun b _ => b.toJson_written, written_listSlot fun d _ => d.toJson_written,
    written_listSlot fun s _ => .text s, by simp⟩

theorem importsToJson_written (imports : NameMap String) : (importsToJson imports).Written := by
  refine .ofFields (List.forall_mem_map.2 fun e _ => ?_)
  exact .text e.2

theorem Package.toJson_written (p : Package) : p.toJson.Written := by
  rw [p.toJson_eq]
  refine written_present ?_
  simp only [Package.slots, List.forall_mem_cons]
  refine ⟨written_some (.text _), ?_, written_some (written_array fun f _ => f.toJson_written),
    by simp⟩
  split
  · simp
  · exact written_some (importsToJson_written _)

end Ir

theorem Ir.written (ir : Ir) : ir.toJson.Written := by
  refine .ofFields ?_
  rw [List.forall_mem_singleton]
  exact written_array fun p _ => p.toJson_written

end Idl
