/-
Idl/Proofs/Ir/RoundTrip.lean

Decoding undoes encoding.

Every record is read back slot by slot, as long as it does not nest deeper than the levels that are
left (`ofJson?_toJson`, `Bean.ofJson?_toJson` and so on up to `Package.ofJson?_toJson`).  The levels
that one record spends are those that its JSON takes, so nothing is lost that nests at most
`maxNesting` deep (`decode?_encode`).
-/
import Idl.Ir.Decode
import Idl.Proofs.Ir.Slots
import Idl.Proofs.Json.Reading
import Idl.Proofs.NameMaps

namespace Idl

namespace Ir

open JsonRecord (Slot)

theorem exists_succ_of_depth {fields : List (String × Json)} {levels : Nat}
    (h : (Json.ofFields fields).depth ≤ levels) : ∃ k, levels = k + 1 := by
  cases levels with
  | zero => exact absurd h (Nat.not_succ_le_zero _)
  | succ k => exact ⟨k, rfl⟩

/-! ### Choices -/

theorem choice?_ofFields (levels : Nat) (name : String) (content : Json) :
    choice? (levels + 1) (.ofFields [(name, content)]) = some (levels, name, some content) := rfl

theorem choice?_ofString (levels : Nat) (name : String) :
    choice? levels (.ofString name) = some (levels, name, none) := rfl

/-- A word is read back if no other choice has the same. -/
theorem word?_ofString {α : Type} (inType : Bool) {all : List α} {text : α → String} {a : α}
    (h : all.find? (text · = text a) = some a) (levels : Nat) :
    word? inType all text levels (.ofString (text a)) = some a := by
  rw [word?, choice?_ofString]
  exact h

theorem word?_litKind (inType : Bool) (kind : LitKind) (levels : Nat) :
    word? inType litKinds LitKind.text levels (.ofString kind.text) = some kind :=
  word?_ofString inType (by cases kind <;> decide) levels

theorem word?_beanKind (inType : Bool) (kind : BeanKind) (levels : Nat) :
    word? inType BeanKind.all BeanKind.text levels (.ofString kind.text) = some kind :=
  word?_ofString inType (by cases kind <;> decide) levels

/-- The value of a constant, if it has one. -/
theorem ArraySize.ofJson?_const (name : String) {v : Json} {value : Option UInt64} {levels : Nat}
    (hd : (Json.ofFields [("name", .ofString name), ("value", v)]).depth ≤ levels)
    (hv : v = .null ∧ value = none ∨ ∃ n : UInt64, v = .ofNat n.toNat ∧ value = some n) :
    ArraySize.ofJson? (levels + 1)
      (.ofFields [("const", .ofFields [("name", .ofString name), ("value", v)])]) =
      some (.const name value) := by
  obtain ⟨k, r, rfl, hread, hpositional, hslots⟩ := JsonRecord.read?_present
    ["name", "value"] [("name", some (.ofString name)), ("value", some v)] rfl (by decide) hd
  simp only [List.forall_mem_cons] at hslots
  obtain ⟨hname, hvalue, -⟩ := hslots
  have hoptional : r.optional "value" (Json.natBelow? UInt64.size) =
      some (value.map UInt64.toNat) := by
    rw [JsonRecord.optional, hvalue.find]
    rcases hv with ⟨rfl, rfl⟩ | ⟨n, rfl, rfl⟩
    · rfl
    · show (Option.map some (Json.natBelow? UInt64.size (.ofNat n.toNat))) = _
      rw [Json.natBelow?_ofNat n.toNat_lt]
      rfl
  have hword : (value.map UInt64.toNat).map UInt64.ofNat = value := by
    cases value <;> simp
  have hrequired : r.required "name" Json.string? = some name := hname.required fun _ => rfl
  have hread : JsonRecord.read? ["name", "value"] (k + 1)
      (.ofFields [("name", .ofString name), ("value", v)]) = some (k, r) := hread
  rw [ArraySize.ofJson?, choice?_ofFields]
  simp only [Option.bind_eq_bind, Option.bind_some, Option.pure_def, hread, hpositional, Bool.false_and,
    Bool.false_eq_true, ↓reduceIte, hoptional, hrequired, hword]

theorem ArraySize.ofJson?_toJson (s : ArraySize) {levels : Nat} (hd : s.toJson.depth ≤ levels) :
    ArraySize.ofJson? levels s.toJson = some s := by
  cases s with
  | literal n =>
    obtain ⟨k, rfl⟩ := exists_succ_of_depth hd
    have hn := Json.natBelow?_ofNat n.toNat_lt
    rw [ArraySize.ofJson?, ArraySize.toJson, choice?_ofFields]
    simp [hn]
  | const name value =>
    obtain ⟨k, rfl⟩ := exists_succ_of_depth hd
    have hcontent := Json.depth_ofFields_le.1 hd ("const", _) List.mem_cons_self
    cases value with
    | none => exact ArraySize.ofJson?_const name hcontent (.inl ⟨rfl, rfl⟩)
    | some n => exact ArraySize.ofJson?_const name hcontent (.inr ⟨n, rfl, rfl⟩)
  | invalid => rfl

/-! ### Types, fields and values -/

theorem Ty.kind_not_mem (t : Ty) : "kind" ∉ t.kindSlots.2.map (·.1) := by
  cases t <;> simp [Ty.kindSlots]

theorem Ty.slots_nodup (t : Ty) : (t.kindSlots.2.map (·.1)).Nodup := by
  cases t <;> simp [Ty.kindSlots]

theorem Ty.tagged?_toJson (inType : Bool) (t : Ty) :
    tagged? inType t.toJson = some (t.kindSlots.1, .ofFields (present t.kindSlots.2)) := by
  have hother : ∀ m ∈ (present t.kindSlots.2).map fun f => ((some f.1, f.2) : JsonText × Json),
      m.1 ≠ some "kind" := by
    refine List.forall_mem_map.2 fun f hf heq => t.kind_not_mem ?_
    exact List.mem_map.2 ⟨_, mem_present.1 hf, Option.some.inj heq⟩
  rw [t.toJson_eq, Json.ofFields, List.map_cons, tagged?]
  have hkind : (((some "kind", .ofString t.kindSlots.1) ::
      (present t.kindSlots.2).map fun f => ((some f.1, f.2) : JsonText × Json)).filter
        (·.1 = some "kind")) = [(some "kind", .ofString t.kindSlots.1)] := by
    rw [List.filter_cons_of_pos (by simp), List.filter_eq_nil_iff.2 fun m hm => by simp [hother m hm]]
  have hrest : (((some "kind", .ofString t.kindSlots.1) ::
      (present t.kindSlots.2).map fun f => ((some f.1, f.2) : JsonText × Json)).filter
        (·.1 ≠ some "kind")) = (present t.kindSlots.2).map fun f => (some f.1, f.2) := by
    rw [List.filter_cons_of_neg (by simp), List.filter_eq_self.2 fun m hm => by simp [hother m hm]]
  simp only [hkind, hrest]
  rfl

/-- A type is read with all its slots. -/
theorem Ty.read_slots (t : Ty) {levels : Nat} (hd : t.toJson.depth ≤ levels) :
    ∃ k r, levels = k + 1 ∧ (∀ s ∈ t.kindSlots.2, r.Slot k s.1 s.2) ∧
      JsonRecord.read? (t.kindSlots.2.map (·.1)) levels (.ofFields (present t.kindSlots.2)) =
        some (k, r) := by
  have hbody : (Json.ofFields (present t.kindSlots.2)).depth ≤ levels := by
    rw [t.toJson_eq] at hd
    obtain ⟨k, rfl⟩ := exists_succ_of_depth hd
    exact Json.depth_ofFields_le.2 fun f hf =>
      Json.depth_ofFields_le.1 hd f (List.mem_cons_of_mem _ hf)
  obtain ⟨k, r, hk, hread, -, hslots⟩ := JsonRecord.read?_present _ _ rfl t.slots_nodup hbody
  exact ⟨k, r, hk, hslots, hread⟩

/-- A type is not too deep to be read as a whole. -/
theorem Ty.fits_toJson (t : Ty) (inType : Bool) {levels : Nat} (hd : t.toJson.depth ≤ levels) :
    (!inType && !t.toJson.fits levels) = false := by
  rw [(Ir.toJson_written.1 t).fits hd, Bool.not_true, Bool.and_false]

/-- Types, fields and values are read back where enough levels are left. -/
theorem ofJson?_toJson :
    (∀ t : Ty, ∀ {inType levels}, t.toJson.depth ≤ levels →
      Ty.ofJson? inType levels t.toJson = some t) ∧
    (∀ f : Field, ∀ {inType levels}, f.toJson.depth ≤ levels →
      Field.ofJson? inType levels f.toJson = some f) ∧
    ∀ e : Expr, ∀ {inType levels}, e.toJson.depth ≤ levels →
      Expr.ofJson? inType levels e.toJson = some e := by
  apply induct
  case basic =>
    intro name inType levels hd
    obtain ⟨k, r, rfl, hslots, hread⟩ := (Ty.basic name).read_slots hd
    simp only [Ty.kindSlots, List.forall_mem_cons, List.map_cons, List.map_nil] at hslots hread
    obtain ⟨hname, -⟩ := hslots
    have hname : r.required "name" Json.string? = some name := hname.required fun _ => rfl
    unfold Ty.ofJson?
    simp [Ty.fits_toJson _ _ hd, Ty.tagged?_toJson, Ty.kindSlots, hread, hname]
  case array =>
    intro elem size helem inType levels hd
    obtain ⟨k, r, rfl, hslots, hread⟩ := (Ty.array elem size).read_slots hd
    simp only [Ty.kindSlots, List.forall_mem_cons, List.map_cons, List.map_nil] at hslots hread
    obtain ⟨helem', hsize, -⟩ := hslots
    have helem : r.required "elem" (Ty.ofJson? true k) = some elem := helem'.required helem
    have hsize : r.required "size" (ArraySize.ofJson? k) = some size :=
      hsize.required size.ofJson?_toJson
    unfold Ty.ofJson?
    simp [Ty.fits_toJson _ _ hd, Ty.tagged?_toJson, Ty.kindSlots, hread, helem, hsize]
  case vector =>
    intro elem helem inType levels hd
    obtain ⟨k, r, rfl, hslots, hread⟩ := (Ty.vector elem).read_slots hd
    simp only [Ty.kindSlots, List.forall_mem_cons, List.map_cons, List.map_nil] at hslots hread
    obtain ⟨helem', -⟩ := hslots
    have helem : r.required "elem" (Ty.ofJson? true k) = some elem := helem'.required helem
    unfold Ty.ofJson?
    simp [Ty.fits_toJson _ _ hd, Ty.tagged?_toJson, Ty.kindSlots, hread, helem]
  case map =>
    intro key value hkey hvalue inType levels hd
    obtain ⟨k, r, rfl, hslots, hread⟩ := (Ty.map key value).read_slots hd
    simp only [Ty.kindSlots, List.forall_mem_cons, List.map_cons, List.map_nil] at hslots hread
    obtain ⟨hkey', hvalue', -⟩ := hslots
    have hkey : r.required "key" (Ty.ofJson? true k) = some key := hkey'.required hkey
    have hvalue : r.required "value" (Ty.ofJson? true k) = some value := hvalue'.required hvalue
    unfold Ty.ofJson?
    simp [Ty.fits_toJson _ _ hd, Ty.tagged?_toJson, Ty.kindSlots, hread, hkey, hvalue]
  case struct =>
    intro package name inType levels hd
    obtain ⟨k, r, rfl, hslots, hread⟩ := (Ty.struct package name).read_slots hd
    simp only [Ty.kindSlots, List.forall_mem_cons, List.map_cons, List.map_nil] at hslots hread
    obtain ⟨hpackage, hname, -⟩ := hslots
    have hname : r.required "name" Json.string? = some name := hname.required fun _ => rfl
    unfold Ty.ofJson?
    simp [Ty.fits_toJson _ _ hd, Ty.tagged?_toJson, Ty.kindSlots, hread, hpackage.textOrEmpty, hname]
  case func =>
    intro params result hparams hresult inType levels hd
    obtain ⟨k, r, rfl, hslots, hread⟩ := (Ty.func params result).read_slots hd
    simp only [Ty.kindSlots, List.forall_mem_cons, List.map_cons, List.map_nil] at hslots hread
    obtain ⟨hparams', hresult', -⟩ := hslots
    have hresult : r.optional "result" (Ty.ofJson? true k) = some result :=
      hresult'.optional Ty.toJson_ne_null fun t ht => hresult t ht
    have hparams : (r.withDefault "params" [] fun j => (j.items? k).bind fun x =>
        x.2.mapM (Field.ofJson? true k)) = some params := by
      refine hparams'.given fun hd => ?_
      cases k with
      | zero => exact absurd hd (Nat.not_succ_le_zero _)
      | succ k =>
        refine Json.mapM_read fun p hp => hparams p hp (Nat.le_succ_of_le ?_)
        exact Json.depth_array_le.1 hd _ (List.mem_map_of_mem hp)
    unfold Ty.ofJson?
    simp [Ty.fits_toJson _ _ hd, Ty.tagged?_toJson, Ty.kindSlots, hread, hparams, hresult]
  case invalid =>
    intro inType levels hd
    obtain ⟨k, r, rfl, hslots, hread⟩ := Ty.invalid.read_slots hd
    unfold Ty.ofJson?
    simp [Ty.fits_toJson _ _ hd, Ty.tagged?_toJson, Ty.kindSlots, Json.ofFields]
  case field =>
    intro f htype hdefault inType levels hd
    rw [f.toJson_eq] at hd ⊢
    obtain ⟨k, r, rfl, hread, -, hslots⟩ := JsonRecord.read?_present
      ["doc", "options", "type", "names", "default", "tag", "comment"] f.slots rfl (by decide) hd
    simp only [Field.slots, List.forall_mem_cons] at hslots
    obtain ⟨hdoc, hoptions, htype', hnames, hdefault', htag, hcomment, -⟩ := hslots
    have htype : r.optional "type" (Ty.ofJson? inType k) = some f.type :=
      htype'.optional Ty.toJson_ne_null fun t ht => htype t ht
    have hdefault : r.optional "default" (Expr.ofJson? inType k) = some f.default :=
      hdefault'.optional Expr.toJson_ne_null fun e he => hdefault e he
    unfold Field.ofJson?
    simp only [Option.bind_eq_bind, Option.bind_some, Option.pure_def, hread, hdoc.textOrEmpty, hoptions.strings, htype,
      hnames.strings, hdefault, htag.textOrEmpty, hcomment.textOrEmpty]
    cases f
    rfl
  case ident =>
    intro name inType levels hd
    obtain ⟨k, rfl⟩ := exists_succ_of_depth hd
    rfl
  case lit =>
    intro kind text inType levels hd
    obtain ⟨k, rfl⟩ := exists_succ_of_depth hd
    have hcontent : (Json.ofFields (present [("kind", some (.ofString kind.text)),
        ("value", some (.ofString text))])).depth ≤ k :=
      Json.depth_ofFields_le.1 hd ("lit", _) List.mem_cons_self
    obtain ⟨l, r, rfl, hread, -, hslots⟩ :=
      JsonRecord.read?_present ["kind", "value"] _ rfl (by decide) hcontent
    simp only [List.forall_mem_cons] at hslots
    obtain ⟨hkind, hvalue, -⟩ := hslots
    have hkind : r.required "kind" (word? inType litKinds LitKind.text l) = some kind :=
      hkind.required fun _ => word?_litKind inType kind l
    have hvalue : r.required "value" Json.string? = some text := hvalue.required fun _ => rfl
    have hread : JsonRecord.read? ["kind", "value"] (l + 1)
      (.ofFields [("kind", .ofString kind.text), ("value", .ofString text)]) = some (l, r) := hread
    unfold Expr.ofJson?
    rw [Expr.toJson, choice?_ofFields]
    simp [hread, hkind, hvalue]
  case type =>
    intro t ht inType levels hd
    obtain ⟨k, rfl⟩ := exists_succ_of_depth hd
    have ht : Ty.ofJson? inType k t.toJson = some t :=
      ht (Json.depth_ofFields_le.1 hd ("type", _) List.mem_cons_self)
    unfold Expr.ofJson?
    rw [Expr.toJson, choice?_ofFields]
    simp [ht]
  case nothing =>
    intro inType levels hd
    cases levels <;> rfl

/-! ### Declarations, files and packages -/

theorem Bean.ofJson?_toJson (b : Bean) {levels : Nat} (hd : b.toJson.depth ≤ levels) :
    Bean.ofJson? levels b.toJson = some b := by
  rw [b.toJson_eq] at hd ⊢
  obtain ⟨k, r, rfl, hread, -, hslots⟩ := JsonRecord.read?_present
    ["id", "kind", "doc", "name", "extends", "tag", "fields", "comment"] b.slots rfl (by decide) hd
  simp only [Bean.slots, List.forall_mem_cons] at hslots
  obtain ⟨hid, hkind, hdoc, hname, hextended, htag, hfields, hcomment, -⟩ := hslots
  have hid : r.optional "id" (Json.natBelow? UInt32.size) = some (b.id.map UInt32.toNat) := by
    have hid : r.Slot k "id" ((b.id.map UInt32.toNat).map Json.ofNat) := by
      simpa [Function.comp_def] using hid
    refine hid.optional (fun _ => Json.noConfusion) fun n hn _ => ?_
    obtain ⟨id, -, rfl⟩ := Option.map_eq_some_iff.1 hn
    exact Json.natBelow?_ofNat id.toNat_lt
  have hword : (b.id.map UInt32.toNat).map UInt32.ofNat = b.id := by
    cases b.id <;> simp
  have hkind : r.required "kind" (word? false BeanKind.all BeanKind.text k) = some b.kind :=
    hkind.required fun _ => word?_beanKind false b.kind k
  have hname : r.required "name" Json.string? = some b.name := hname.required fun _ => rfl
  have hextended : r.withDefault "extends" [] (Json.list? (Ty.ofJson? false) k) = some b.extended :=
    hextended.list fun t _ _ => Ir.ofJson?_toJson.1 t
  have hfields : r.withDefault "fields" [] (Json.list? (Field.ofJson? false) k) = some b.fields :=
    hfields.given fun hd => Json.list?_array hd fun f _ _ => Ir.ofJson?_toJson.2.1 f
  unfold Bean.ofJson?
  simp only [Option.bind_eq_bind, Option.bind_some, Option.pure_def, hread, hid, hword, hkind,
    hdoc.textOrEmpty, hname, hextended, htag.textOrEmpty, hfields, hcomment.textOrEmpty]

theorem ImportSpec.ofJson?_toJson (s : ImportSpec) {levels : Nat} (hd : s.toJson.depth ≤ levels) :
    ImportSpec.ofJson? levels s.toJson = some s := by
  rw [s.toJson_eq] at hd ⊢
  obtain ⟨k, r, rfl, hread, -, hslots⟩ :=
    JsonRecord.read?_present ["doc", "name", "package", "comment"] s.slots rfl (by decide) hd
  simp only [ImportSpec.slots, List.forall_mem_cons] at hslots
  obtain ⟨hdoc, hname, hpackage, hcomment, -⟩ := hslots
  have hpackage : r.required "package" Json.string? = some s.package := hpackage.required fun _ => rfl
  unfold ImportSpec.ofJson?
  simp only [Option.bind_eq_bind, Option.bind_some, Option.pure_def, hread, hdoc.textOrEmpty,
    hname.textOrEmpty, hpackage, hcomment.textOrEmpty]

theorem ConstSpec.ofJson?_toJson (s : ConstSpec) {levels : Nat} (hd : s.toJson.depth ≤ levels) :
    ConstSpec.ofJson? levels s.toJson = some s := by
  rw [s.toJson_eq] at hd ⊢
  obtain ⟨k, r, rfl, hread, -, hslots⟩ :=
    JsonRecord.read?_present ["doc", "name", "value", "comment"] s.slots rfl (by decide) hd
  simp only [ConstSpec.slots, List.forall_mem_cons] at hslots
  obtain ⟨hdoc, hname, hvalue, hcomment, -⟩ := hslots
  have hname : r.required "name" Json.string? = some s.name := hname.required fun _ => rfl
  have hvalue : r.required "value" (Expr.ofJson? false k) = some s.value :=
    hvalue.required (Ir.ofJson?_toJson.2.2 s.value)
  unfold ConstSpec.ofJson?
  simp only [Option.bind_eq_bind, Option.bind_some, Option.pure_def, hread, hdoc.textOrEmpty, hname,
    hvalue, hcomment.textOrEmpty]

theorem GenDecl.ofJson?_toJson (d : GenDecl) {levels : Nat} (hd : d.toJson.depth ≤ levels) :
    GenDecl.ofJson? levels d.toJson = some d := by
  rw [d.toJson_eq] at hd ⊢
  obtain ⟨k, r, rfl, hread, -, hslots⟩ :=
    JsonRecord.read?_present ["doc", "imports", "consts"] d.slots rfl (by decide) hd
  simp only [GenDecl.slots, List.forall_mem_cons] at hslots
  obtain ⟨hdoc, himports, hconsts, -⟩ := hslots
  have himports : r.withDefault "imports" [] (Json.list? ImportSpec.ofJson? k) = some d.imports :=
    himports.list fun s _ _ => s.ofJson?_toJson
  have hconsts : r.withDefault "consts" [] (Json.list? ConstSpec.ofJson? k) = some d.consts :=
    hconsts.list fun s _ _ => s.ofJson?_toJson
  unfold GenDecl.ofJson?
  simp only [Option.bind_eq_bind, Option.bind_some, Option.pure_def, hread, hdoc.textOrEmpty,
    himports, hconsts]

theorem File.ofJson?_toJson (f : File) {levels : Nat} (hd : f.toJson.depth ≤ levels) :
    File.ofJson? levels f.toJson = some f := by
  rw [f.toJson_eq] at hd ⊢
  obtain ⟨k, r, rfl, hread, -, hslots⟩ := JsonRecord.read?_present
    ["filename", "doc", "package", "beans", "decls", "unresolved"] f.slots rfl (by decide) hd
  simp only [File.slots, List.forall_mem_cons] at hslots
  obtain ⟨hfilename, hdoc, hpackage, hbeans, hdecls, hunresolved, -⟩ := hslots
  have hfilename : r.required "filename" Json.string? = some f.filename :=
    hfilename.required fun _ => rfl
  have hpackage : r.required "package" Json.string? = some f.package := hpackage.required fun _ => rfl
  have hbeans : r.withDefault "beans" [] (Json.list? Bean.ofJson? k) = some f.beans :=
    hbeans.list fun b _ _ => b.ofJson?_toJson
  have hdecls : r.withDefault "decls" [] (Json.list? GenDecl.ofJson? k) = some f.decls :=
    hdecls.list fun d _ _ => d.ofJson?_toJson
  unfold File.ofJson?
  simp only [Option.bind_eq_bind, Option.bind_some, Option.pure_def, hread, hfilename,
    hdoc.textOrEmpty, hpackage, hbeans, hdecls, hunresolved.strings]

theorem importsOfJson?_toJson (imports : NameMap String) {levels : Nat}
    (hd : (importsToJson imports).depth ≤ levels) :
    importsOfJson? levels (importsToJson imports) = some imports := by
  obtain ⟨k, rfl⟩ := exists_succ_of_depth hd
  let write (e : String × String) : String × Json := (e.1, .ofString e.2)
  have hpaths : (imports.entries.map write).mapM (fun m => m.2.string?.map (m.1, ·)) =
      some imports.entries := Json.mapM_read fun _ _ => rfl
  unfold importsOfJson?
  rw [importsToJson, Json.members?_ofFields]
  simp only [Option.bind_eq_bind, Option.bind_some, Option.pure_def]
  rw [hpaths, Option.bind_some, NameMap.ofList_entries]

theorem Package.ofJson?_toJson (p : Package) {levels : Nat} (hd : p.toJson.depth ≤ levels) :
    Package.ofJson? levels p.toJson = some p := by
  rw [p.toJson_eq] at hd ⊢
  obtain ⟨k, r, rfl, hread, -, hslots⟩ :=
    JsonRecord.read?_present ["name", "imports", "files"] p.slots rfl (by decide) hd
  simp only [Package.slots, List.forall_mem_cons] at hslots
  obtain ⟨hname, himports, hfiles, -⟩ := hslots
  have hname : r.required "name" Json.string? = some p.name := hname.required fun _ => rfl
  have himports : r.withDefault "imports" .empty (importsOfJson? k) = some p.imports := by
    by_cases hempty : p.imports.isEmpty = true
    · have hnone : p.imports = .empty := NameMap.ext fun n => by
        rw [NameMap.find?, List.isEmpty_iff.1 hempty]
        rfl
      have hfind := himports.find
      rw [if_pos hempty] at hfind
      rw [JsonRecord.withDefault, hfind, hnone]
    · rw [if_neg hempty] at himports
      exact himports.given (importsOfJson?_toJson p.imports)
  have hfiles : r.required "files" (Json.list? File.ofJson? k) = some p.files :=
    hfiles.required fun hd => Json.list?_array hd fun f _ _ => f.ofJson?_toJson
  unfold Package.ofJson?
  simp only [Option.bind_eq_bind, Option.bind_some, Option.pure_def, hread, hname, himports, hfiles]

theorem ofJson?_root (ir : Ir) (h : ir.toJson.depth ≤ maxNesting) : ofJson? ir.toJson = some ir := by
  obtain ⟨k, r, hk, hread, -, hslots⟩ := JsonRecord.read?_present ["packages"]
    [("packages", some (.array (ir.packages.map Package.toJson)))] rfl (by decide) h
  rw [List.forall_mem_singleton] at hslots
  have hpackages : r.required "packages" (Json.list? Package.ofJson? k) = some ir.packages :=
    hslots.required fun hd => Json.list?_array hd fun p _ _ => p.ofJson?_toJson
  have hread : JsonRecord.read? ["packages"] maxNesting ir.toJson = some (k, r) := hread
  rw [ofJson?, hread]
  simp only [Option.bind_eq_bind, Option.bind_some, Option.pure_def, hpackages]

/-- Decoding undoes encoding. -/
theorem decode?_encode (ir : Ir) (h : ir.toJson.depth ≤ maxNesting) :
    decode? ir.encode = some ir := by
  rw [decode?, encode, Json.parse?_pretty ir.written, Option.bind_some]
  exact ir.ofJson?_root h

/-- A package with an import, whose bean has an id and a field of a nested type. -/
def nestedExample : Ir where
  packages := [{
    name := "shapes"
    imports := NameMap.empty.insert "geo" "lib/geo"
    files := [{
      filename := "shapes.pike"
      package := "shapes"
      beans := [{
        id := some 4294967295
        kind := .struct
        name := "Größe"
        extended := [.struct "geo" "Point"]
        fields := [{
          doc := "a \"quoted\" text\n"
          type := some (.map (.basic "string") (.array (.vector (.basic "byte")) (.const "n" none)))
          names := ["xs", "ys"]
          default := some (.type (.func [{ type := some .invalid }] (some (.basic "int")))) }] }]
      decls := [{ consts := [{ name := "n", value := .lit .int "0x10" }] }] }] }]

theorem decode?_encode_nested : nestedExample.toJson.depth ≤ maxNesting ∧
    decode? nestedExample.encode = some nestedExample :=
  have h : nestedExample.toJson.depth ≤ maxNesting := by decide
  ⟨h, decode?_encode nestedExample h⟩

end Ir

end Idl
