/-
Idl/Proofs/Json/Records.lean

Records and the fields they are written with.

A record is written as an object with a slot for every field, in order, and an empty slot is left
out (`present`).  Reading such an object finds in each slot what was written there (`read?_present`).
What a slot holds is then read back by the lemmas of `JsonRecord.Slot`, one for each sort of slot:
texts and lists that are left out when they are empty, values that are always there, and values that
there may be.
-/
import Idl.Ir.Encode
import Idl.Proofs.Json.Written

namespace Idl

/-! ### Slots -/

/-- The slot of a text. -/
def textSlot (t : String) : Option Json := if t.isEmpty then none else some (.ofString t)

/-- The slot of a list. -/
def listSlot (items : List Json) : Option Json := if items.isEmpty then none else some (.array items)

/-- The fields whose slots are not empty. -/
def present (slots : List (String × Option Json)) : List (String × Json) :=
  slots.filterMap fun s => s.2.map (s.1, ·)

theorem present_append (ss ss' : List (String × Option Json)) :
    present (ss ++ ss') = present ss ++ present ss' := List.filterMap_append

theorem mem_present {ss : List (String × Option Json)} {n : String} {j : Json} :
    (n, j) ∈ present ss ↔ (n, some j) ∈ ss := by
  simp only [present, List.mem_filterMap, Option.map_eq_some_iff, Prod.mk.injEq]
  constructor
  · rintro ⟨⟨n', v⟩, hmem, j', hv, rfl, rfl⟩
    exact hv ▸ hmem
  · exact fun h => ⟨(n, some j), h, j, rfl, rfl, rfl⟩

namespace Ir

theorem textField_eq (n t : String) : textField n t = present [(n, textSlot t)] := by
  unfold textField textSlot
  split <;> rfl

theorem listField_eq (n : String) (items : List Json) :
    listField n items = present [(n, listSlot items)] := by
  unfold listField listSlot
  split <;> rfl

theorem optionField_eq (n : String) (v : Option Json) : optionField n v = present [(n, v)] := by
  cases v <;> rfl

end Ir

/-- Fields with different names are found under their names. -/
theorem lookup_present {ss : List (String × Option Json)} (h : (ss.map (·.1)).Nodup)
    {s : String × Option Json} (hs : s ∈ ss) : (present ss).lookup s.1 = s.2 := by
  induction ss with
  | nil => cases hs
  | cons x ss ih =>
    obtain ⟨hx, hss⟩ := List.nodup_cons.1 h
    have hpresent : present (x :: ss) = (x.2.map (x.1, ·)).toList ++ present ss := by
      cases hv : x.2 <;> simp [present, hv]
    rw [hpresent, List.lookup_append]
    rcases List.mem_cons.1 hs with rfl | hs
    · have habsent : (present ss).lookup s.1 = none := by
        refine List.lookup_eq_none_iff.2 fun p hp => ?_
        refine bne_iff_ne.2 fun heq => hx ?_
        exact List.mem_map.2 ⟨_, mem_present.1 hp, heq.symm⟩
      rw [habsent]
      cases s.2 <;> simp
    · have hne : (s.1 == x.1) = false :=
        beq_eq_false_iff_ne.2 fun heq => hx (List.mem_map.2 ⟨s, hs, heq⟩)
      rw [ih hss hs]
      cases x.2 <;> simp [List.lookup_cons, hne]

/-- What is left out takes no name away from its place. -/
theorem present_names (ss : List (String × Option Json)) :
    ((present ss).map (·.1)).Sublist (ss.map (·.1)) := by
  induction ss with
  | nil => exact .slnil
  | cons s ss ih =>
    obtain ⟨n, v⟩ := s
    cases v with
    | none => exact ih.cons n
    | some j => exact ih.cons_cons n

/-! ### Reading slots -/

namespace Json

/-- A list is read when its items are. -/
theorem mapM_read {α β : Type} {write : α → β} {read : β → Option α} {xs : List α}
    (h : ∀ x ∈ xs, read (write x) = some x) : (xs.map write).mapM read = some xs := by
  induction xs with
  | nil => rfl
  | cons x xs ih =>
    rw [List.map_cons, List.mapM_cons, h x List.mem_cons_self,
      ih fun y hy => h y (List.mem_cons_of_mem _ hy)]
    rfl

theorem members?_ofFields (levels : Nat) (fields : List (String × Json)) :
    (ofFields fields).members? (levels + 1) = some (levels, fields) := by
  let write (f : String × Json) : JsonText × Json := (some f.1, f.2)
  exact congrArg (Option.map (levels, ·)) (@mapM_read _ _ write _ fields fun _ _ => rfl)

end Json

namespace JsonRecord

/-- The field of a record under a name is a slot, and nests at most `levels` deep. -/
structure Slot (r : JsonRecord) (levels : Nat) (n : String) (v : Option Json) : Prop where
  find : r.find? n = v
  depth : ∀ {j}, v = some j → j.depth ≤ levels

/-- A record is read with all its slots. -/
theorem read?_present (names : List String) (slots : List (String × Option Json))
    (hnames : slots.map (·.1) = names) (hnodup : names.Nodup) {levels : Nat}
    (hd : (Json.ofFields (present slots)).depth ≤ levels) :
    ∃ k r, levels = k + 1 ∧ read? names levels (.ofFields (present slots)) = some (k, r) ∧
      r.positional = false ∧ ∀ s ∈ slots, r.Slot k s.1 s.2 := by
  cases levels with
  | zero => exact absurd hd (Nat.not_succ_le_zero _)
  | succ k =>
    have hmembers : (present slots).filter (fun m => names.contains m.1) = present slots := by
      refine List.filter_eq_self.2 fun m hm => ?_
      rw [List.contains_iff_mem, ← hnames]
      exact List.mem_map_of_mem (mem_present.1 hm)
    have hknown : ((present slots).map (·.1)).Nodup :=
      (hnames ▸ hnodup : (slots.map (·.1)).Nodup).sublist (present_names slots)
    have hread : read? names (k + 1) (.ofFields (present slots)) =
        some (k, ⟨false, present slots⟩) := by
      show (Option.bind _ _ : Option (Nat × JsonRecord)) = _
      rw [Json.members?_ofFields, Option.bind_some]
      simp only [hmembers, if_pos hknown]
    refine ⟨k, ⟨false, present slots⟩, rfl, hread, rfl, fun s hs => ⟨?_, fun hj => ?_⟩⟩
    · exact lookup_present (hnames ▸ hnodup) hs
    · refine Json.depth_ofFields_le.1 hd (s.1, _) (mem_present.2 ?_)
      rw [← hj]
      exact hs

namespace Slot

variable {α : Type} {r : JsonRecord} {levels : Nat} {n : String}

theorem textOrEmpty {t : String} (h : r.Slot levels n (textSlot t)) : r.textOrEmpty n = some t := by
  unfold JsonRecord.textOrEmpty withDefault
  rw [h.find, textSlot]
  split
  · next heq =>
    split at heq
    · next hempty => rw [String.isEmpty_iff.1 hempty]
    · cases heq
  · next heq =>
    split at heq
    · cases heq
    · cases heq
      rfl

theorem required {j : Json} {read : Json → Option α} {a : α} (h : r.Slot levels n (some j))
    (hread : j.depth ≤ levels → read j = some a) : r.required n read = some a := by
  rw [JsonRecord.required, h.find, Option.bind_some, hread (h.depth rfl)]

/-- A field that is there although it could be left out. -/
theorem given {j : Json} {read : Json → Option α} {a d : α} (h : r.Slot levels n (some j))
    (hread : j.depth ≤ levels → read j = some a) : r.withDefault n d read = some a := by
  rw [JsonRecord.withDefault, h.find]
  exact hread (h.depth rfl)

theorem optional {toJson : α → Json} {read : Json → Option α} {v : Option α}
    (h : r.Slot levels n (v.map toJson)) (hnull : ∀ a, toJson a ≠ .null)
    (hread : ∀ a, v = some a → (toJson a).depth ≤ levels → read (toJson a) = some a) :
    r.optional n read = some v := by
  unfold JsonRecord.optional
  rw [h.find]
  cases v with
  | none => rfl
  | some a =>
    have hsome := hread a rfl (h.depth rfl)
    rw [Option.map_some]
    split
    · next heq => cases heq
    · next heq => exact absurd (Option.some.inj heq) (hnull a)
    · next heq =>
      obtain rfl := Option.some.inj heq
      rw [hsome]
      rfl

end Slot

end JsonRecord

namespace Json

variable {α : Type}

theorem list?_array {toJson : α → Json} {read : Nat → Json → Option α} {xs : List α} {levels : Nat}
    (hd : (array (xs.map toJson)).depth ≤ levels)
    (h : ∀ x ∈ xs, ∀ {levels}, (toJson x).depth ≤ levels → read levels (toJson x) = some x) :
    list? read levels (.array (xs.map toJson)) = some xs := by
  cases levels with
  | zero => exact absurd hd (Nat.not_succ_le_zero _)
  | succ k =>
    refine mapM_read fun x hx => h x hx ?_
    exact depth_array_le.1 hd _ (List.mem_map_of_mem hx)

theorem strings?_array {ss : List String} {levels : Nat}
    (hd : (array (ss.map ofString)).depth ≤ levels) :
    strings? levels (.array (ss.map ofString)) = some ss := by
  cases levels with
  | zero => exact absurd hd (Nat.not_succ_le_zero _)
  | succ k => exact mapM_read fun _ _ => rfl

end Json

namespace JsonRecord.Slot

variable {α : Type} {r : JsonRecord} {levels : Nat} {n : String}

/-- A list that is left out if it is empty. -/
theorem withDefault {items : List Json} {read : Json → Option (List α)} {xs : List α}
    (h : r.Slot levels n (listSlot items)) (hempty : items.isEmpty = true → xs = [])
    (hread : (Json.array items).depth ≤ levels → read (.array items) = some xs) :
    r.withDefault n [] read = some xs := by
  unfold JsonRecord.withDefault
  have hfind := h.find
  unfold listSlot at hfind
  split at hfind
  · next hitems => rw [hfind, hempty hitems]
  · next hitems =>
    rw [hfind]
    exact hread (h.depth (if_neg hitems))

theorem list {toJson : α → Json} {read : Nat → Json → Option α} {xs : List α}
    (h : r.Slot levels n (listSlot (xs.map toJson)))
    (hread : ∀ x ∈ xs, ∀ {levels}, (toJson x).depth ≤ levels → read levels (toJson x) = some x) :
    r.withDefault n [] (Json.list? read levels) = some xs :=
  h.withDefault (by simp) fun hd => Json.list?_array hd hread

theorem strings {ss : List String} (h : r.Slot levels n (listSlot (ss.map .ofString))) :
    r.withDefault n [] (Json.strings? levels) = some ss :=
  h.withDefault (by simp) Json.strings?_array

end JsonRecord.Slot

end Idl
