/-
Idl/NameMap.lean

Finite maps from names, in the order of the names.

A map is a list of entries whose keys increase, so two maps with the same entries are equal.
The two laws `find?_insert_self` and `find?_insert_of_ne` say what an insertion changes, and
`keys_pairwise` that entries come in the order of their names, one for each.
-/

namespace Idl

/-- A finite map from names. -/
structure NameMap (α : Type) where
  entries : List (String × α)
  increasing : entries.Pairwise fun a b => a.1 < b.1

namespace NameMap

variable {α β : Type}

instance [DecidableEq α] : DecidableEq (NameMap α) := fun m n =>
  decidable_of_iff (m.entries = n.entries) (by cases m; cases n; simp)

/-- The map without entries. -/
def empty : NameMap α := ⟨[], .nil⟩

instance : Inhabited (NameMap α) := ⟨empty⟩

/-! ### Looking up -/

/-- The value of the first entry named `k`. -/
def valueAt? (k : String) : List (String × α) → Option α
  | [] => none
  | (k', v) :: r => if k = k' then some v else valueAt? k r

/-- The value at a name. -/
def find? (m : NameMap α) (k : String) : Option α := valueAt? k m.entries

/-- Whether there is a value at a name. -/
def contains (m : NameMap α) (k : String) : Bool := (m.find? k).isSome

/-- The names, in increasing order. -/
def keys (m : NameMap α) : List String := m.entries.map (·.1)

/-- The values, in the order of their names. -/
def values (m : NameMap α) : List α := m.entries.map (·.2)

/-- Whether there are no entries. -/
def isEmpty (m : NameMap α) : Bool := m.entries.isEmpty

/-! ### Inserting -/

/-- Puts a value at `k` into increasing entries. -/
def insertEntry (k : String) (v : α) : List (String × α) → List (String × α)
  | [] => [(k, v)]
  | (k', v') :: r =>
    if k = k' then (k, v) :: r
    else if k < k' then (k, v) :: (k', v') :: r
    else (k', v') :: insertEntry k v r

theorem mem_insertEntry {k : String} {v : α} {es : List (String × α)} {e : String × α}
    (h : e ∈ insertEntry k v es) : e = (k, v) ∨ e ∈ es := by
  induction es with
  | nil => simpa [insertEntry] using h
  | cons f r ih =>
    simp only [insertEntry] at h
    split at h
    · simp only [List.mem_cons] at h ⊢
      rcases h with h | h <;> simp [h]
    · split at h
      · simpa using h
      · simp only [List.mem_cons] at h ⊢
        rcases h with h | h
        · simp [h]
        · rcases ih h with h | h <;> simp [h]

theorem lt_of_not_lt_of_ne {a b : String} (h : ¬ a < b) (hne : a ≠ b) : b < a := by
  have hle : b ≤ a := String.not_lt.1 h
  exact Std.lt_of_le_of_ne hle (Ne.symm hne)

theorem pairwise_insertEntry {k : String} {v : α} {es : List (String × α)}
    (h : es.Pairwise fun a b => a.1 < b.1) :
    (insertEntry k v es).Pairwise fun a b => a.1 < b.1 := by
  induction es with
  | nil => simp [insertEntry]
  | cons f r ih =>
    obtain ⟨hf, hr⟩ := List.pairwise_cons.1 h
    simp only [insertEntry]
    split
    · rename_i hk
      exact List.pairwise_cons.2 ⟨fun e he => hk ▸ hf e he, hr⟩
    · rename_i hk
      split
      · rename_i hlt
        refine List.pairwise_cons.2 ⟨fun e he => ?_, h⟩
        rcases List.mem_cons.1 he with rfl | he
        · exact hlt
        · exact String.lt_trans hlt (hf e he)
      · rename_i hlt
        refine List.pairwise_cons.2 ⟨fun e he => ?_, ih hr⟩
        rcases mem_insertEntry he with rfl | he
        · exact lt_of_not_lt_of_ne hlt hk
        · exact hf e he

/-- Puts a value at a name, in place of the one that may be there. -/
def insert (m : NameMap α) (k : String) (v : α) : NameMap α :=
  ⟨insertEntry k v m.entries, pairwise_insertEntry m.increasing⟩

/-- Puts a value at a name that has none yet. -/
def insertNew (m : NameMap α) (k : String) (v : α) : NameMap α :=
  if m.contains k then m else m.insert k v

/-- The map with the given entries; of two at one name the later counts. -/
def ofList (es : List (String × α)) : NameMap α :=
  es.foldl (fun m e => m.insert e.1 e.2) empty

/-- Changes every value. -/
def map (f : α → β) (m : NameMap α) : NameMap β :=
  ⟨m.entries.map fun e => (e.1, f e.2), List.pairwise_map.2 (m.increasing.imp id)⟩

/-! ### What an insertion changes -/

theorem valueAt?_insertEntry_self (k : String) (v : α) (es : List (String × α)) :
    valueAt? k (insertEntry k v es) = some v := by
  induction es with
  | nil => simp [insertEntry, valueAt?]
  | cons f r ih =>
    simp only [insertEntry]
    split
    · simp [valueAt?]
    · split
      · simp [valueAt?]
      · simp [valueAt?, *]

theorem valueAt?_insertEntry_of_ne {k k' : String} (v : α) (es : List (String × α))
    (h : k' ≠ k) : valueAt? k' (insertEntry k v es) = valueAt? k' es := by
  induction es with
  | nil => simp [insertEntry, valueAt?, h]
  | cons f r ih =>
    simp only [insertEntry]
    split
    · rename_i hk; simp [valueAt?, h, ← hk]
    · split
      · simp [valueAt?, h]
      · simp [valueAt?, ih]

@[simp] theorem find?_insert_self (m : NameMap α) (k : String) (v : α) :
    (m.insert k v).find? k = some v :=
  valueAt?_insertEntry_self k v m.entries

theorem find?_insert_of_ne (m : NameMap α) {k k' : String} (v : α) (h : k' ≠ k) :
    (m.insert k v).find? k' = m.find? k' :=
  valueAt?_insertEntry_of_ne v m.entries h

/-- Names come in increasing order. -/
theorem keys_pairwise (m : NameMap α) : m.keys.Pairwise (· < ·) :=
  List.pairwise_map.2 m.increasing

end NameMap

end Idl
