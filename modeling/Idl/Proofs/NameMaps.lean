/-
Idl/Proofs/NameMaps.lean

Finite maps by what is found in them.

A map is known by its answers: two maps that answer alike are equal (`NameMap.ext`), and the values
are what is found at some name (`NameMap.mem_values`).
-/
import Idl.NameMap
import Mathlib.Data.List.Induction

namespace Idl

namespace NameMap

variable {α β : Type} {m m' : NameMap α} {k : String} {v : α}

@[simp] theorem find?_empty (k : String) : (empty : NameMap α).find? k = none := rfl

theorem find?_insert (m : NameMap α) (k : String) (v : α) (k' : String) :
    (m.insert k v).find? k' = if k' = k then some v else m.find? k' := by
  split
  · next h => rw [h, find?_insert_self]
  · next h => exact find?_insert_of_ne m v h

theorem contains_eq_true : m.contains k = true ↔ ∃ v, m.find? k = some v := Option.isSome_iff_exists

/-- A value that is there stays. -/
theorem find?_insertNew (m : NameMap α) (k : String) (v : α) (k' : String) :
    (m.insertNew k v).find? k' = (m.find? k').or (if k' = k then some v else none) := by
  unfold insertNew
  split
  · next hk =>
    obtain ⟨w, hw⟩ := contains_eq_true.1 hk
    split
    · next heq => rw [heq, hw, Option.some_or]
    · rw [Option.or_none]
  · next hk =>
    rw [find?_insert]
    split
    · next heq =>
      have hnone : m.find? k = none := by simpa [contains] using hk
      rw [heq, hnone, Option.none_or]
    · rw [Option.or_none]

/-- In increasing entries, what is found at a name is the entry of that name. -/
theorem valueAt?_eq_some {es : List (String × α)} (h : es.Pairwise fun a b => a.1 < b.1) :
    valueAt? k es = some v ↔ (k, v) ∈ es := by
  induction es with
  | nil => simp [valueAt?]
  | cons e es ih =>
    obtain ⟨k', v'⟩ := e
    obtain ⟨hlt, hes⟩ := List.pairwise_cons.1 h
    rw [valueAt?, List.mem_cons, Prod.mk.injEq]
    split
    · next hk =>
      refine ⟨fun h => .inl ⟨hk, (Option.some.inj h).symm⟩, ?_⟩
      rintro (⟨-, rfl⟩ | hmem)
      · rfl
      · exact absurd (hk ▸ hlt _ hmem) (String.lt_irrefl _)
    · next hk =>
      rw [ih hes]
      exact ⟨.inr, fun h => h.resolve_left fun h => hk h.1⟩

theorem find?_eq_some : m.find? k = some v ↔ (k, v) ∈ m.entries := valueAt?_eq_some m.increasing

theorem mem_values : v ∈ m.values ↔ ∃ k, m.find? k = some v := by
  simp only [values, List.mem_map, find?_eq_some]
  exact ⟨fun ⟨e, he, hv⟩ => ⟨e.1, hv ▸ he⟩, fun ⟨k, h⟩ => ⟨(k, v), h, rfl⟩⟩

theorem mem_keys : k ∈ m.keys ↔ ∃ v, m.find? k = some v := by
  simp only [keys, List.mem_map, find?_eq_some]
  exact ⟨fun ⟨e, he, hk⟩ => ⟨e.2, hk ▸ he⟩, fun ⟨v, h⟩ => ⟨(k, v), h, rfl⟩⟩

/-- A name stands in at most one entry. -/
theorem keys_nodup (m : NameMap α) : m.keys.Nodup := by
  refine m.keys_pairwise.imp ?_
  rintro k _ hlt rfl
  exact String.lt_irrefl k hlt

theorem find?_map (f : α → β) (m : NameMap α) (k : String) :
    (m.map f).find? k = (m.find? k).map f := by
  have h (es : List (String × α)) :
      valueAt? k (es.map fun e => (e.1, f e.2)) = (valueAt? k es).map f := by
    induction es with
    | nil => rfl
    | cons e es ih =>
      rw [List.map_cons, valueAt?, valueAt?, ih]
      split <;> rfl
  exact h m.entries

theorem keys_map (f : α → β) (m : NameMap α) : (m.map f).keys = m.keys := by
  simp [keys, map]

theorem values_map (f : α → β) (m : NameMap α) : (m.map f).values = m.values.map f := by
  simp [values, map]

theorem contains_map (f : α → β) (m : NameMap α) (k : String) :
    (m.map f).contains k = m.contains k := by
  unfold contains
  rw [find?_map, Option.isSome_map]

theorem nodup_of_increasing {es : List (String × α)} (h : es.Pairwise fun a b => a.1 < b.1) :
    es.Nodup := by
  refine h.imp ?_
  rintro e _ hlt rfl
  exact String.lt_irrefl e.1 hlt

/-- Increasing lists with the same elements are equal. -/
theorem increasing_ext {es es' : List (String × α)} (h : es.Pairwise fun a b => a.1 < b.1)
    (h' : es'.Pairwise fun a b => a.1 < b.1) (heq : ∀ e, e ∈ es ↔ e ∈ es') : es = es' := by
  have hperm : es.Perm es' :=
    (List.perm_ext_iff_of_nodup (nodup_of_increasing h) (nodup_of_increasing h')).2 heq
  exact hperm.eq_of_pairwise (fun a b _ _ hab hba => absurd (String.lt_trans hab hba)
    (String.lt_irrefl _)) h h'

/-- Maps in which the same is found are equal. -/
theorem ext (h : ∀ k, m.find? k = m'.find? k) : m = m' := by
  have hentries : m.entries = m'.entries := increasing_ext m.increasing m'.increasing fun e => by
    rw [← find?_eq_some, ← find?_eq_some, h]
  cases m
  cases m'
  congr

theorem insert_map (f : α → β) (m : NameMap α) (k : String) (v : α) :
    (m.map f).insert k (f v) = (m.insert k v).map f := by
  refine ext fun k' => ?_
  rw [find?_insert, find?_map, find?_map, find?_insert]
  split <;> rfl

/-- The values of a map in which something is found at a single name. -/
theorem values_of_single (h : ∀ k', m.find? k' = if k' = k then some v else none) :
    m.values = [v] := by
  have hm : m = (empty : NameMap α).insert k v := ext fun k' => by
    rw [h, find?_insert, find?_empty]
  rw [hm]
  rfl

theorem keys_eq {m : NameMap α} {m' : NameMap β}
    (h : ∀ k, (m.find? k).isSome = (m'.find? k).isSome) : m.keys = m'.keys := by
  have hunit : m.map (fun _ => ()) = m'.map (fun _ => ()) := ext fun k => by
    have hk := h k
    rw [find?_map, find?_map]
    cases hm : m.find? k <;> cases hm' : m'.find? k <;> simp_all
  rw [← keys_map (fun _ => ()) m, hunit, keys_map]

/-! ### Maps made of their entries -/

/-- The entry of a name behind all others comes last. -/
theorem insertEntry_of_lt {es : List (String × α)} (h : ∀ e ∈ es, e.1 < k) :
    insertEntry k v es = es ++ [(k, v)] := by
  induction es with
  | nil => rfl
  | cons e es ih =>
    have hlt : e.1 < k := h e List.mem_cons_self
    have hne : k ≠ e.1 := fun heq => String.lt_irrefl k (heq ▸ hlt)
    rw [insertEntry, if_neg hne, if_neg fun hgt => String.lt_irrefl k (String.lt_trans hgt hlt),
      ih fun e he => h e (List.mem_cons_of_mem _ he), List.cons_append]

theorem entries_ofList {es : List (String × α)} (h : es.Pairwise fun a b => a.1 < b.1) :
    (ofList es).entries = es := by
  induction es using List.reverseRecOn with
  | nil => rfl
  | append_singleton es e ih =>
    obtain ⟨hes, -, hlast⟩ := List.pairwise_append.1 h
    have hlt : ∀ x ∈ (ofList es).entries, x.1 < e.1 := by
      rw [ih hes]
      exact fun x hx => hlast x hx e (List.mem_singleton_self e)
    have hinsert : ofList (es ++ [e]) = (ofList es).insert e.1 e.2 := List.foldl_append
    rw [hinsert]
    show insertEntry e.1 e.2 (ofList es).entries = _
    rw [insertEntry_of_lt hlt, ih hes]

/-- A map is made of its entries. -/
theorem ofList_entries (m : NameMap α) : ofList m.entries = m := by
  have h := entries_ofList m.increasing
  generalize ofList m.entries = m' at h
  cases m
  cases m'
  congr

end NameMap

end Idl
