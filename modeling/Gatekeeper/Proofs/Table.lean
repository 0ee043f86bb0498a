import Gatekeeper.Table
import Mathlib

/-!
# Looking up in tables

`Table.get?` is what a table means; this file relates it to the other ways of reading a table, and
says what the less common operations do to it.

* `mem_entries_iff`, `mem_keys_iff`, `mem_values_iff` — entries, keys and values in terms of `get?`.
* `ext_get?` — the order of the keys and the values found make a table.
* `get?_filter` — an entry survives a filter exactly if the test accepts it.
* `erase_filter` — taking a key away first can be left to the filter.

Most of what is proved of an engine uses tables through `get?` alone.  Where the order of keys
matters, as in the cache that a pass is opened over, it is `keys` that is spoken of.
-/

set_option autoImplicit false

namespace Gatekeeper

namespace Entries

variable {κ α : Type} [DecidableEq κ]

theorem mem_of_get? {k : κ} {v : α} {l : List (κ × α)} (h : get? k l = some v) : (k, v) ∈ l := by
  induction l with
  | nil => simp [get?] at h
  | cons e l ih =>
    rw [get?] at h
    split at h
    · rename_i hk
      rw [Option.some_inj] at h
      rw [hk, ← h]
      exact List.mem_cons_self
    · exact List.mem_cons_of_mem _ (ih h)

theorem get?_of_mem {k : κ} {v : α} {l : List (κ × α)} (hn : (l.map Prod.fst).Nodup)
    (h : (k, v) ∈ l) : get? k l = some v := by
  induction l with
  | nil => simp at h
  | cons e l ih =>
    rw [List.map_cons, List.nodup_cons] at hn
    rw [get?]
    rcases List.mem_cons.mp h with rfl | h
    · simp
    · have hne : k ≠ e.1 := fun he => hn.1 (he ▸ List.mem_map_of_mem h)
      rw [if_neg hne]
      exact ih hn.2 h

/-- A key that is not there is added at the end. -/
theorem put_of_not_mem {k : κ} {v : α} {l : List (κ × α)} (h : k ∉ l.map Prod.fst) :
    put k v l = l ++ [(k, v)] := by
  induction l with
  | nil => rfl
  | cons e l ih =>
    rw [List.map_cons, List.mem_cons, not_or] at h
    rw [put, if_neg h.1, ih h.2, List.cons_append]

end Entries

namespace Table

variable {κ α : Type}

theorem ext_entries {t u : Table κ α} (h : t.entries = u.entries) : t = u := by
  cases t
  cases u
  congr

variable [DecidableEq κ] {t : Table κ α} {k k' : κ} {v : α}

/-! ## Entries, keys and values

What is listed of a table is what is found in it. -/

theorem mem_entries_iff : (k, v) ∈ t.entries ↔ t.get? k = some v :=
  ⟨Entries.get?_of_mem t.nodup, Entries.mem_of_get?⟩

theorem mem_keys_iff : k ∈ t.keys ↔ ∃ v, t.get? k = some v := by
  rw [← not_iff_not, ← get?_eq_none_iff, ← Option.not_isSome_iff_eq_none, Option.isSome_iff_exists]

theorem mem_values_iff : v ∈ t.values ↔ ∃ k, t.get? k = some v := by
  rw [values, List.mem_map]
  constructor
  · rintro ⟨⟨k, v'⟩, h, rfl⟩
    exact ⟨k, mem_entries_iff.mp h⟩
  · rintro ⟨k, h⟩
    exact ⟨(k, v), mem_entries_iff.mpr h, rfl⟩

/-- The keys with what is found under them, in the order of the entries. -/
theorem map_get?_keys (t : Table κ α) :
    (t.keys.map fun k => (k, t.get? k)) = t.entries.map fun e => (e.1, some e.2) := by
  rw [keys, List.map_map]
  refine List.map_congr_left fun e he => ?_
  rw [Function.comp_apply, mem_entries_iff.mp he]

theorem ext_get? {u : Table κ α} (hk : t.keys = u.keys) (hg : ∀ k, t.get? k = u.get? k) :
    t = u := by
  have hinj : Function.Injective fun e : κ × α => (e.1, some e.2) := by
    rintro ⟨k, v⟩ ⟨k', v'⟩ h
    simpa using h
  refine ext_entries (hinj.list_map ?_)
  rw [← map_get?_keys, ← map_get?_keys, hk]
  exact List.map_congr_left fun k _ => by rw [hg]

/-! ## Puts and removals

A put or a removal is felt at its own key and nowhere else. -/

@[simp] theorem get?_put_self : (t.put k v).get? k = some v := by
  rw [get?_put, if_pos rfl]

theorem get?_put_of_ne (h : k' ≠ k) : (t.put k v).get? k' = t.get? k' := by
  rw [get?_put, if_neg h]

@[simp] theorem get?_erase_self : (t.erase k).get? k = none := by
  rw [get?_erase, if_pos rfl]

theorem get?_erase_of_ne (h : k' ≠ k) : (t.erase k).get? k' = t.get? k' := by
  rw [get?_erase, if_neg h]

theorem get?_put_update (f : α → α) :
    ((t.put k v).update k f).get? k' = if k' = k then some (f v) else t.get? k' := by
  rw [get?_update, get?_put_self, get?_put]
  split <;> rfl

/-- A key that is there stays in its place. -/
theorem keys_put_of_mem (h : k ∈ t.keys) : (t.put k v).keys = t.keys := by
  rw [keys, put, Entries.keys_put]
  exact if_pos h

/-- What is found after a removal was there before, under another key. -/
theorem get?_erase_eq_some_iff : (t.erase k).get? k' = some v ↔ k' ≠ k ∧ t.get? k' = some v := by
  rw [get?_erase]
  split <;> simp_all

/-- What is found after a put was there before, or has just been put. -/
theorem get?_put_eq_some_iff {v' : α} :
    (t.put k v).get? k' = some v' ↔ (k' = k ∧ v = v') ∨ (k' ≠ k ∧ t.get? k' = some v') := by
  rw [get?_put]
  split <;> simp_all

/-! ## Filters

A filter looks at every entry by itself. -/

theorem get?_filter (t : Table κ α) (f : κ → α → Bool) (k : κ) :
    (t.filter f).get? k = (t.get? k).filter (f k) := by
  cases hf : (t.filter f).get? k with
  | some v =>
    have h := mem_entries_iff.mpr hf
    rw [filter, List.mem_filter] at h
    rw [mem_entries_iff.mp h.1, Option.filter_some, if_pos h.2]
  | none =>
    cases hg : t.get? k with
    | none => rfl
    | some v =>
      rw [Option.filter_some, if_neg]
      intro hv
      have h : (k, v) ∈ (t.filter f).entries := List.mem_filter.mpr ⟨mem_entries_iff.mpr hg, hv⟩
      rw [mem_entries_iff, hf] at h
      exact absurd h (by simp)

theorem get?_filter_eq_some_iff {f : κ → α → Bool} :
    (t.filter f).get? k = some v ↔ t.get? k = some v ∧ f k v = true := by
  rw [get?_filter, Option.filter_eq_some_iff]

theorem erase_filter (t : Table κ α) (k : κ) (f : κ → α → Bool) :
    (t.erase k).filter f = t.filter fun k' v => decide (k' ≠ k) && f k' v :=
  ext_entries (List.filter_filter.trans (List.filter_congr fun _ _ => Bool.and_comm ..))

end Table

end Gatekeeper
