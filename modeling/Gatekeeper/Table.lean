/-!
# Finite tables

A table gives a value to each of finitely many keys.  It is a list of entries in which no key is
repeated, in the order in which the keys came in; `get?` is its meaning, and each operation says
what it does to `get?`.

A table is a list because the order of its keys can be seen: a pass asks in the order of the
cache.  That a key is there once is part of the type, so no operation has to assume it and no
proof has to carry it along.
-/

set_option autoImplicit false

namespace Gatekeeper

/-! ## Lists of entries

The operations are defined on lists of entries first, where they are structural recursions. -/

namespace Entries

variable {κ α : Type} [DecidableEq κ]

/-- The value at the first entry with the key. -/
def get? (k : κ) : List (κ × α) → Option α
  | [] => none
  | (k', v) :: l => if k = k' then some v else get? k l

/-- Gives the first entry with the key a new value, or adds an entry at the end. -/
def put (k : κ) (v : α) : List (κ × α) → List (κ × α)
  | [] => [(k, v)]
  | (k', v') :: l => if k = k' then (k, v) :: l else (k', v') :: put k v l

theorem get?_eq_none_iff {k : κ} {l : List (κ × α)} : get? k l = none ↔ k ∉ l.map Prod.fst := by
  induction l with
  | nil => simp [get?]
  | cons e l ih => by_cases h : k = e.1 <;> simp [get?, h, ih]

theorem get?_put (k k' : κ) (v : α) (l : List (κ × α)) :
    get? k' (put k v l) = if k' = k then some v else get? k' l := by
  induction l with
  | nil => simp [get?, put]
  | cons e l ih =>
    by_cases h : k = e.1
    · by_cases h' : k' = k <;> simp [get?, put, ← h, h']
    · by_cases h' : k' = e.1
      · have hk : k' ≠ k := fun e => h (e ▸ h')
        simp [get?, put, h, h', Ne.symm h]
      · simp [get?, put, h, h', ih]

theorem keys_put (k : κ) (v : α) (l : List (κ × α)) :
    (put k v l).map Prod.fst
      = if k ∈ l.map Prod.fst then l.map Prod.fst else l.map Prod.fst ++ [k] := by
  induction l with
  | nil => simp [put]
  | cons e l ih =>
    by_cases h : k = e.1
    · simp [put, h]
    · by_cases hm : k ∈ l.map Prod.fst <;> simp [put, h, hm, ih]

theorem get?_filter (k k' : κ) (l : List (κ × α)) :
    get? k' (l.filter fun e => decide (e.1 ≠ k)) = if k' = k then none else get? k' l := by
  induction l with
  | nil => simp [get?]
  | cons e l ih => by_cases h : e.1 = k <;> by_cases h' : k' = e.1 <;> simp_all [get?]

end Entries

/-! ## Tables

A table is such a list together with the proof that no key comes twice, which every operation
carries over. -/

/-- A finite map, with its entries in the order in which their keys were added. -/
structure Table (κ : Type) (α : Type) where
  entries : List (κ × α)
  nodup : (entries.map Prod.fst).Nodup

namespace Table

variable {κ α : Type}

/-- The table without an entry. -/
def empty : Table κ α := ⟨[], List.nodup_nil⟩

instance : Inhabited (Table κ α) := ⟨empty⟩

/-- The keys, each once. -/
def keys (t : Table κ α) : List κ := t.entries.map Prod.fst

def values (t : Table κ α) : List α := t.entries.map Prod.snd

def size (t : Table κ α) : Nat := t.entries.length

/-- Keeps the entries that a test accepts. -/
def filter (t : Table κ α) (f : κ → α → Bool) : Table κ α :=
  ⟨t.entries.filter fun e => f e.1 e.2, t.nodup.sublist (List.filter_sublist.map _)⟩

/-- Changes every value. -/
def mapValues (t : Table κ α) (f : α → α) : Table κ α :=
  ⟨t.entries.map fun e => (e.1, f e.2), by
    have h : (t.entries.map fun e => (e.1, f e.2)).map Prod.fst = t.entries.map Prod.fst := by
      simp [Function.comp_def]
    exact h ▸ t.nodup⟩

theorem keys_nodup (t : Table κ α) : t.keys.Nodup := t.nodup

@[simp] theorem length_keys (t : Table κ α) : t.keys.length = t.size := by simp [keys, size]

@[simp] theorem keys_empty : (empty : Table κ α).keys = [] := rfl

@[simp] theorem size_empty : (empty : Table κ α).size = 0 := rfl

variable [DecidableEq κ]

/-- The value at a key, if it has one. -/
def get? (t : Table κ α) (k : κ) : Option α := Entries.get? k t.entries

/-- Gives `k` the value `v`, whatever it had before. -/
def put (t : Table κ α) (k : κ) (v : α) : Table κ α :=
  ⟨Entries.put k v t.entries, by
    rw [Entries.keys_put]
    split
    next => exact t.nodup
    next h =>
      rw [List.nodup_append]
      exact ⟨t.nodup, by simp, fun a ha b hb e => h (by simp_all)⟩⟩

/-- The table without the entry at `k`. -/
def erase (t : Table κ α) (k : κ) : Table κ α := t.filter fun k' _ => k' ≠ k

/-- Changes the value at `k`, if it has one. -/
def update (t : Table κ α) (k : κ) (f : α → α) : Table κ α :=
  match t.get? k with
  | some v => t.put k (f v)
  | none => t

/-! ## What the operations do to `get?`

These equations are all that the rest of the library uses of tables, besides the order of the
keys. -/

@[simp] theorem get?_empty (k : κ) : (empty : Table κ α).get? k = none := rfl

theorem get?_eq_none_iff {t : Table κ α} {k : κ} : t.get? k = none ↔ k ∉ t.keys :=
  Entries.get?_eq_none_iff

theorem get?_put (t : Table κ α) (k k' : κ) (v : α) :
    (t.put k v).get? k' = if k' = k then some v else t.get? k' :=
  Entries.get?_put k k' v t.entries

theorem get?_erase (t : Table κ α) (k k' : κ) :
    (t.erase k).get? k' = if k' = k then none else t.get? k' :=
  Entries.get?_filter k k' t.entries

theorem get?_update (t : Table κ α) (k k' : κ) (f : α → α) :
    (t.update k f).get? k' = if k' = k then (t.get? k).map f else t.get? k' := by
  rw [update]
  split
  next v h => by_cases hk : k' = k <;> simp [get?_put, hk, h]
  next h => by_cases hk : k' = k <;> simp [hk, h]

theorem get?_mapValues (t : Table κ α) (k : κ) (f : α → α) :
    (t.mapValues f).get? k = (t.get? k).map f := by
  obtain ⟨l, h⟩ := t
  simp only [get?, mapValues]
  clear h
  induction l with
  | nil => rfl
  | cons e l ih => by_cases h : k = e.1 <;> simp [Entries.get?, h, ih]

end Table

end Gatekeeper
