/-
# Ordered tables

A table of an ordered key-value engine: rows in strictly increasing key order,
read through a point lookup or a cursor and changed through `put` and `delete`.
The order is a field of the structure, so a table whose cursor would visit keys
out of order, or one key twice, cannot be built.

* `get_eq_some_iff` — the point lookup and the cursor see the same rows.
* `get_put`, `get_delete` — what the two updates do to every lookup.
* `ext_get` — a table is determined by its lookups.
* `size_le_of_injOn` — rows are counted by an injection into another table.
-/

import Mathlib

namespace Library

/-- Rows in strictly increasing key order. -/
structure Table (κ ν : Type) [LinearOrder κ] where
  rows : List (κ × ν)
  sorted : rows.Pairwise fun a b => a.1 < b.1
  deriving DecidableEq

namespace Table

variable {κ ν : Type} [LinearOrder κ]

/-- The table without rows. -/
def empty : Table κ ν := ⟨[], List.Pairwise.nil⟩

instance : EmptyCollection (Table κ ν) := ⟨empty⟩

instance : Inhabited (Table κ ν) := ⟨empty⟩

/-- Point lookup. -/
def get (t : Table κ ν) (k : κ) : Option ν :=
  (t.rows.find? fun row => decide (row.1 = k)).map Prod.snd

/-- Insert a row at its place, replacing the row of the same key. -/
def putRow (k : κ) (v : ν) : List (κ × ν) → List (κ × ν)
  | [] => [(k, v)]
  | row :: rest =>
    if k < row.1 then (k, v) :: row :: rest
    else if k = row.1 then (k, v) :: rest
    else row :: putRow k v rest

/-- The number of rows. -/
def size (t : Table κ ν) : Nat := t.rows.length

/-! ### The rows after an update -/

theorem mem_putRow {k : κ} {v : ν} {row : κ × ν} :
    ∀ {rows : List (κ × ν)}, rows.Pairwise (fun a b => a.1 < b.1) →
      (row ∈ putRow k v rows ↔ row = (k, v) ∨ row.1 ≠ k ∧ row ∈ rows)
  | [], _ => by simp [putRow]
  | head :: rest, sorted => by
    obtain ⟨below, tail⟩ := List.pairwise_cons.mp sorted
    unfold putRow
    split
    · -- `k` goes in front: every old key is above it.
      rename_i lt
      have above : ∀ r ∈ head :: rest, r.1 ≠ k := by
        intro r mem
        rcases List.mem_cons.mp mem with rfl | mem
        · exact ne_of_gt lt
        · exact ne_of_gt (lt.trans (below r mem))
      rw [List.mem_cons]
      exact or_congr_right ⟨fun mem => ⟨above _ mem, mem⟩, fun h => h.2⟩
    · split
      · rename_i eq
        have above : ∀ r ∈ rest, r.1 ≠ k := fun r mem => eq ▸ ne_of_gt (below r mem)
        rw [List.mem_cons, List.mem_cons]
        refine or_congr_right ⟨fun mem => ⟨above _ mem, .inr mem⟩, ?_⟩
        rintro ⟨ne, rfl | mem⟩
        · exact absurd eq.symm ne
        · exact mem
      · rename_i ne
        rw [List.mem_cons, List.mem_cons, mem_putRow tail]
        constructor
        · rintro (rfl | h | ⟨h, mem⟩)
          · exact .inr ⟨Ne.symm ne, .inl rfl⟩
          · exact .inl h
          · exact .inr ⟨h, .inr mem⟩
        · rintro (h | ⟨h, rfl | mem⟩)
          · exact .inr (.inl h)
          · exact .inl rfl
          · exact .inr (.inr ⟨h, mem⟩)

theorem putRow_sorted {k : κ} {v : ν} :
    ∀ {rows : List (κ × ν)}, rows.Pairwise (fun a b => a.1 < b.1) →
      (putRow k v rows).Pairwise fun a b => a.1 < b.1
  | [], _ => by simp [putRow]
  | head :: rest, sorted => by
    obtain ⟨below, tail⟩ := List.pairwise_cons.mp sorted
    unfold putRow
    split
    · rename_i lt
      refine List.pairwise_cons.mpr ⟨?_, sorted⟩
      intro r mem
      rcases List.mem_cons.mp mem with rfl | mem
      · exact lt
      · exact lt.trans (below r mem)
    · split
      · rename_i eq
        exact List.pairwise_cons.mpr ⟨fun r mem => eq ▸ below r mem, tail⟩
      · rename_i notLt ne
        refine List.pairwise_cons.mpr ⟨?_, putRow_sorted tail⟩
        intro r mem
        rcases (mem_putRow tail).mp mem with rfl | ⟨-, mem⟩
        · exact lt_of_le_of_ne (not_lt.mp notLt) (Ne.symm ne)
        · exact below r mem

/-- Store `v` under `k`. -/
def put (t : Table κ ν) (k : κ) (v : ν) : Table κ ν :=
  ⟨putRow k v t.rows, putRow_sorted t.sorted⟩

/-- Remove the row of `k`, if there is one. -/
def delete (t : Table κ ν) (k : κ) : Table κ ν :=
  ⟨t.rows.filter fun row => decide (row.1 ≠ k), t.sorted.filter _⟩

theorem mem_put {t : Table κ ν} {k : κ} {v : ν} {row : κ × ν} :
    row ∈ (t.put k v).rows ↔ row = (k, v) ∨ row.1 ≠ k ∧ row ∈ t.rows :=
  mem_putRow t.sorted

theorem mem_delete {t : Table κ ν} {k : κ} {row : κ × ν} :
    row ∈ (t.delete k).rows ↔ row.1 ≠ k ∧ row ∈ t.rows := by
  simp [delete, and_comm]

/-! ### Lookups -/

theorem keys_nodup (t : Table κ ν) : (t.rows.map Prod.fst).Nodup := by
  rw [List.Nodup, List.pairwise_map]
  exact t.sorted.imp ne_of_lt

/-- The keys of the rows, in order. -/
def keys (t : Table κ ν) : List κ := t.rows.map Prod.fst

/-- The point lookup finds exactly the rows the cursor visits. -/
theorem get_eq_some_iff {t : Table κ ν} {k : κ} {v : ν} : t.get k = some v ↔ (k, v) ∈ t.rows := by
  unfold get
  constructor
  · intro found
    obtain ⟨row, hrow, rfl⟩ := Option.map_eq_some_iff.mp found
    have key : row.1 = k := by simpa using List.find?_some hrow
    exact key ▸ List.mem_of_find?_eq_some hrow
  · intro mem
    cases hfind : t.rows.find? fun row => decide (row.1 = k) with
    | none => exact absurd (List.find?_eq_none.mp hfind _ mem) (by simp)
    | some row =>
      have key : row.1 = k := by simpa using List.find?_some hfind
      have same := List.inj_on_of_nodup_map t.keys_nodup (List.mem_of_find?_eq_some hfind) mem key
      simp [same]

theorem get_eq_none_iff {t : Table κ ν} {k : κ} : t.get k = none ↔ ∀ v, (k, v) ∉ t.rows := by
  rw [Option.eq_none_iff_forall_ne_some]
  exact forall_congr' fun v => not_congr get_eq_some_iff

theorem mem_keys {t : Table κ ν} {k : κ} : k ∈ t.keys ↔ ∃ v, t.get k = some v := by
  unfold keys
  rw [List.mem_map]
  constructor
  · rintro ⟨row, mem, rfl⟩
    exact ⟨row.2, get_eq_some_iff.mpr mem⟩
  · rintro ⟨v, found⟩
    exact ⟨(k, v), get_eq_some_iff.mp found, rfl⟩

@[simp] theorem get_empty (k : κ) : (∅ : Table κ ν).get k = none := rfl

@[simp] theorem rows_empty : (∅ : Table κ ν).rows = [] := rfl

theorem get_put (t : Table κ ν) (k : κ) (v : ν) (k' : κ) :
    (t.put k v).get k' = if k' = k then some v else t.get k' := by
  apply Option.ext
  intro w
  split
  · rename_i eq
    subst eq
    rw [get_eq_some_iff, mem_put]
    simp [eq_comm]
  · rename_i ne
    rw [get_eq_some_iff, get_eq_some_iff, mem_put]
    simp [ne]

theorem get_delete (t : Table κ ν) (k k' : κ) :
    (t.delete k).get k' = if k' = k then none else t.get k' := by
  apply Option.ext
  intro w
  split
  · rename_i eq
    subst eq
    rw [get_eq_some_iff, mem_delete]
    simp
  · rename_i ne
    rw [get_eq_some_iff, get_eq_some_iff, mem_delete]
    simp [ne]

@[simp] theorem get_put_self (t : Table κ ν) (k : κ) (v : ν) : (t.put k v).get k = some v := by
  simp [get_put]

@[simp] theorem get_delete_self (t : Table κ ν) (k : κ) : (t.delete k).get k = none := by
  simp [get_delete]

theorem get_put_of_ne {t : Table κ ν} {k k' : κ} {v : ν} (ne : k' ≠ k) :
    (t.put k v).get k' = t.get k' := by simp [get_put, ne]

theorem get_delete_of_ne {t : Table κ ν} {k k' : κ} (ne : k' ≠ k) :
    (t.delete k).get k' = t.get k' := by simp [get_delete, ne]

theorem mem_keys_put {t : Table κ ν} {k k' : κ} {v : ν} :
    k' ∈ (t.put k v).keys ↔ k' = k ∨ k' ∈ t.keys := by
  rw [mem_keys, mem_keys, get_put]
  split
  · rename_i same
    simp [same]
  · rename_i other
    simp [other]

theorem mem_keys_put_of_present {t : Table κ ν} {k k' : κ} {v w : ν} (found : t.get k = some v) :
    k' ∈ (t.put k w).keys ↔ k' ∈ t.keys :=
  mem_keys_put.trans (or_iff_right_of_imp fun same => mem_keys.mpr ⟨v, same ▸ found⟩)

/-- Rows in key order are determined by which rows there are. -/
theorem rows_eq_of_mem {rows rows' : List (κ × ν)} (sorted : rows.Pairwise fun a b => a.1 < b.1)
    (sorted' : rows'.Pairwise fun a b => a.1 < b.1) (same : ∀ row, row ∈ rows ↔ row ∈ rows') :
    rows = rows' := by
  have nodup : ∀ {l : List (κ × ν)}, l.Pairwise (fun a b => a.1 < b.1) → l.Nodup :=
    fun sorted => sorted.imp fun lt eq => absurd (congrArg Prod.fst eq) (ne_of_lt lt)
  exact ((List.perm_ext_iff_of_nodup (nodup sorted) (nodup sorted')).mpr same).eq_of_pairwise
    (fun _ _ _ _ h h' => absurd h' (not_lt.mpr h.le)) sorted sorted'

/-- What is behind the first rows is what comes after the last of them. -/
theorem mem_drop_iff {rows : List (κ × ν)} (sorted : rows.Pairwise fun a b => a.1 < b.1) {n : Nat}
    {last row : κ × ν} (taken : (rows.take n).getLast? = some last) :
    row ∈ rows.drop n ↔ row ∈ rows ∧ last.1 < row.1 := by
  obtain ⟨front, split⟩ := List.getLast?_eq_some_iff.mp taken
  have halves := sorted
  rw [← List.take_append_drop n rows, split, List.pairwise_append] at halves
  obtain ⟨first, -, across⟩ := halves
  constructor
  · intro behind
    exact ⟨List.mem_of_mem_drop behind, across last (by simp) row behind⟩
  · rintro ⟨mem, after⟩
    rw [← List.take_append_drop n rows, split, List.mem_append] at mem
    refine mem.resolve_left fun early => ?_
    rcases List.mem_append.mp early with early | here
    · exact lt_asymm after ((List.pairwise_append.mp first).2.2 row early last (by simp))
    · obtain rfl := List.mem_singleton.mp here
      exact lt_irrefl _ after

/-- Tables with the same lookups are the same table. -/
theorem ext_get {t u : Table κ ν} (same : ∀ k, t.get k = u.get k) : t = u := by
  have rows : t.rows = u.rows := rows_eq_of_mem t.sorted u.sorted fun row => by
    rw [← get_eq_some_iff (k := row.1) (v := row.2), ← get_eq_some_iff, same]
  cases t
  cases u
  congr

/-! ### Several keys at once -/

/-- Remove the rows of all the given keys. -/
def deleteAll (t : Table κ ν) (ks : List κ) : Table κ ν := ks.foldl delete t

/-- Store `v` under all the given keys. -/
def putAll (t : Table κ ν) (ks : List κ) (v : ν) : Table κ ν := ks.foldl (fun t k => t.put k v) t

theorem get_deleteAll (ks : List κ) (t : Table κ ν) (k : κ) :
    (t.deleteAll ks).get k = if k ∈ ks then none else t.get k := by
  induction ks generalizing t with
  | nil => rfl
  | cons head rest ih =>
    rw [show t.deleteAll (head :: rest) = (t.delete head).deleteAll rest from rfl, ih, get_delete]
    by_cases eq : k = head <;> simp [eq]

/-- A row left was there before. -/
theorem get_of_delete {t : Table κ ν} {k k' : κ} {v : ν} (left : (t.delete k).get k' = some v) :
    t.get k' = some v := by
  rw [get_delete] at left
  split at left
  · cases left
  · exact left

theorem get_of_deleteAll {ks : List κ} {t : Table κ ν} {k : κ} {v : ν}
    (left : (t.deleteAll ks).get k = some v) : t.get k = some v := by
  rw [get_deleteAll] at left
  split at left
  · cases left
  · exact left

theorem get_putAll (ks : List κ) (t : Table κ ν) (v : ν) (k : κ) :
    (t.putAll ks v).get k = if k ∈ ks then some v else t.get k := by
  induction ks generalizing t with
  | nil => rfl
  | cons head rest ih =>
    rw [show t.putAll (head :: rest) v = (t.put head v).putAll rest v from rfl, ih, get_put]
    by_cases eq : k = head <;> simp [eq]

/-! ### Changing every value -/

/-- The same keys, with every value changed. -/
def mapValues {ν' : Type} (f : ν → ν') (t : Table κ ν) : Table κ ν' :=
  ⟨t.rows.map fun row => (row.1, f row.2), List.pairwise_map.mpr t.sorted⟩

theorem get_mapValues {ν' : Type} (f : ν → ν') (t : Table κ ν) (k : κ) :
    (t.mapValues f).get k = (t.get k).map f := by
  simp [get, mapValues, List.find?_map, Function.comp_def]

/-! ### Counting rows -/

/-- A map from the rows of one table to keys of another that never sends two
rows to one key bounds the first table's size by the second's. -/
theorem size_le_of_injOn {κ' ν' : Type} [LinearOrder κ'] {t : Table κ ν} {u : Table κ' ν'}
    (f : κ × ν → κ') (maps : ∀ row ∈ t.rows, ∃ v, u.get (f row) = some v)
    (inj : Set.InjOn f {row | row ∈ t.rows}) : t.size ≤ u.size := by
  have nodup : (t.rows.map f).Nodup :=
    (List.nodup_map_iff_inj_on (List.Nodup.of_map _ t.keys_nodup)).mpr
      fun a ha b hb same => inj ha hb same
  have sub : t.rows.map f ⊆ u.rows.map Prod.fst := by
    intro k mem
    obtain ⟨row, hrow, rfl⟩ := List.mem_map.mp mem
    obtain ⟨v, hv⟩ := maps row hrow
    exact List.mem_map.mpr ⟨(f row, v), get_eq_some_iff.mp hv, rfl⟩
  simpa [size] using (nodup.subperm sub).length_le

/-- A table whose keys are all keys of another is no larger. -/
theorem size_le_of_keys {ν' : Type} {t : Table κ ν} {u : Table κ ν'}
    (keys : ∀ k v, t.get k = some v → ∃ v', u.get k = some v') : t.size ≤ u.size := by
  apply size_le_of_injOn Prod.fst
  · intro row mem
    exact keys row.1 row.2 (get_eq_some_iff.mpr mem)
  · intro a ha b hb same
    exact List.inj_on_of_nodup_map t.keys_nodup ha hb same

/-- A table with the keys of another and some more. -/
theorem size_eq_of_keys {ν' : Type} {t : Table κ ν} {u : Table κ ν'} {added : List κ}
    (keys : ∀ k, k ∈ u.keys ↔ k ∈ t.keys ∨ k ∈ added) (nodup : added.Nodup)
    (apart : ∀ k ∈ added, k ∉ t.keys) : u.size = t.size + added.length := by
  have nodup' : (t.keys ++ added).Nodup :=
    List.nodup_append.mpr ⟨t.keys_nodup, nodup, fun k old k' new same =>
      apart k' new (same ▸ old)⟩
  have perm : u.keys.Perm (t.keys ++ added) :=
    (List.perm_ext_iff_of_nodup u.keys_nodup nodup').mpr fun k =>
      (keys k).trans List.mem_append.symm
  simpa [Table.keys, size] using perm.length_eq

theorem size_le_size_put (t : Table κ ν) (k : κ) (v : ν) : t.size ≤ (t.put k v).size := by
  apply size_le_of_keys
  intro k' v' found
  rw [get_put]
  split
  · exact ⟨v, rfl⟩
  · exact ⟨v', found⟩

theorem size_put_le (t : Table κ ν) (k : κ) (v : ν) : (t.put k v).size ≤ t.size + 1 := by
  have rows : ∀ rows : List (κ × ν), (putRow k v rows).length ≤ rows.length + 1 := by
    intro rows
    induction rows with
    | nil => simp [putRow]
    | cons row rest ih =>
      unfold putRow
      split
      · simp
      · split
        · simp
        · simpa using ih
  exact rows t.rows

/-- Storing under a key that is there already adds no row. -/
theorem size_put_of_present {t : Table κ ν} {k : κ} {v' : ν} (present : t.get k = some v')
    (v : ν) : (t.put k v).size ≤ t.size := by
  apply size_le_of_keys
  intro k' w found
  rw [get_put] at found
  split at found
  · rename_i same
    exact ⟨v', same ▸ present⟩
  · exact ⟨w, found⟩

end Table

end Library
