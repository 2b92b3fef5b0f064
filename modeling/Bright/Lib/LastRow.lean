import Bright.Lib.Table
import Mathlib.Data.Finset.Sort

/-!
# Stores in which the last row wins

A table that is filled row by row keeps the last row of every key.  It is the
list of these rows in the order of the keys (`rows_putAll_empty`), so two lists
of rows fill it alike exactly if they have the same last rows
(`putAll_empty_eq_iff`).
-/

namespace Bright.Lib

variable {κ ρ : Type*} [LinearOrder κ] {key : ρ → κ} {rows other : List ρ}

/-- The last row with a key. -/
def lastRow (key : ρ → κ) (rows : List ρ) (k : κ) : Option ρ :=
  rows.reverse.find? fun row => key row = k

/-- The keys of the rows, each once. -/
def keysInOrder (key : ρ → κ) (rows : List ρ) : List κ :=
  (rows.map key).toFinset.sort (· ≤ ·)

theorem find_putAll_empty (k : κ) :
    (Table.empty.putAll rows : Table key).find k = lastRow key rows k := by
  induction rows using List.reverseRecOn with
  | nil => rfl
  | append_singleton rows row inductionHypothesis =>
      have last : (Table.empty.putAll (rows ++ [row]) : Table key) =
          (Table.empty.putAll rows).put row := by
        rw [Table.putAll, List.foldl_append, List.foldl_cons, List.foldl_nil,
          Table.putAll]
      rw [last, Table.find_put, lastRow, List.reverse_append,
        List.reverse_singleton, List.singleton_append]
      by_cases same : k = key row
      · rw [if_pos same, List.find?_cons_of_pos (by simp [same])]
      · rw [if_neg same, List.find?_cons_of_neg (by simp [Ne.symm same]),
          inductionHypothesis, lastRow]

/-- A table is the list of what is found under its keys. -/
theorem rows_eq_filterMap (table : Table key) :
    table.rows = (table.keys.sort (· ≤ ·)).filterMap table.find := by
  have sorted : table.keys.sort (· ≤ ·) = table.rows.map key :=
    (List.toFinset_sort _ table.keys_nodup).mpr (table.sorted.imp le_of_lt)
  have found : ∀ row ∈ table.rows, (table.find ∘ key) row = some row :=
    fun row stored => Table.find_of_mem stored
  rw [sorted, List.filterMap_map, List.filterMap_congr found,
    List.filterMap_some]

theorem rows_putAll_empty :
    (Table.empty.putAll rows : Table key).rows =
      (keysInOrder key rows).filterMap (lastRow key rows) := by
  have keys : (Table.empty.putAll rows : Table key).keys =
      (rows.map key).toFinset := by
    have nothing : (Table.empty : Table key).keys = ∅ := rfl
    rw [Table.keys_putAll, nothing, Finset.empty_union]
  have lookups : (Table.empty.putAll rows : Table key).find =
      lastRow key rows :=
    funext find_putAll_empty
  rw [rows_eq_filterMap, keys, lookups, keysInOrder]

theorem putAll_empty_eq_iff :
    (Table.empty.putAll rows : Table key) = Table.empty.putAll other ↔
      ∀ k, lastRow key rows k = lastRow key other k := by
  constructor
  · intro same k
    rw [← find_putAll_empty, ← find_putAll_empty, same]
  · intro same
    apply Table.ext_find
    intro k
    rw [find_putAll_empty, find_putAll_empty, same]

end Bright.Lib
