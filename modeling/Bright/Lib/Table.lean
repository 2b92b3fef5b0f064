import Mathlib.Data.List.Find
import Mathlib.Data.List.Sort
import Mathlib.Algebra.BigOperators.Group.List.Basic
import Mathlib.Algebra.BigOperators.Group.Finset.Basic

/-!
# Tables ordered by a primary key

A table is a finite map from primary keys to rows, stored as the list of its
rows in strictly increasing key order.  The order is a field of the structure,
so two rows under one key cannot be built, and a table is determined by its
lookups (`Table.ext_find`).

The two mutators are `put`, which writes a row under its own key, and `erase`.
A lookup through another column (`findBy`) scans the rows in key order, so it
returns the matching row with the smallest key.
-/

namespace Bright.Lib

/-- Bytes are ordered as numbers, so that strings of bytes can be keys. -/
instance linearOrderUInt8 : LinearOrder UInt8 where
  le_refl := UInt8.le_refl
  le_trans := fun _ _ _ => UInt8.le_trans
  lt_iff_le_not_ge := fun _ _ => Std.LawfulOrderLT.lt_iff _ _
  le_antisymm := fun _ _ => UInt8.le_antisymm
  le_total := UInt8.le_total
  toDecidableLE := UInt8.decLe
  toDecidableLT := UInt8.decLt
  toDecidableEq := instDecidableEqUInt8

variable {κ ρ : Type*} [LinearOrder κ]

/-- Rows with pairwise different primary keys, in increasing key order. -/
@[ext]
structure Table (key : ρ → κ) where
  rows : List ρ
  sorted : (rows.map key).Pairwise (· < ·)

namespace Table

variable {key : ρ → κ}

instance [DecidableEq ρ] : DecidableEq (Table key) := fun left right =>
  decidable_of_iff (left.rows = right.rows) Table.ext_iff.symm

def empty : Table key where
  rows := []
  sorted := List.Pairwise.nil

/-- The row stored under `k`. -/
def find (table : Table key) (k : κ) : Option ρ :=
  table.rows.find? fun row => key row = k

/-- The first row, in key order, whose column `column` holds `value`. -/
def findBy {γ : Type*} [DecidableEq γ]
    (table : Table key) (column : ρ → γ) (value : γ) : Option ρ :=
  table.rows.find? fun row => column row = value

/-- Remove the row stored under `k`, if there is one. -/
def erase (table : Table key) (k : κ) : Table key where
  rows := table.rows.filter fun row => key row ≠ k
  sorted := table.sorted.sublist (List.filter_sublist.map key)

/-- The keys in use. -/
def keys (table : Table key) : Finset κ :=
  (table.rows.map key).toFinset

/-- The sum of `weight` over the rows. -/
def sumBy {M : Type*} [AddCommMonoid M]
    (table : Table key) (weight : ρ → M) : M :=
  (table.rows.map weight).sum

private theorem pairwise_lt_of_le_of_nodup {ks : List κ}
    (ordered : ks.Pairwise (· ≤ ·)) (nodup : ks.Nodup) :
    ks.Pairwise (· < ·) :=
  (ordered.and nodup).imp fun h => lt_of_le_of_ne h.1 h.2

private theorem sorted_orderedInsert
    (table : Table key) (row : ρ) :
    (((table.erase (key row)).rows.orderedInsert
      (fun left right => key left ≤ key right) row).map key).Pairwise
        (· < ·) := by
  have inserted :
      ((table.erase (key row)).rows.orderedInsert
        (fun left right => key left ≤ key right) row).map key =
      ((table.erase (key row)).rows.map key).orderedInsert
        (· ≤ ·) (key row) :=
    List.map_orderedInsert (fun left right => key left ≤ key right)
      (· ≤ ·) key _ row (fun _ _ => Iff.rfl) (fun _ _ => Iff.rfl)
  rw [inserted]
  apply pairwise_lt_of_le_of_nodup
  · exact ((table.erase (key row)).sorted.imp le_of_lt).orderedInsert _ _
  · rw [(List.perm_orderedInsert (· ≤ ·) (key row) _).nodup_iff,
      List.nodup_cons]
    constructor
    · simp [erase]
    · exact (table.erase (key row)).sorted.imp ne_of_lt

/-- Write `row` under its own key, replacing the row stored there. -/
def put (table : Table key) (row : ρ) : Table key where
  rows := (table.erase (key row)).rows.orderedInsert
    (fun left right => key left ≤ key right) row
  sorted := sorted_orderedInsert table row

/-! ### Membership and lookup -/

theorem keys_nodup (table : Table key) : (table.rows.map key).Nodup :=
  table.sorted.imp ne_of_lt

theorem rows_nodup (table : Table key) : table.rows.Nodup :=
  List.Nodup.of_map key table.keys_nodup

theorem eq_of_key_eq (table : Table key) {left right : ρ}
    (leftMember : left ∈ table.rows) (rightMember : right ∈ table.rows)
    (same : key left = key right) : left = right :=
  List.inj_on_of_nodup_map table.keys_nodup leftMember rightMember same

theorem find_eq_some_iff {table : Table key} {k : κ} {row : ρ} :
    table.find k = some row ↔ row ∈ table.rows ∧ key row = k := by
  constructor
  · intro found
    exact ⟨List.mem_of_find?_eq_some found,
      by simpa using List.find?_some found⟩
  · intro stored
    obtain ⟨member, rfl⟩ := stored
    cases found : table.find (key row) with
    | none =>
        have missing := List.find?_eq_none.mp found row member
        simp at missing
    | some other =>
        have sameKey : key other = key row := by
          simpa using List.find?_some found
        rw [table.eq_of_key_eq (List.mem_of_find?_eq_some found)
          member sameKey]

theorem key_of_find {table : Table key} {k : κ} {row : ρ}
    (found : table.find k = some row) : key row = k :=
  (find_eq_some_iff.mp found).2

theorem mem_of_find {table : Table key} {k : κ} {row : ρ}
    (found : table.find k = some row) : row ∈ table.rows :=
  (find_eq_some_iff.mp found).1

theorem find_of_mem {table : Table key} {row : ρ}
    (member : row ∈ table.rows) : table.find (key row) = some row :=
  find_eq_some_iff.mpr ⟨member, rfl⟩

theorem find_eq_none_iff {table : Table key} {k : κ} :
    table.find k = none ↔ ∀ row ∈ table.rows, key row ≠ k := by
  simp [find, List.find?_eq_none]

theorem mem_keys {table : Table key} {k : κ} :
    k ∈ table.keys ↔ (table.find k).isSome := by
  rw [Option.isSome_iff_exists]
  simp only [keys, List.mem_toFinset, List.mem_map, find_eq_some_iff]

theorem notMem_keys {table : Table key} {k : κ} :
    k ∉ table.keys ↔ table.find k = none := by
  simp [mem_keys]

/-- A table is determined by its lookups. -/
theorem ext_find {left right : Table key}
    (same : ∀ k, left.find k = right.find k) : left = right := by
  have members : ∀ row, row ∈ left.rows ↔ row ∈ right.rows := by
    intro row
    constructor
    · intro member
      exact mem_of_find ((same (key row)).symm.trans (find_of_mem member))
    · intro member
      exact mem_of_find ((same (key row)).trans (find_of_mem member))
  have permutation : left.rows.Perm right.rows :=
    (List.perm_ext_iff_of_nodup left.rows_nodup right.rows_nodup).mpr members
  have antisymmetric :
      ∀ a b, a ∈ left.rows → b ∈ right.rows →
        key a < key b → key b < key a → a = b := by
    intro a b _ _ before after
    exact absurd before (lt_asymm after)
  apply Table.ext
  exact permutation.eq_of_pairwise antisymmetric
    (List.pairwise_map.mp left.sorted) (List.pairwise_map.mp right.sorted)

/-- A table is determined by its rows in any order. -/
theorem eq_of_rows_perm {left right : Table key}
    (permutation : left.rows.Perm right.rows) : left = right := by
  apply ext_find
  intro k
  ext row
  rw [find_eq_some_iff, find_eq_some_iff, permutation.mem_iff]

@[simp]
theorem mem_erase {table : Table key} {k : κ} {row : ρ} :
    row ∈ (table.erase k).rows ↔ row ∈ table.rows ∧ key row ≠ k := by
  simp [erase]

@[simp]
theorem mem_put {table : Table key} {row other : ρ} :
    other ∈ (table.put row).rows ↔
      other = row ∨ (other ∈ table.rows ∧ key other ≠ key row) := by
  simp [put]

theorem find_erase (table : Table key) (k l : κ) :
    (table.erase k).find l = if l = k then none else table.find l := by
  ext row
  by_cases same : l = k
  · subst l
    simp only [find_eq_some_iff, mem_erase, if_pos]
    constructor
    · intro erased
      obtain ⟨⟨_, different⟩, equal⟩ := erased
      exact absurd equal different
    · simp
  · simp only [find_eq_some_iff, mem_erase, if_neg same]
    constructor
    · intro erased
      obtain ⟨⟨member, _⟩, equal⟩ := erased
      exact ⟨member, equal⟩
    · intro stored
      obtain ⟨member, rfl⟩ := stored
      exact ⟨⟨member, same⟩, rfl⟩

/-- Erasing a key that is not in use changes nothing. -/
theorem erase_of_find_eq_none {table : Table key} {k : κ}
    (missing : table.find k = none) : table.erase k = table := by
  apply ext_find
  intro l
  rw [find_erase]
  split_ifs with same
  · rw [same, missing]
  · rfl

theorem find_put (table : Table key) (row : ρ) (k : κ) :
    (table.put row).find k =
      if k = key row then some row else table.find k := by
  ext other
  by_cases same : k = key row
  · subst k
    rw [if_pos rfl, find_eq_some_iff, mem_put, Option.some_inj]
    constructor
    · intro written
      rcases written with ⟨rfl | ⟨_, different⟩, equal⟩
      · rfl
      · exact absurd equal different
    · intro equal
      subst equal
      exact ⟨Or.inl rfl, rfl⟩
  · rw [if_neg same, find_eq_some_iff, find_eq_some_iff, mem_put]
    constructor
    · intro written
      rcases written with ⟨rfl | ⟨member, _⟩, equal⟩
      · exact absurd equal.symm same
      · exact ⟨member, equal⟩
    · intro stored
      obtain ⟨member, rfl⟩ := stored
      exact ⟨Or.inr ⟨member, same⟩, rfl⟩

@[simp]
theorem keys_put (table : Table key) (row : ρ) :
    (table.put row).keys = insert (key row) table.keys := by
  ext k
  by_cases same : k = key row <;> simp [mem_keys, find_put, same]

@[simp]
theorem keys_erase (table : Table key) (k : κ) :
    (table.erase k).keys = table.keys.erase k := by
  ext l
  by_cases same : l = k <;> simp [mem_keys, find_erase, same]

/-! ### Mutators under different keys commute -/

theorem put_put_comm (table : Table key) {left right : ρ}
    (different : key left ≠ key right) :
    (table.put left).put right = (table.put right).put left := by
  apply ext_find
  intro k
  simp only [find_put]
  split_ifs with first second
  · exact absurd (second.symm.trans first) different
  · rfl
  · rfl
  · rfl

theorem put_erase_comm (table : Table key) {row : ρ} {k : κ}
    (different : key row ≠ k) :
    (table.put row).erase k = (table.erase k).put row := by
  apply ext_find
  intro l
  simp only [find_put, find_erase]
  split_ifs with first second
  · exact absurd (second.symm.trans first) different
  · rfl
  · rfl
  · rfl

/-- Erasing a fresh row just written restores the table. -/
theorem erase_put_of_fresh (table : Table key) {row : ρ} {k : κ}
    (rowKey : key row = k) (fresh : table.find k = none) :
    (table.put row).erase k = table := by
  apply ext_find
  intro l
  rw [find_erase]
  split_ifs with same
  · rw [same, fresh]
  · rw [find_put, rowKey, if_neg same]

/-! ### Writing many rows -/

/-- Write rows one after the other. -/
def putAll (table : Table key) (rows : List ρ) : Table key :=
  rows.foldl put table

theorem keys_putAll (table : Table key) (rows : List ρ) :
    (table.putAll rows).keys = table.keys ∪ (rows.map key).toFinset := by
  induction rows generalizing table with
  | nil => simp [putAll]
  | cons row rows inductionHypothesis =>
      have later := inductionHypothesis (table.put row)
      rw [putAll, List.foldl_cons, ← putAll, later, keys_put, List.map_cons,
        List.toFinset_cons, Finset.insert_union, Finset.union_insert]

/-- The keys of all written rows are in use. -/
theorem exists_find_putAll (table : Table key) {rows : List ρ} {row : ρ}
    (member : row ∈ rows) :
    ∃ stored, (table.putAll rows).find (key row) = some stored := by
  have used : key row ∈ (table.putAll rows).keys := by
    rw [keys_putAll]
    exact Finset.mem_union_right _
      (List.mem_toFinset.mpr (List.mem_map_of_mem member))
  exact Option.isSome_iff_exists.mp (mem_keys.mp used)

/-- A row under a fresh key joins the others. -/
theorem rows_put_perm (table : Table key) {row : ρ}
    (fresh : table.find (key row) = none) :
    (table.put row).rows.Perm (row :: table.rows) := by
  have inserted := List.perm_orderedInsert
    (fun left right => key left ≤ key right) row (table.erase (key row)).rows
  have unchanged := congrArg rows (erase_of_find_eq_none fresh)
  rw [unchanged] at inserted
  have written : (table.put row).rows =
      table.rows.orderedInsert (fun left right => key left ≤ key right) row := by
    rw [← unchanged]
    rfl
  rw [written]
  exact inserted

theorem rows_putAll_perm (table : Table key) {rows : List ρ}
    (different : (rows.map key).Nodup)
    (fresh : ∀ row ∈ rows, table.find (key row) = none) :
    (table.putAll rows).rows.Perm (rows ++ table.rows) := by
  induction rows generalizing table with
  | nil => exact List.Perm.refl _
  | cons row rows inductionHypothesis =>
      rw [List.map_cons, List.nodup_cons] at different
      have freshRow := fresh row List.mem_cons_self
      have stillFresh : ∀ later ∈ rows, (table.put row).find (key later) = none := by
        intro later member
        have notSame : key later ≠ key row := by
          intro same
          rw [← same] at different
          exact different.1 (List.mem_map_of_mem member)
        rw [find_put, if_neg notSame]
        exact fresh later (List.mem_cons_of_mem row member)
      have written := inductionHypothesis (table.put row) different.2 stillFresh
      have moved := (table.rows_put_perm freshRow).append_left rows
      exact (written.trans moved).trans List.perm_middle

/-- An empty table keeps every row that is written exactly if no two of them
have the same key. -/
theorem rows_putAll_empty_perm_iff {rows : List ρ} :
    ((empty : Table key).putAll rows).rows.Perm rows ↔
      (rows.map key).Nodup := by
  constructor
  · intro kept
    exact (kept.map key).nodup_iff.mp (keys_nodup _)
  · intro different
    have kept := rows_putAll_perm (empty : Table key) different
      fun row _ => rfl
    rw [empty, List.append_nil] at kept
    exact kept

/-- The rows left are those behind which no row with their key is written. -/
theorem mem_rows_putAll_empty_iff {rows : List ρ} {row : ρ} :
    row ∈ ((empty : Table key).putAll rows).rows ↔
      ∃ earlier later, rows = earlier ++ row :: later ∧
        ∀ other ∈ later, key other ≠ key row := by
  induction rows using List.reverseRecOn with
  | nil => simp [putAll, empty]
  | append_singleton rows last inductionHypothesis =>
      rw [putAll, List.foldl_append, List.foldl_cons, List.foldl_nil,
        ← putAll, mem_put, inductionHypothesis]
      constructor
      · intro written
        rcases written with rfl | ⟨⟨earlier, later, rfl, notLater⟩, notLast⟩
        · exact ⟨rows, [], rfl, nofun⟩
        · refine ⟨earlier, later ++ [last], ?_, ?_⟩
          · rw [List.append_assoc, List.cons_append]
          · intro other member
            rcases List.mem_append.mp member with inLater | isLast
            · exact notLater other inLater
            · rw [List.mem_singleton.mp isLast]
              exact notLast.symm
      · intro split
        obtain ⟨earlier, later, parts, notLater⟩ := split
        rcases List.eq_nil_or_concat later with rfl | ⟨before, final, rfl⟩
        · exact Or.inl (List.append_inj_right' parts rfl |>
            List.singleton_inj.mp).symm
        · rw [List.concat_eq_append, ← List.cons_append, ← List.append_assoc]
            at parts
          have same := List.append_inj' parts rfl
          have isFinal := List.singleton_inj.mp same.2
          rw [List.concat_eq_append] at notLater
          refine Or.inr ⟨⟨earlier, before, same.1, ?_⟩, ?_⟩
          · intro other member
            exact notLater other (List.mem_append_left _ member)
          · rw [isFinal]
            exact (notLater final
              (List.mem_append_right _ List.mem_cons_self)).symm

/-- A table whose rows are their own keys is a set. -/
theorem mem_rows_putAll_empty_self {rows : List κ} {row : κ} :
    row ∈ ((empty : Table fun row : κ => row).putAll rows).rows ↔
      row ∈ rows := by
  have used := keys_putAll (empty : Table fun row : κ => row) rows
  rw [keys, List.map_id', List.map_id'] at used
  have member := congrArg (row ∈ ·) used
  simpa [empty, keys] using member

/-- So many rows are left only if none of them was replaced. -/
theorem nodup_of_length_putAll_empty {rows : List ρ}
    (enough : rows.length ≤ ((empty : Table key).putAll rows).rows.length) :
    (rows.map key).Nodup := by
  have keysUsed : ((empty : Table key).putAll rows).keys =
      (rows.map key).toFinset := by
    rw [keys_putAll]
    exact Finset.empty_union _
  have rowCount := List.toFinset_card_of_nodup
    ((empty : Table key).putAll rows).keys_nodup
  rw [← keys, keysUsed, List.length_map] at rowCount
  have atMost := List.toFinset_card_le (rows.map key)
  rw [List.length_map] at atMost
  apply Multiset.coe_nodup.mp
  apply Multiset.toFinset_card_eq_card_iff_nodup.mp
  rw [List.toFinset_coe, Multiset.coe_card, List.length_map]
  omega

/-! ### Lookup through another column -/

section Column

variable {γ : Type*} [DecidableEq γ] {column : ρ → γ} {value : γ}

theorem mem_of_findBy {table : Table key} {row : ρ}
    (found : table.findBy column value = some row) :
    row ∈ table.rows ∧ column row = value :=
  ⟨List.mem_of_find?_eq_some found, by simpa using List.find?_some found⟩

theorem findBy_eq_none_iff {table : Table key} :
    table.findBy column value = none ↔
      ∀ row ∈ table.rows, column row ≠ value := by
  simp [findBy, List.find?_eq_none]

/-- Where at most one row holds the value, `findBy` finds exactly that row. -/
theorem findBy_eq_some_of_unique {table : Table key} {row : ρ}
    (member : row ∈ table.rows) (holds : column row = value)
    (unique : ∀ other ∈ table.rows, column other = value → other = row) :
    table.findBy column value = some row := by
  cases found : table.findBy column value with
  | none =>
      exact absurd holds (findBy_eq_none_iff.mp found row member)
  | some other =>
      rw [unique other (mem_of_findBy found).1 (mem_of_findBy found).2]

/-- Among the rows that hold the value, `findBy` returns the one with the
smallest primary key. -/
theorem findBy_key_le {table : Table key} {row other : ρ}
    (found : table.findBy column value = some row)
    (member : other ∈ table.rows) (holds : column other = value) :
    key row ≤ key other := by
  obtain ⟨_, before, after, partition, earlier⟩ :=
    List.find?_eq_some_iff_append.mp found
  have ordered := List.pairwise_map.mp table.sorted
  rw [partition] at member ordered
  rcases List.mem_append.mp member with inBefore | inRest
  · have differs := earlier other inBefore
    simp [holds] at differs
  · rcases List.mem_cons.mp inRest with rfl | inAfter
    · exact le_rfl
    · exact le_of_lt <|
        (List.pairwise_cons.mp
          (List.pairwise_append.mp ordered).2.1).1 other inAfter

/-- Writing a fresh row that does not hold the value keeps the lookup. -/
theorem findBy_put_of_ne {table : Table key} {row : ρ}
    (fresh : table.find (key row) = none) (differs : column row ≠ value) :
    (table.put row).findBy column value = table.findBy column value := by
  have absent := find_eq_none_iff.mp fresh
  have members : ∀ other, column other = value →
      (other ∈ (table.put row).rows ↔ other ∈ table.rows) := by
    intro other holds
    rw [mem_put]
    constructor
    · intro written
      rcases written with rfl | ⟨member, _⟩
      · exact absurd holds differs
      · exact member
    · intro member
      exact Or.inr ⟨member, absent other member⟩
  cases found : table.findBy column value with
  | none =>
      rw [findBy_eq_none_iff] at found ⊢
      intro other member holds
      exact found other ((members other holds).mp member) holds
  | some first =>
      obtain ⟨firstMember, firstHolds⟩ := mem_of_findBy found
      cases refound : (table.put row).findBy column value with
      | none =>
          exact absurd firstHolds
            (findBy_eq_none_iff.mp refound first
              ((members first firstHolds).mpr firstMember))
      | some second =>
          obtain ⟨secondMember, secondHolds⟩ := mem_of_findBy refound
          have oldMember := (members second secondHolds).mp secondMember
          have lower := findBy_key_le found oldMember secondHolds
          have upper := findBy_key_le refound
            ((members first firstHolds).mpr firstMember) firstHolds
          rw [table.eq_of_key_eq oldMember firstMember
            (le_antisymm upper lower)]

/-- Erasing rows that do not hold the value keeps the lookup. -/
theorem findBy_erase_of_ne {table : Table key} {k : κ}
    (differs : ∀ row ∈ table.rows, key row = k → column row ≠ value) :
    (table.erase k).findBy column value = table.findBy column value := by
  rw [findBy, erase, List.find?_filter, findBy]
  apply List.find?_congr
  intro row member
  have kept : column row = value → key row ≠ k := fun holds erased =>
    differs row member erased holds
  rw [decide_eq_decide, decide_eq_true_eq, decide_eq_true_eq]
  exact ⟨And.right, fun holds => ⟨kept holds, holds⟩⟩

end Column

/-! ### Sums over the rows -/

/-- Summing the rows is summing over the keys in use. -/
theorem sumBy_eq_sum_keys {M : Type*} [AddCommMonoid M]
    (table : Table key) (weight : ρ → M) :
    table.sumBy weight =
      ∑ k ∈ table.keys, (table.find k).elim 0 weight := by
  rw [keys, List.sum_toFinset _ table.keys_nodup, List.map_map, sumBy]
  congr 1
  apply List.map_congr_left
  intro row member
  simp [find_of_mem member]

end Table

end Bright.Lib
