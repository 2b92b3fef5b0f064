import Bright.Lib.Paths
import Bright.Lib.Table
import Mathlib.Data.List.Lex

/-!
# File systems as the rename tool sees them

A file system is a table of entries under their locations, the lists of names
that lead to them.  The order of the table is that of `filepath.Walk`: an entry
before the entries below it, and the entries of a directory by their names.

An entry has an identity, which `os.Rename` moves with it.  An entry is a file,
a directory or a link: a file has one location, so hard links are left out, and
so are named pipes and devices, on which an operation may never return.
-/

namespace Bright.Rename

open Bright.Lib

abbrev Bytes := List UInt8

/-- The names on the way to an entry and its own. -/
abbrev Location := List Bytes

inductive Node where
  | file (content : Bytes)
  | directory
  | link (target : Bytes)
  deriving DecidableEq, Repr

structure Entry where
  location : Location
  ident : ℕ
  node : Node
  deriving DecidableEq, Repr

abbrev FileSystem := Table Entry.location

/-- The entry at the place that `place` gives it. -/
def Entry.relocate (place : Location → Location) (entry : Entry) : Entry :=
  { entry with location := place entry.location }

/-- Move `old` and all below it to `new`, in the place of what is there. -/
def FileSystem.move (fs : FileSystem) (old new : Location) : FileSystem :=
  Table.empty.putAll
    ((fs.rows.filter fun entry => ¬ new.isPrefixOf entry.location).map
      (Entry.relocate (moved old new)))

/-- `os.Rename`; `none` is an error, which leaves everything as it is.  Whether
a directory replaces a file depends on the system. -/
def osRename (overFile : Bool) (fs : FileSystem) (old new : Location) :
    Option FileSystem :=
  match fs.find old with
  | none => none
  | some source =>
      if old.isPrefixOf new then
        none
      else
        match fs.find new with
        | some target =>
            if target.node = .directory then none
            else if source.node = .directory ∧ ¬ overFile then none
            else some (fs.move old new)
        | none =>
            if new.dropLast = [] ∨
                (fs.find new.dropLast).any (·.node = .directory) then
              some (fs.move old new)
            else
              none

variable {overFile : Bool} {fs after : FileSystem} {old new : Location}
  {entry other : Entry}

/-! ### Relocating -/

theorem map_relocate_congr {rows : List Entry} {place other : Location → Location}
    (same : ∀ entry ∈ rows, place entry.location = other entry.location) :
    rows.map (Entry.relocate place) = rows.map (Entry.relocate other) := by
  apply List.map_congr_left
  intro entry stored
  rw [Entry.relocate, Entry.relocate, same entry stored]

theorem map_relocate_id {rows : List Entry} {place : Location → Location}
    (stays : ∀ entry ∈ rows, place entry.location = entry.location) :
    rows.map (Entry.relocate place) = rows := by
  have same : rows.map (Entry.relocate place) = rows.map (Entry.relocate id) :=
    map_relocate_congr stays
  exact same.trans (List.map_id rows)

/-! ### Moving -/

/-- A move keeps the entries that are not below `new`. -/
theorem rows_move_perm (fs : FileSystem) (old new : Location) :
    (fs.move old new).rows.Perm
      ((fs.rows.filter fun entry => ¬ new.isPrefixOf entry.location).map
        (Entry.relocate (moved old new))) := by
  apply Table.rows_putAll_empty_perm_iff.mpr
  rw [List.map_map]
  apply List.Nodup.map_on _ (fs.rows_nodup.filter _)
  intro entry member other otherMember same
  obtain ⟨stored, notBelow⟩ := List.mem_filter.mp member
  obtain ⟨otherStored, otherNotBelow⟩ := List.mem_filter.mp otherMember
  rw [decide_eq_true_eq, List.isPrefixOf_iff_prefix] at notBelow otherNotBelow
  exact fs.eq_of_key_eq stored otherStored
    (moved_inj notBelow otherNotBelow same)

/-- A move to a free place keeps all entries. -/
theorem rows_move_perm_of_free (old : Location)
    (free : ∀ entry ∈ fs.rows, ¬ new <+: entry.location) :
    (fs.move old new).rows.Perm
      (fs.rows.map (Entry.relocate (moved old new))) := by
  have keepsAll : fs.rows.filter
      (fun entry => ¬ new.isPrefixOf entry.location) = fs.rows := by
    apply List.filter_eq_self.mpr
    intro entry stored
    rw [decide_eq_true_eq, List.isPrefixOf_iff_prefix]
    exact free entry stored
  have moves := rows_move_perm fs old new
  rw [keepsAll] at moves
  exact moves

theorem mem_move_of_notBelow (stored : entry ∈ fs.rows)
    (notBelow : ¬ new <+: entry.location)
    (notMoved : ¬ old <+: entry.location) :
    entry ∈ (fs.move old new).rows := by
  apply (rows_move_perm fs old new).mem_iff.mpr
  have kept : entry ∈ fs.rows.filter
      fun entry => ¬ new.isPrefixOf entry.location := by
    apply List.mem_filter.mpr
    rw [decide_eq_true_eq, List.isPrefixOf_iff_prefix]
    exact ⟨stored, notBelow⟩
  refine List.mem_map.mpr ⟨entry, kept, ?_⟩
  rw [Entry.relocate, moved_of_notBelow notMoved]

theorem length_move_le (fs : FileSystem) (old new : Location) :
    (fs.move old new).rows.length ≤ fs.rows.length := by
  rw [(rows_move_perm fs old new).length_eq, List.length_map]
  exact List.length_filter_le _ _

/-- An entry that is replaced is lost. -/
theorem length_move_lt (old : Location) (stored : entry ∈ fs.rows)
    (below : new <+: entry.location) :
    (fs.move old new).rows.length < fs.rows.length := by
  rw [(rows_move_perm fs old new).length_eq, List.length_map]
  apply List.length_filter_lt_length_iff_exists.mpr
  refine ⟨entry, stored, ?_⟩
  rw [decide_eq_true_eq, not_not]
  exact List.isPrefixOf_iff_prefix.mpr below

/-- A move is not seen at the other places. -/
theorem find_move_of_notBelow {place : Location} (notNew : ¬ new <+: place)
    (notOld : ¬ old <+: place) :
    (fs.move old new).find place = fs.find place := by
  ext found
  rw [Table.find_eq_some_iff, Table.find_eq_some_iff]
  constructor
  · intro stored
    obtain ⟨member, isPlace⟩ := stored
    obtain ⟨source, kept, rfl⟩ :=
      List.mem_map.mp ((rows_move_perm fs old new).mem_iff.mp member)
    have notMoved : ¬ old <+: source.location := by
      intro below
      obtain ⟨rest, shape⟩ := below
      rw [Entry.relocate, ← shape, moved_append] at isPlace
      exact notNew (isPlace ▸ List.prefix_append new rest)
    rw [Entry.relocate, moved_of_notBelow notMoved] at isPlace ⊢
    exact ⟨List.mem_of_mem_filter kept, isPlace⟩
  · intro stored
    obtain ⟨member, rfl⟩ := stored
    exact ⟨mem_move_of_notBelow member notNew notOld, rfl⟩

/-! ### Renaming -/

theorem osRename_eq_some (renamed : osRename overFile fs old new = some after) :
    after = fs.move old new := by
  rw [osRename] at renamed
  cases found : fs.find old with
  | none =>
      rw [found] at renamed
      cases renamed
  | some source =>
      rw [found] at renamed
      dsimp only at renamed
      cases targetFound : fs.find new with
      | none =>
          rw [targetFound] at renamed
          dsimp only at renamed
          split_ifs at renamed with below parent
          exact (Option.some.inj renamed).symm
      | some target =>
          rw [targetFound] at renamed
          dsimp only at renamed
          split_ifs at renamed with below isDirectory overwrites
          exact (Option.some.inj renamed).symm

theorem osRename_of_free {source : Entry} (found : fs.find old = some source)
    (notBelow : ¬ old <+: new) (free : fs.find new = none)
    (parent : new.dropLast = [] ∨
      ∃ parent, fs.find new.dropLast = some parent ∧ parent.node = .directory) :
    osRename overFile fs old new = some (fs.move old new) := by
  have outside : ¬ old.isPrefixOf new := fun below =>
    notBelow (List.isPrefixOf_iff_prefix.mp below)
  have parentFound : new.dropLast = [] ∨
      (fs.find new.dropLast).any (·.node = .directory) := by
    rcases parent with top | parent
    · exact Or.inl top
    · obtain ⟨parent, parentFound, isDirectory⟩ := parent
      rw [parentFound]
      exact Or.inr (decide_eq_true isDirectory)
  rw [osRename, found, free]
  dsimp only
  rw [if_neg outside, if_pos parentFound]

end Bright.Rename
