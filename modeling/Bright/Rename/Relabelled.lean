import Bright.Rename.Tree

/-!
# Turns that meet no other entry

As long as siblings have different new names, every turn of the loop finds its
entry where the walk saw it and its new place free.  So after each turn the
entries are at the places that `relabel` gives them (`relabelled_foldl`).
-/

namespace Bright.Rename

open Bright.Lib

/-- The entries of the tree are at their places with the parts in `done`
substituted. -/
def Relabelled (tree : DirectoryTree) (done : List Location) (fs : FileSystem) :
    Prop :=
  fs.rows.Perm
    (tree.entries.rows.map (Entry.relocate (relabel substituted done)))

variable {overFile : Bool} {fs : FileSystem} {tree : DirectoryTree}
  {entry : Entry} {done : List Location}

/-! ### One turn -/

theorem Relabelled.mem_of_clear (relabelled : Relabelled tree done fs)
    (stored : entry ∈ tree.entries.rows)
    (clear : ∀ above, above <+: entry.location → above ∉ done) :
    entry ∈ fs.rows := by
  have here := List.mem_map_of_mem
    (f := Entry.relocate (relabel substituted done)) stored
  rw [Entry.relocate, relabel_of_clear clear] at here
  exact relabelled.mem_iff.mpr here

/-- The directory of an entry that is where it was is where it was, too. -/
theorem Relabelled.parent_stays (relabelled : Relabelled tree done fs)
    (stored : entry ∈ tree.entries.rows)
    (clear : ∀ above, above <+: entry.location → above ∉ done) :
    entry.location.dropLast = [] ∨
      ∃ parent, fs.find entry.location.dropLast = some parent ∧
        parent.node = .directory := by
  rcases tree.parents entry stored with top | known
  · exact Or.inl top
  · obtain ⟨parent, parentStored, parentPlace, isDirectory⟩ := known
    have parentClear : ∀ above, above <+: parent.location → above ∉ done := by
      intro above inFront
      rw [parentPlace] at inFront
      exact clear above (inFront.trans (List.dropLast_prefix _))
    have stillThere := Table.find_of_mem
      (relabelled.mem_of_clear parentStored parentClear)
    rw [parentPlace] at stillThere
    exact Or.inr ⟨parent, stillThere, isDirectory⟩

/-- Moving an entry that is where it was to a free place beside it. -/
theorem Relabelled.renameTo_perm (overFile : Bool)
    (relabelled : Relabelled tree done fs) {above : Location} {name : Bytes}
    (stored : entry ∈ tree.entries.rows)
    (isPlace : entry.location = above ++ [name])
    (clear : ∀ front, front <+: entry.location → front ∉ done)
    (changed : substituted name ≠ name)
    (free : ∀ other ∈ tree.entries.rows,
      ¬ above ++ [substituted name] <+:
        relabel substituted done other.location) :
    (renameTo overFile fs (above ++ [name])
        (above ++ [substituted name])).rows.Perm
      (tree.entries.rows.map (Entry.relocate fun place =>
        moved (above ++ [name]) (above ++ [substituted name])
          (relabel substituted done place))) := by
  have different : above ++ [substituted name] ≠ above ++ [name] := fun same =>
    changed (List.append_singleton_inj.mp same).2
  have found : fs.find (above ++ [name]) = some entry := by
    rw [← isPlace]
    exact Table.find_of_mem (relabelled.mem_of_clear stored clear)
  have notBelow : ¬ above ++ [name] <+: above ++ [substituted name] := by
    intro inFront
    apply different
    apply (inFront.eq_of_length _).symm
    rw [List.length_append, List.length_append]
    rfl
  have allFree : ∀ row ∈ fs.rows,
      ¬ above ++ [substituted name] <+: row.location := by
    intro row member
    obtain ⟨other, otherStored, rfl⟩ :=
      List.mem_map.mp (relabelled.mem_iff.mp member)
    exact free other otherStored
  have notFound : fs.find (above ++ [substituted name]) = none := by
    apply Table.find_eq_none_iff.mpr
    intro row member same
    exact allFree row member (same ▸ List.prefix_refl _)
  have parent := relabelled.parent_stays stored clear
  have sameParent : entry.location.dropLast =
      (above ++ [substituted name]).dropLast := by
    rw [isPlace, List.dropLast_concat, List.dropLast_concat]
  rw [sameParent] at parent
  rw [renameTo, if_pos different,
    osRename_of_free found notBelow notFound parent, Option.getD_some]
  have onTree := relabelled.map
    (Entry.relocate (moved (above ++ [name]) (above ++ [substituted name])))
  rw [List.map_map] at onTree
  exact (rows_move_perm_of_free _ allFree).trans onTree

theorem relabelled_renameTo (relabelled : Relabelled tree done fs)
    (stored : entry ∈ tree.entries.rows)
    (separates : Separates substituted (entry.location :: done) tree.places)
    (clear : ∀ above, above <+: entry.location → above ∉ done) :
    Relabelled tree (entry.location :: done)
      (renameTo overFile fs entry.location (sibling entry.location)) := by
  obtain ⟨above, name, isPlace⟩ := tree.exists_name stored
  have inTree : ∀ other ∈ tree.entries.rows, other.location ∈ tree.places :=
    fun other member => Or.inr ⟨other, member, rfl⟩
  have placeInTree := inTree entry stored
  rw [isPlace] at separates placeInTree
  have placeClear := clear
  rw [isPlace] at placeClear
  have relabelsMore : ∀ other ∈ tree.entries.rows,
      relabel substituted ((above ++ [name]) :: done) other.location =
        moved (above ++ [name]) (above ++ [substituted name])
          (relabel substituted done other.location) :=
    fun other member => relabel_cons_eq_moved substituted_substituted
      (prefixClosed_places tree) separates placeInTree placeClear
      (inTree other member)
  have sameRows : tree.entries.rows.map
      (Entry.relocate (relabel substituted ((above ++ [name]) :: done))) =
        tree.entries.rows.map (Entry.relocate fun place =>
          moved (above ++ [name]) (above ++ [substituted name])
            (relabel substituted done place)) :=
    map_relocate_congr relabelsMore
  rw [Relabelled, isPlace, sibling_concat, sameRows]
  by_cases changed : substituted name = name
  · rw [changed, renameTo, if_neg (not_not.mpr rfl)]
    simp only [moved_self]
    exact relabelled
  · exact relabelled.renameTo_perm overFile stored isPlace clear changed
      fun other member => relabel_free substituted_substituted
        (prefixClosed_places tree) separates placeInTree placeClear
        (inTree other member) changed

/-! ### The entries below the directory -/

theorem relabelled_foldl (overFile : Bool) (todo : List Entry)
    (relabelled : Relabelled tree done fs)
    (stored : ∀ entry ∈ todo, entry ∈ tree.entries.rows)
    (upwards : todo.Pairwise fun first later =>
      ¬ first.location <+: later.location)
    (separates : Separates substituted
      ((todo.map Entry.location).reverse ++ done) tree.places)
    (clear : ∀ entry ∈ todo, ∀ above, above <+: entry.location → above ∉ done) :
    Relabelled tree ((todo.map Entry.location).reverse ++ done)
      (todo.foldl
        (fun fs entry =>
          renameTo overFile fs entry.location (sibling entry.location)) fs) := by
  induction todo generalizing done fs with
  | nil => exact relabelled
  | cons entry todo inductionHypothesis =>
      obtain ⟨entryStored, todoStored⟩ := List.forall_mem_cons.mp stored
      obtain ⟨notAbove, todoUpwards⟩ := List.pairwise_cons.mp upwards
      obtain ⟨entryClear, todoClear⟩ := List.forall_mem_cons.mp clear
      have sameDone : ((entry :: todo).map Entry.location).reverse ++ done =
          (todo.map Entry.location).reverse ++ entry.location :: done := by
        rw [List.map_cons, List.reverse_cons, List.append_assoc,
          List.singleton_append]
      rw [sameDone] at separates ⊢
      have separatesNow : Separates substituted (entry.location :: done)
          tree.places :=
        fun place name other member otherMember eitherDone =>
          separates place name other member otherMember
            (eitherDone.imp (List.mem_append_right _) (List.mem_append_right _))
      have stillClear : ∀ later ∈ todo, ∀ above, above <+: later.location →
          above ∉ entry.location :: done := by
        intro later member above inFront isDone
        rcases List.mem_cons.mp isDone with isEntry | isDone
        · exact notAbove later member (isEntry ▸ inFront)
        · exact todoClear later member above inFront isDone
      rw [List.foldl_cons]
      exact inductionHypothesis
        (relabelled_renameTo relabelled entryStored separatesNow entryClear)
        todoStored todoUpwards separates stillClear

end Bright.Rename
