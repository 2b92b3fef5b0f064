import Bright.Rename.PathStrings

/-!
# The walk over a directory tree

`modifyFileName` runs over the walk backwards, so the entries below the
directory come first, the last one in the order of the walk before the others,
and the directory itself comes last.  On a tree, each turn moves one entry to
the sibling place with the new name (`modifyFileName_walk`).
-/

namespace Bright.Rename

open Bright.Lib

/-- A file system in which every entry has a proper name, an identity of its own
and a directory above it. -/
structure DirectoryTree where
  entries : FileSystem
  nonempty : ∀ entry ∈ entries.rows, entry.location ≠ []
  proper : ∀ entry ∈ entries.rows, ∀ name ∈ entry.location, ProperName name
  parents : ∀ entry ∈ entries.rows, entry.location.dropLast = [] ∨
    ∃ parent ∈ entries.rows, parent.location = entry.location.dropLast ∧
      parent.node = .directory
  identsDiffer : (entries.rows.map Entry.ident).Nodup

/-- Move an entry if its new place is another one; errors change nothing. -/
def renameTo (overFile : Bool) (fs : FileSystem) (old new : Location) :
    FileSystem :=
  if new ≠ old then (osRename overFile fs old new).getD fs else fs

/-- The place of a path whose last name is substituted. -/
def newPlace (path : Bytes) : Location :=
  locate (path.take (lastSlashEnd path) ++
    substituted (path.drop (lastSlashEnd path)))

/-- The place with the last name substituted. -/
def sibling (location : Location) : Location :=
  location.dropLast ++ (location.getLast?.map substituted).toList

/-- There is something to walk over. -/
def Present (fs : FileSystem) (dir : Bytes) : Prop :=
  locate dir = [] ∨ ∃ root ∈ fs.rows, root.location = locate dir

/-- There is a directory to walk over. -/
def RootDirectory (fs : FileSystem) (dir : Bytes) : Prop :=
  locate dir = [] ∨
    ∃ root ∈ fs.rows, root.location = locate dir ∧ root.node = .directory

instance decidablePresent (fs : FileSystem) (dir : Bytes) :
    Decidable (Present fs dir) :=
  inferInstanceAs (Decidable (_ ∨ _))

instance decidableRootDirectory (fs : FileSystem) (dir : Bytes) :
    Decidable (RootDirectory fs dir) :=
  inferInstanceAs (Decidable (_ ∨ _))

variable {overFile : Bool} {order : ℕ → List (Bytes × Bytes)} {path dir : Bytes}
  {paths : List Bytes} {fs : FileSystem} {tree : DirectoryTree} {entry : Entry}

/-! ### One turn -/

/-- Only a proper name is changed. -/
theorem properName_of_changed {name : Bytes} (noSlash : slash ∉ name)
    (changed : substituted name ≠ name) : ProperName name := by
  refine ⟨?_, ?_, ?_, noSlash⟩
  · intro empty
    rw [empty] at changed
    exact changed rfl
  · intro isDot
    rw [isDot] at changed
    exact changed (by decide)
  · intro isUp
    rw [isUp] at changed
    exact changed (by decide +kernel)

theorem newPlace_append {front name : Bytes} (isFront : Front front)
    (noSlash : slash ∉ name) :
    newPlace (front ++ name) = locate front ++ locate (substituted name) := by
  rw [newPlace, lastSlashEnd_append isFront noSlash, List.take_left,
    List.drop_left, locate_append isFront]

theorem newPlace_eq_iff :
    newPlace path = locate path ↔
      substituted (path.drop (lastSlashEnd path)) =
        path.drop (lastSlashEnd path) := by
  obtain ⟨front, name, rfl, isFront, noSlash⟩ := exists_front path
  rw [newPlace_append isFront noSlash, locate_append isFront,
    lastSlashEnd_append isFront noSlash, List.drop_left]
  constructor
  · intro samePlace
    by_contra changed
    have proper := properName_of_changed noSlash changed
    rw [locate_of_properName proper,
      locate_of_properName (properName_substituted proper)] at samePlace
    exact changed (List.append_singleton_inj.mp samePlace).2
  · intro same
    rw [same]

theorem renamePath_substituted :
    renamePath overFile path (substituted (path.drop (lastSlashEnd path))) fs =
      renameTo overFile fs (locate path) (newPlace path) := by
  rw [renamePath, renameTo]
  by_cases same : newPlace path = locate path
  · have unchanged := newPlace_eq_iff.mp same
    rw [if_neg (not_not.mpr same), if_neg (not_not.mpr unchanged)]
  · have changed := fun unchanged => same (newPlace_eq_iff.mpr unchanged)
    rw [if_pos same, if_pos changed, newPlace]

/-- The loop does not depend on the orders that Go picks. -/
theorem renameLoop_eq_foldl (visits : ∀ turn, (order turn).Perm nameMap)
    (turn : ℕ) (last : Bytes) :
    renameLoop overFile order turn last paths fs =
      paths.foldl
        (fun fs path => renameTo overFile fs (locate path) (newPlace path)) fs := by
  induction paths generalizing turn last fs with
  | nil => rfl
  | cons path paths inductionHypothesis =>
      rw [renameLoop, List.foldl_cons, inductionHypothesis,
        modifiedName_eq (visits turn), renamePath_substituted]

/-! ### The walk -/

/-- Every entry has a name. -/
theorem DirectoryTree.exists_name (tree : DirectoryTree)
    (stored : entry ∈ tree.entries.rows) :
    ∃ above name, entry.location = above ++ [name] := by
  rcases List.eq_nil_or_concat entry.location with empty | concat
  · exact absurd empty (tree.nonempty entry stored)
  · obtain ⟨above, name, isPlace⟩ := concat
    exact ⟨above, name, isPlace.trans List.concat_eq_append⟩

theorem sibling_concat (above : Location) (name : Bytes) :
    sibling (above ++ [name]) = above ++ [substituted name] := by
  rw [sibling, List.dropLast_concat, List.getLast?_concat]
  rfl

theorem locate_path (dir : Bytes) (stored : entry ∈ tree.entries.rows) :
    locate (lead dir ++ joinPath entry.location) = entry.location ∧
      newPlace (lead dir ++ joinPath entry.location) =
        sibling entry.location := by
  have proper := tree.proper entry stored
  obtain ⟨above, name, isPlace⟩ := tree.exists_name stored
  rw [isPlace] at proper ⊢
  obtain ⟨front, shape, isFront, place⟩ := exists_front_path dir proper
  have properName : ProperName name :=
    proper name (List.mem_append_right above List.mem_cons_self)
  rw [shape, locate_append isFront, place, locate_of_properName properName,
    newPlace_append isFront properName.noSlash, place,
    locate_of_properName (properName_substituted properName), sibling_concat]
  exact ⟨rfl, rfl⟩

theorem modifyFileName_walk (visits : ∀ turn, (order turn).Perm nameMap)
    (tree : DirectoryTree) (dir : Bytes) (fs : FileSystem) :
    modifyFileName overFile order (walk tree.entries dir) fs =
      renameTo overFile
        ((below tree.entries dir).reverse.foldl
          (fun fs entry =>
            renameTo overFile fs entry.location (sibling entry.location)) fs)
        (locate dir) (newPlace dir) := by
  have sameTurn : ∀ (fs : FileSystem), ∀ entry ∈ (below tree.entries dir).reverse,
      renameTo overFile fs
          (locate (lead dir ++ joinPath entry.location))
          (newPlace (lead dir ++ joinPath entry.location)) =
        renameTo overFile fs entry.location (sibling entry.location) := by
    intro fs entry member
    have stored := List.mem_of_mem_filter (List.mem_reverse.mp member)
    obtain ⟨place, newPlace⟩ := locate_path dir stored
    rw [place, newPlace]
  rw [modifyFileName, renameLoop_eq_foldl visits, walk, List.reverse_cons,
    List.foldl_append, ← List.map_reverse, List.foldl_map,
    List.foldl_ext _ _ _ sameTurn]
  rfl

theorem RootDirectory.present (root : RootDirectory fs dir) : Present fs dir := by
  rcases root with top | known
  · exact Or.inl top
  · obtain ⟨root, stored, isPlace, _⟩ := known
    exact Or.inr ⟨root, stored, isPlace⟩

/-- No entry comes before one below it. -/
theorem pairwise_below_reverse (fs : FileSystem) (dir : Bytes) :
    (below fs dir).reverse.Pairwise fun first later =>
      ¬ first.location <+: later.location := by
  have sorted := List.pairwise_map.mp fs.sorted
  rw [List.pairwise_reverse]
  apply (sorted.sublist List.filter_sublist).imp
  intro entry other less above
  exact List.not_lt.mpr above.le less

/-! ### The places of a tree -/

/-- The places of the entries, and the place above all of them. -/
def DirectoryTree.places (tree : DirectoryTree) : Set Location :=
  {place | place = [] ∨ ∃ entry ∈ tree.entries.rows, entry.location = place}

theorem prefixClosed_places (tree : DirectoryTree) :
    PrefixClosed tree.places := by
  intro place member above inFront
  induction place using List.reverseRecOn generalizing above with
  | nil =>
      rw [List.prefix_nil.mp inFront]
      exact member
  | append_singleton place name inductionHypothesis =>
      rcases List.prefix_concat_iff.mp inFront with whole | inFront
      · rw [whole]
        exact member
      · apply inductionHypothesis _ above inFront
        rcases member with empty | stored
        · exact absurd empty (List.concat_ne_nil name place)
        · obtain ⟨entry, stored, isPlace⟩ := stored
          have parent := tree.parents entry stored
          rw [isPlace, List.dropLast_concat] at parent
          rcases parent with top | parent
          · exact Or.inl top
          · obtain ⟨parent, parentStored, parentPlace, _⟩ := parent
            exact Or.inr ⟨parent, parentStored, parentPlace⟩

end Bright.Rename
