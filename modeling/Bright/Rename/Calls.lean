import Bright.Rename.Preservation

/-!
# The calls of `os.Rename`

The paths are collected before the first call, and every call changes the tree
that they were collected in.  A new name is greater than the old one in byte
order, so a call changes places only that come after its path in the order of
the walk.  The loop runs backwards, so whatever is left to do is still where
the walk found it (`renameCalls_agree`), whichever calls fail and whatever a
call has replaced.
-/

namespace Bright.Rename

open Bright.Lib

/-- A call of `os.Rename` in the loop of `modifyFileName`, with the file system
that it finds and the paths that are left, its own included. -/
structure RenameCall where
  before : FileSystem
  path : Bytes
  newPath : Bytes
  waiting : List Bytes
  deriving DecidableEq

/-- What a call leaves behind; `fails` is an error that has nothing to do with
the two paths. -/
def callRename (overFile fails : Bool) (fs : FileSystem) (old new : Location) :
    FileSystem :=
  if fails then fs else (osRename overFile fs old new).getD fs

/-- The loop of `modifyFileName` with its calls, those in the turns `fails`
failing. -/
def renameCalls (overFile : Bool) (order : ℕ → List (Bytes × Bytes))
    (fails : ℕ → Bool) :
    ℕ → Bytes → List Bytes → FileSystem → List RenameCall × FileSystem
  | _, _, [], fs => ([], fs)
  | turn, last, path :: rest, fs =>
      let pos := lastSlashEnd path
      let oldName := path.drop pos
      let newName := modifiedName (order turn) last oldName
      if newName ≠ oldName then
        let newPath := path.take pos ++ newName
        let after := callRename overFile (fails turn) fs (locate path)
          (locate newPath)
        let later := renameCalls overFile order fails (turn + 1) newName rest
          after
        (⟨fs, path, newPath, path :: rest⟩ :: later.1, later.2)
      else
        renameCalls overFile order fails (turn + 1) newName rest fs

variable {overFile : Bool} {order : ℕ → List (Bytes × Bytes)}
  {fails : ℕ → Bool} {turn : ℕ} {last path dir : Bytes} {paths : List Bytes}
  {fs original : FileSystem} {tree : DirectoryTree} {entry : Entry}
  {place : Location} {call : RenameCall}

/-- Where no call fails for another reason, this is the loop of the tool. -/
theorem renameCalls_eq_renameLoop (turn : ℕ) (last : Bytes) :
    (renameCalls overFile order (fun _ => false) turn last paths fs).2 =
      renameLoop overFile order turn last paths fs := by
  induction paths generalizing turn last fs with
  | nil => rfl
  | cons path rest inductionHypothesis =>
      rw [renameCalls, renameLoop]
      dsimp only
      rw [renamePath]
      dsimp only
      split_ifs with changed
      · rw [inductionHypothesis]
        rfl
      · rw [inductionHypothesis]

/-! ### One call -/

/-- A new place comes after the old one. -/
theorem locate_le_newPlace (path : Bytes) : locate path ≤ newPlace path := by
  rcases newPlace_cases path with same | changed
  · exact same.ge
  · obtain ⟨above, name, old, new, changed⟩ := changed
    rw [old, new]
    exact (concat_lt_concat above (lt_substituted changed)).le

/-- A call is not seen at the places before its path. -/
theorem find_callRename (earlier : place < locate path) :
    (callRename overFile (fails turn) fs (locate path) (newPlace path)).find
      place = fs.find place := by
  rw [callRename]
  split_ifs with error
  · rfl
  · cases renamed : osRename overFile fs (locate path) (newPlace path) with
    | none => rfl
    | some after =>
        rw [Option.getD_some, osRename_eq_some renamed]
        apply find_move_of_notBelow
        · intro below
          exact not_lt_of_inFront below
            (earlier.trans_le (locate_le_newPlace path))
        · intro below
          exact not_lt_of_inFront below earlier

/-! ### The loop -/

/-- The new path names the place with the last name substituted, beside the old
one. -/
structure Sideways (call : RenameCall) : Prop where
  newPlace_eq : locate call.newPath = newPlace call.path
  changed : newPlace call.path ≠ locate call.path
  sameDirectory : call.newPath.take (lastSlashEnd call.newPath) =
    call.path.take (lastSlashEnd call.path)

/-- At the paths that are left, the call finds what there was, and at all the
places before them. -/
def Agrees (original : FileSystem) (paths : List Bytes) (fs : FileSystem) :
    Prop :=
  ∀ path ∈ paths, ∀ place ≤ locate path, fs.find place = original.find place

theorem slash_notMem_substituted {name : Bytes} (noSlash : slash ∉ name) :
    slash ∉ substituted name := by
  have same : slash ∈ substituted name ↔ slash ∈ name :=
    mem_rewrite_iff (by decide) (by decide)
  exact fun member => noSlash (same.mp member)

theorem sideways_of_changed (waiting : List Bytes)
    (changed : substituted (path.drop (lastSlashEnd path)) ≠
      path.drop (lastSlashEnd path)) :
    Sideways ⟨fs, path, path.take (lastSlashEnd path) ++
      substituted (path.drop (lastSlashEnd path)), waiting⟩ := by
  refine ⟨rfl, fun same => changed (newPlace_eq_iff.mp same), ?_⟩
  obtain ⟨front, name, rfl, isFront, noSlash⟩ := exists_front path
  dsimp only
  rw [lastSlashEnd_append isFront noSlash, List.take_left, List.drop_left,
    lastSlashEnd_append isFront (slash_notMem_substituted noSlash),
    List.take_left]

/-- The loop over paths in the reverse order of a walk. -/
theorem renameCalls_agree (visits : ∀ turn, (order turn).Perm nameMap)
    (backwards : paths.Pairwise fun first later =>
      locate later < locate first)
    (agrees : Agrees original paths fs) :
    ∀ call ∈ (renameCalls overFile order fails turn last paths fs).1,
      Sideways call ∧ call.path ∈ call.waiting ∧
        (∀ path ∈ call.waiting, path ∈ paths) ∧
        Agrees original call.waiting call.before := by
  induction paths generalizing turn last fs with
  | nil =>
      intro call member
      cases member
  | cons path rest inductionHypothesis =>
      obtain ⟨first, later⟩ := List.pairwise_cons.mp backwards
      have restAgrees : Agrees original rest fs := fun path member =>
        agrees path (List.mem_cons_of_mem _ member)
      rw [renameCalls]
      dsimp only
      rw [modifiedName_eq (visits turn)]
      intro call member
      split_ifs at member with changed
      · rcases List.mem_cons.mp member with now | next
        · rw [now]
          exact ⟨sideways_of_changed _ changed, List.mem_cons_self,
            fun _ waiting => waiting, agrees⟩
        · -- The turn of `path` is not seen at the paths before it.
          have stillAgrees : Agrees original rest
              (callRename overFile (fails turn) fs (locate path)
                (newPlace path)) := by
            intro other otherMember place inFront
            rw [find_callRename (inFront.trans_lt (first other otherMember))]
            exact restAgrees other otherMember place inFront
          obtain ⟨sideways, own, inRest, agree⟩ :=
            inductionHypothesis later stillAgrees call next
          exact ⟨sideways, own,
            fun path waiting => List.mem_cons_of_mem _ (inRest path waiting),
            agree⟩
      · obtain ⟨sideways, own, inRest, agree⟩ :=
          inductionHypothesis later restAgrees call member
        exact ⟨sideways, own,
          fun path waiting => List.mem_cons_of_mem _ (inRest path waiting),
          agree⟩

/-! ### The walk -/

theorem pairwise_walk_reverse (tree : DirectoryTree) (dir : Bytes) :
    (walk tree.entries dir).reverse.Pairwise fun first later =>
      locate later < locate first := by
  have sorted : (below tree.entries dir).Pairwise fun first later =>
      first.location < later.location :=
    (List.pairwise_map.mp tree.entries.sorted).sublist List.filter_sublist
  rw [List.pairwise_reverse, walk, List.pairwise_cons, List.pairwise_map]
  constructor
  · intro path member
    obtain ⟨entry, isBelow, rfl⟩ := List.mem_map.mp member
    obtain ⟨stored, inFront, different⟩ := mem_below.mp isBelow
    rw [(locate_path dir stored).1]
    exact lt_of_prefix_of_ne inFront different.symm
  · refine sorted.imp_of_mem ?_
    intro entry other member otherMember less
    rw [(locate_path dir (mem_below.mp member).1).1,
      (locate_path dir (mem_below.mp otherMember).1).1]
    exact less

theorem exists_entry_of_mem_walk (root : RootDirectory tree.entries dir)
    (member : path ∈ walk tree.entries dir) :
    locate path = [] ∨
      ∃ entry ∈ tree.entries.rows, entry.location = locate path := by
  rcases List.mem_cons.mp member with isRoot | isBelow
  · rw [isRoot]
    exact root.present
  · obtain ⟨entry, entryBelow, rfl⟩ := List.mem_map.mp isBelow
    have stored := (mem_below.mp entryBelow).1
    exact Or.inr ⟨entry, stored, (locate_path dir stored).1.symm⟩

/-- What holds when a call is made: its path names the entry that the walk found
there, the directory of the new path exists, and so do all the entries that
are left, each at its own path. -/
structure InPlace (tree : DirectoryTree) (call : RenameCall) : Prop where
  named : ∃ entry, tree.entries.find (locate call.path) = some entry ∧
    call.before.find (locate call.path) = some entry
  directory :
    locate (call.newPath.take (lastSlashEnd call.newPath)) = [] ∨
      ∃ parent, call.before.find
          (locate (call.newPath.take (lastSlashEnd call.newPath))) =
            some parent ∧
        parent.node = .directory
  waiting : ∀ path ∈ call.waiting,
    call.before.find (locate path) = tree.entries.find (locate path)

/-- The front of a path whose name changes is the directory of its entry. -/
theorem locate_front (changed : newPlace path ≠ locate path) :
    locate (path.take (lastSlashEnd path)) = (locate path).dropLast := by
  have changedName := mt newPlace_eq_iff.mpr changed
  obtain ⟨front, name, rfl, isFront, noSlash⟩ := exists_front path
  rw [lastSlashEnd_append isFront noSlash, List.drop_left] at changedName
  have proper := properName_of_changed noSlash changedName
  rw [lastSlashEnd_append isFront noSlash, List.take_left,
    locate_append isFront, locate_of_properName proper, List.dropLast_concat]

theorem inPlace_of_agrees (sideways : Sideways call)
    (own : call.path ∈ call.waiting)
    (agrees : Agrees tree.entries call.waiting call.before)
    (stored : entry ∈ tree.entries.rows)
    (isPlace : entry.location = locate call.path) : InPlace tree call := by
  have found := Table.find_of_mem stored
  rw [isPlace] at found
  refine ⟨⟨entry, found, ?_⟩, ?_, ?_⟩
  · rw [agrees call.path own (locate call.path) le_rfl, found]
  · rw [sideways.sameDirectory, locate_front sideways.changed, ← isPlace]
    rcases tree.parents entry stored with top | known
    · exact Or.inl top
    · obtain ⟨parent, parentStored, parentPlace, isDirectory⟩ := known
      have before : entry.location.dropLast ≤ locate call.path := by
        rw [← isPlace]
        exact not_lt.mp (not_lt_of_inFront (List.dropLast_prefix _))
      refine Or.inr ⟨parent, ?_, isDirectory⟩
      rw [agrees call.path own _ before, ← parentPlace]
      exact Table.find_of_mem parentStored
  · intro path member
    exact agrees path member (locate path) le_rfl

/-- On every tree, for all orders that Go picks and whichever calls fail, every
call of `os.Rename` finds its entry where the walk saw it, the directory of the
new path still there, and nothing moved onto a path that is left. -/
theorem renameCalls_inPlace (overFile : Bool)
    (order : ℕ → List (Bytes × Bytes))
    (visits : ∀ turn, (order turn).Perm nameMap) (fails : ℕ → Bool)
    (tree : DirectoryTree) (dir : Bytes)
    (root : RootDirectory tree.entries dir) :
    ∀ call ∈ (renameCalls overFile order fails 0 []
        (walk tree.entries dir).reverse tree.entries).1,
      InPlace tree call := by
  intro call member
  obtain ⟨sideways, own, inWalk, agrees⟩ := renameCalls_agree visits
    (pairwise_walk_reverse tree dir) (fun _ _ _ _ => rfl) call member
  rcases exists_entry_of_mem_walk root
    (List.mem_reverse.mp (inWalk call.path own)) with top | known
  · -- The top of the file system has no name that could change.
    rcases newPlace_cases call.path with same | changed
    · exact absurd same sideways.changed
    · obtain ⟨above, name, place, _⟩ := changed
      rw [top] at place
      exact absurd place.symm (List.concat_ne_nil name above)
  · obtain ⟨entry, stored, isPlace⟩ := known
    exact inPlace_of_agrees sideways own agrees stored isPlace

/-- In `collision` the call for `eos` replaces `uos`, which is done by then. -/
theorem renameCalls_inPlace_collision :
    InPlace collision ⟨collision.entries, "d/eos".toUTF8.toList,
      "d/uos".toUTF8.toList, ["d/eos".toUTF8.toList, "d".toUTF8.toList]⟩ :=
  renameCalls_inPlace false (fun _ => nameMap)
    (fun _ => List.Perm.refl nameMap) (fun turn => turn == 2) collision
    "d".toUTF8.toList (by decide +kernel) _ (by decide +kernel)

end Bright.Rename
