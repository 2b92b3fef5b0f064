import Bright.Rename.Repair

/-!
# Calls that failed

`settledPlace` is where an entry belongs when all names are substituted, seen
from any place that it can have on the way there.  As long as siblings have
different new names and that of the directory is free, no turn, in whatever
order and whichever calls fail, changes the settled place of an entry or loses
one (`settles_callRename`).  So a second pass in which no call fails ends as if
none had failed in the first one.
-/

namespace Bright.Rename

open Bright.Lib

/-- The place where all is done, for an entry under either name of the
directory. -/
def settledPlace (dir : Bytes) (place : Location) : Location :=
  if (newPlace dir).isPrefixOf place then
    newPlace dir ++ (place.drop (newPlace dir).length).map substituted
  else
    finalPlace dir place

/-- The path with its last component renamed.  Behind a last slash there is none,
and the directory keeps its name as well. -/
def renamedPath (dir : Bytes) : Bytes :=
  dir.take (lastSlashEnd dir) ++ substituted (dir.drop (lastSlashEnd dir))

/-- What the turns for an entry below the directory and for the directory itself
move, and where. -/
def Beside (dir : Bytes) (old new : Location) : Prop :=
  (∃ names, names ≠ [] ∧ old = locate dir ++ names ∧ new = sibling old) ∨
    old = locate dir ∧ new = newPlace dir

variable {overFile : Bool} {order : ℕ → List (Bytes × Bytes)}
  {fails : ℕ → Bool} {turn : ℕ} {last dir restart : Bytes}
  {paths : List Bytes} {fs : FileSystem} {tree stopped : DirectoryTree}
  {entry other : Entry} {place old new names : Location}

/-! ### Settled places -/

theorem settledPlace_new (dir : Bytes) (names : Location) :
    settledPlace dir (newPlace dir ++ names) =
      newPlace dir ++ names.map substituted := by
  have below : (newPlace dir).isPrefixOf (newPlace dir ++ names) :=
    List.isPrefixOf_iff_prefix.mpr (List.prefix_append _ _)
  rw [settledPlace, if_pos below, List.drop_left]

theorem settledPlace_of_notBelow (notBelow : ¬ newPlace dir <+: place) :
    settledPlace dir place = finalPlace dir place :=
  if_neg fun below => notBelow (List.isPrefixOf_iff_prefix.mp below)

theorem settledPlace_old (dir : Bytes) (names : Location) :
    settledPlace dir (locate dir ++ names) =
      newPlace dir ++ names.map substituted := by
  by_cases below : newPlace dir <+: locate dir ++ names
  · have same : newPlace dir = locate dir :=
      (List.prefix_of_prefix_length_le below (List.prefix_append _ _)
        (length_newPlace dir).le).eq_of_length (length_newPlace dir)
    rw [← same, settledPlace_new]
  · rw [settledPlace_of_notBelow below, finalPlace_append]

/-- Under either name of the directory. -/
theorem settledPlace_root {root : Location}
    (isRoot : root = locate dir ∨ root = newPlace dir) (names : Location) :
    settledPlace dir (root ++ names) =
      newPlace dir ++ names.map substituted := by
  rcases isRoot with isOld | isNew
  · rw [isOld, settledPlace_old]
  · rw [isNew, settledPlace_new]

theorem map_substituted_sibling (names : Location) :
    (sibling names).map substituted = names.map substituted := by
  rcases List.eq_nil_or_concat names with empty | concat
  · rw [empty]
    rfl
  · obtain ⟨above, name, rfl⟩ := concat
    rw [List.concat_eq_append, sibling_concat, List.map_append, List.map_append,
      List.map_singleton, List.map_singleton, substituted_substituted]

/-- A move beside does not change where anything belongs. -/
theorem settledPlace_moved (beside : Beside dir old new) (place : Location) :
    settledPlace dir (moved old new place) = settledPlace dir place := by
  by_cases inFront : old <+: place
  · obtain ⟨rest, rfl⟩ := inFront
    rw [moved_append]
    rcases beside with isBelow | isRoot
    · obtain ⟨names, nonempty, rfl, rfl⟩ := isBelow
      rw [sibling_append _ nonempty, List.append_assoc, List.append_assoc,
        settledPlace_old, settledPlace_old, List.map_append, List.map_append,
        map_substituted_sibling]
    · obtain ⟨rfl, rfl⟩ := isRoot
      rw [settledPlace_new, settledPlace_old]
  · rw [moved_of_notBelow inFront]

theorem beside_cases (beside : Beside dir old new) :
    new = old ∨ ∃ above name, old = above ++ [name] ∧
      new = above ++ [substituted name] ∧ substituted name ≠ name := by
  have ofSibling : ∀ above name, old = above ++ [name] → new = sibling old →
      new = old ∨ ∃ above name, old = above ++ [name] ∧
        new = above ++ [substituted name] ∧ substituted name ≠ name := by
    intro above name isOld isNew
    by_cases same : substituted name = name
    · left
      rw [isNew, isOld, sibling_concat, same]
    · exact Or.inr ⟨above, name, isOld,
        by rw [isNew, isOld, sibling_concat], same⟩
  rcases beside with isBelow | isRoot
  · obtain ⟨names, nonempty, isOld, isNew⟩ := isBelow
    rcases List.eq_nil_or_concat names with empty | concat
    · exact absurd empty nonempty
    · obtain ⟨front, name, rfl⟩ := concat
      apply ofSibling (locate dir ++ front) name _ isNew
      rw [isOld, List.concat_eq_append, List.append_assoc]
  · obtain ⟨rfl, rfl⟩ := isRoot
    exact newPlace_cases dir

/-! ### Turns in any order -/

/-- Different entries belong to different places. -/
def Separate (dir : Bytes) (fs : FileSystem) : Prop :=
  (fs.rows.map fun entry => settledPlace dir entry.location).Nodup

/-- A tree of the same entries, each of which belongs where it did. -/
structure Settles (dir : Bytes) (tree : DirectoryTree) (fs : FileSystem) :
    Prop where
  isTree : ∃ stopped : DirectoryTree, stopped.entries = fs
  rows : (fs.rows.map (Entry.relocate (settledPlace dir))).Perm
    (tree.entries.rows.map (Entry.relocate (settledPlace dir)))

theorem Settles.separate (settles : Settles dir tree fs)
    (separate : Separate dir tree.entries) : Separate dir fs := by
  have places := settles.rows.map Entry.location
  rw [List.map_map, List.map_map] at places
  exact places.nodup_iff.mpr separate

theorem Separate.eq_of_place_eq (separate : Separate dir fs)
    (stored : entry ∈ fs.rows) (otherStored : other ∈ fs.rows)
    (same : settledPlace dir entry.location = settledPlace dir other.location) :
    entry = other :=
  List.inj_on_of_nodup_map separate stored otherStored same

theorem exists_source_of_osRename {after : FileSystem}
    (renamed : osRename overFile fs old new = some after) :
    ∃ source ∈ fs.rows, source.location = old ∧ new ≠ old := by
  rw [osRename] at renamed
  cases found : fs.find old with
  | none =>
      rw [found] at renamed
      cases renamed
  | some source =>
      obtain ⟨stored, isPlace⟩ := Table.find_eq_some_iff.mp found
      refine ⟨source, stored, isPlace, ?_⟩
      rintro rfl
      have below : new.isPrefixOf new :=
        List.isPrefixOf_iff_prefix.mpr (List.prefix_refl new)
      rw [found] at renamed
      dsimp only at renamed
      rw [if_pos below] at renamed
      cases renamed

/-- Nothing is at the new name of an entry, or below it. -/
theorem Separate.free (separate : Separate dir tree.entries)
    (beside : Beside dir old new) (stored : entry ∈ tree.entries.rows)
    (isPlace : entry.location = old) (different : new ≠ old)
    (otherStored : other ∈ tree.entries.rows) : ¬ new <+: other.location := by
  intro inFront
  rcases prefixClosed_places tree _ (Or.inr ⟨other, otherStored, rfl⟩) new
    inFront with top | known
  · rcases beside_cases beside with same | changed
    · exact different same
    · obtain ⟨above, name, _, isNew, _⟩ := changed
      rw [isNew] at top
      exact List.concat_ne_nil _ above top
  · obtain ⟨target, targetStored, targetPlace⟩ := known
    have moves := settledPlace_moved beside old
    have atNew : moved old new old = new := by
      have moved := moved_append old new []
      rw [List.append_nil, List.append_nil] at moved
      exact moved
    rw [atNew, ← targetPlace, ← isPlace] at moves
    have same := separate.eq_of_place_eq targetStored stored moves
    rw [same, isPlace] at targetPlace
    exact different targetPlace.symm

theorem settles_callRename {fail : Bool} (separate : Separate dir tree.entries)
    (settles : Settles dir tree fs) (beside : Beside dir old new) :
    Settles dir tree (callRename overFile fail fs old new) := by
  rw [callRename]
  split_ifs with failed
  · exact settles
  · cases renamed : osRename overFile fs old new with
    | none => exact settles
    | some after =>
        have stillSeparate := settles.separate separate
        obtain ⟨stopped, rfl⟩ := settles.isTree
        obtain ⟨source, stored, isPlace, different⟩ :=
          exists_source_of_osRename renamed
        rw [Option.getD_some, osRename_eq_some renamed]
        constructor
        · rcases beside_cases beside with same | changed
          · exact absurd same different
          · obtain ⟨above, name, isOld, isNew, changed⟩ := changed
            rw [isOld] at isPlace
            have proper : ProperName name := by
              apply stopped.proper source stored
              rw [isPlace]
              exact List.mem_append_right above List.mem_cons_self
            rw [isOld, isNew]
            exact ⟨stopped.moveBeside above name (substituted name)
              ⟨source, stored, isPlace⟩ (properName_substituted proper)
              changed, rfl⟩
        · have moves := rows_move_perm_of_free old fun other otherStored =>
            stillSeparate.free beside stored isPlace different otherStored
          have samePlaces : stopped.entries.rows.map (Entry.relocate
              fun place => settledPlace dir (moved old new place)) =
                stopped.entries.rows.map (Entry.relocate (settledPlace dir)) :=
            map_relocate_congr fun entry _ =>
              settledPlace_moved beside entry.location
          have settled := moves.map (Entry.relocate (settledPlace dir))
          rw [List.map_map] at settled
          exact (samePlaces ▸ settled).trans settles.rows

theorem settles_renameCalls (visits : ∀ turn, (order turn).Perm nameMap)
    (separate : Separate dir tree.entries)
    (beside : ∀ path ∈ paths, Beside dir (locate path) (newPlace path))
    (settles : Settles dir tree fs) :
    Settles dir tree
      (renameCalls overFile order fails turn last paths fs).2 := by
  induction paths generalizing turn last fs with
  | nil => exact settles
  | cons path paths inductionHypothesis =>
      obtain ⟨first, later⟩ := List.forall_mem_cons.mp beside
      rw [renameCalls]
      dsimp only
      rw [modifiedName_eq (visits turn)]
      split_ifs with changed
      · exact inductionHypothesis later
          (settles_callRename separate settles first)
      · exact inductionHypothesis later settles

theorem beside_of_mem_walk {path : Bytes}
    (member : path ∈ walk tree.entries dir) :
    Beside dir (locate path) (newPlace path) := by
  rcases List.mem_cons.mp member with isRoot | isBelow
  · rw [isRoot]
    exact Or.inr ⟨rfl, rfl⟩
  · obtain ⟨entry, entryBelow, rfl⟩ := List.mem_map.mp isBelow
    obtain ⟨stored, inFront, different⟩ := mem_below.mp entryBelow
    obtain ⟨isPlace, isNew⟩ := locate_path dir stored
    obtain ⟨names, isNames⟩ := inFront
    rw [isPlace, isNew]
    refine Or.inl ⟨names, ?_, isNames.symm, rfl⟩
    intro empty
    rw [empty, List.append_nil] at isNames
    exact different isNames.symm

/-! ### The tree at the start -/

theorem finalPlace_eq_settledPlace_start (free : RootFree tree.entries dir)
    (stored : entry ∈ tree.entries.rows) :
    finalPlace dir entry.location = settledPlace dir entry.location := by
  by_cases below : newPlace dir <+: entry.location
  · obtain ⟨names, isNames⟩ := below
    by_cases same : newPlace dir = locate dir
    · rw [← isNames, settledPlace_new, same, finalPlace_append, same]
    · have notBelow := newPlace_notInFront_of_free same (free.resolve_left same)
        stored
      exact absurd ⟨names, isNames⟩ notBelow
  · exact (settledPlace_of_notBelow below).symm

theorem settledRows_start (overFile : Bool)
    (visits : ∀ turn, (order turn).Perm nameMap)
    (root : Present tree.entries dir) (apart : SiblingsApart tree.entries dir)
    (free : RootFree tree.entries dir) :
    (modifyFileName overFile order (walk tree.entries dir)
        tree.entries).rows.Perm
      (tree.entries.rows.map (Entry.relocate (settledPlace dir))) := by
  have places : tree.entries.rows.map (Entry.relocate (finalPlace dir)) =
      tree.entries.rows.map (Entry.relocate (settledPlace dir)) :=
    map_relocate_congr fun entry stored =>
      finalPlace_eq_settledPlace_start free stored
  rw [← places]
  exact modifyFileName_perm overFile visits root apart free

theorem separate_start (root : Present tree.entries dir)
    (apart : SiblingsApart tree.entries dir)
    (free : RootFree tree.entries dir) : Separate dir tree.entries := by
  have inOrder : ∀ turn : ℕ, ((fun _ => nameMap) turn).Perm nameMap :=
    fun _ => List.Perm.refl nameMap
  have places := (settledRows_start false inOrder root apart free).map
    Entry.location
  rw [List.map_map] at places
  exact places.nodup_iff.mp (Table.keys_nodup _)

/-! ### The tree at the restart -/

section Restart

variable (separate : Separate dir stopped.entries)
  (isRoot : locate restart = locate dir ∨ locate restart = newPlace dir)
  (sameNew : newPlace restart = newPlace dir)
  (present : Present stopped.entries restart)

include separate isRoot present in
/-- Only one of the names of the directory is taken. -/
theorem root_unique {root : Location} (stored : entry ∈ stopped.entries.rows)
    (isName : root = locate dir ∨ root = newPlace dir)
    (inFront : root <+: entry.location) : root = locate restart := by
  have sameLength : root.length = (locate restart).length := by
    have lengths := length_newPlace dir
    rcases isName with isOld | isNew
    · rcases isRoot with restartOld | restartNew
      · rw [isOld, restartOld]
      · rw [isOld, restartNew, lengths]
    · rcases isRoot with restartOld | restartNew
      · rw [isNew, restartOld, lengths]
      · rw [isNew, restartNew]
  rcases prefixClosed_places stopped _ (Or.inr ⟨entry, stored, rfl⟩) root
    inFront with top | known
  · rw [top, List.length_nil] at sameLength
    rw [top, List.length_eq_zero_iff.mp sameLength.symm]
  · obtain ⟨target, targetStored, targetPlace⟩ := known
    rcases present with top | known
    · rw [top, List.length_nil] at sameLength
      rw [top, List.length_eq_zero_iff.mp sameLength]
    · obtain ⟨rootEntry, rootStored, rootPlace⟩ := known
      have targetSettles := settledPlace_root isName []
      have rootSettles := settledPlace_root isRoot []
      rw [List.append_nil] at targetSettles rootSettles
      have same := separate.eq_of_place_eq targetStored rootStored
        (by rw [targetPlace, rootPlace, targetSettles, rootSettles])
      rw [← targetPlace, same, rootPlace]

include separate isRoot sameNew present

theorem finalPlace_eq_settledPlace (stored : entry ∈ stopped.entries.rows) :
    finalPlace restart entry.location = settledPlace dir entry.location := by
  by_cases below : locate restart <+: entry.location
  · obtain ⟨names, isNames⟩ := below
    rw [← isNames, finalPlace_append, settledPlace_root isRoot, sameNew]
  · have notOld : ¬ locate dir <+: entry.location := by
      intro inFront
      exact below (root_unique separate isRoot present stored (Or.inl rfl)
        inFront ▸ inFront)
    have notNew : ¬ newPlace dir <+: entry.location := by
      intro inFront
      exact below (root_unique separate isRoot present stored (Or.inr rfl)
        inFront ▸ inFront)
    rw [finalPlace_of_outside below, settledPlace_of_notBelow notNew,
      finalPlace_of_outside notOld]

theorem rootFree_restart : RootFree stopped.entries restart := by
  rw [RootFree, sameNew]
  by_cases taken : ∃ target ∈ stopped.entries.rows,
      target.location = newPlace dir
  · obtain ⟨target, stored, isPlace⟩ := taken
    left
    exact root_unique separate isRoot present stored (Or.inr rfl)
      (isPlace ▸ List.prefix_refl _)
  · right
    apply Table.find_eq_none_iff.mpr
    intro row stored isPlace
    exact taken ⟨row, stored, isPlace⟩

omit sameNew present in
theorem siblingsApart_restart : SiblingsApart stopped.entries restart := by
  intro above name other inFront named otherNamed same
  obtain ⟨entry, stored, isPlace⟩ := named
  obtain ⟨otherEntry, otherStored, otherPlace⟩ := otherNamed
  obtain ⟨names, rfl⟩ := inFront
  have samePlace : settledPlace dir entry.location =
      settledPlace dir otherEntry.location := by
    rw [isPlace, otherPlace, List.append_assoc, List.append_assoc,
      settledPlace_root isRoot, settledPlace_root isRoot, List.map_append,
      List.map_append, List.map_singleton, List.map_singleton, same]
  have sameEntry := separate.eq_of_place_eq stored otherStored samePlace
  rw [sameEntry, otherPlace] at isPlace
  exact (List.append_singleton_inj.mp isPlace).2.symm

theorem settledRows_restart (overFile : Bool)
    (visits : ∀ turn, (order turn).Perm nameMap) :
    (modifyFileName overFile order (walk stopped.entries restart)
        stopped.entries).rows.Perm
      (stopped.entries.rows.map (Entry.relocate (settledPlace dir))) := by
  have places : stopped.entries.rows.map
      (Entry.relocate (finalPlace restart)) =
        stopped.entries.rows.map (Entry.relocate (settledPlace dir)) :=
    map_relocate_congr fun entry stored =>
      finalPlace_eq_settledPlace separate isRoot sameNew present stored
  rw [← places]
  exact modifyFileName_perm overFile visits present
    (siblingsApart_restart separate isRoot)
    (rootFree_restart separate isRoot sameNew present)

end Restart

/-! ### The second pass -/

theorem locate_renamedPath (dir : Bytes) :
    locate (renamedPath dir) = newPlace dir := rfl

theorem newPlace_renamedPath (dir : Bytes) :
    newPlace (renamedPath dir) = newPlace dir := by
  obtain ⟨front, name, rfl, isFront, noSlash⟩ := exists_front dir
  have isPath : renamedPath (front ++ name) = front ++ substituted name := by
    rw [renamedPath, lastSlashEnd_append isFront noSlash, List.take_left,
      List.drop_left]
  rw [isPath, newPlace_append isFront (slash_notMem_substituted noSlash),
    newPlace_append isFront noSlash, substituted_substituted]

/-- The directory is still there, under one of its names. -/
theorem exists_present (settles : Settles dir tree stopped.entries)
    (root : Present tree.entries dir) :
    ∃ restart ∈ [dir, renamedPath dir], Present stopped.entries restart := by
  rcases root with top | known
  · exact ⟨dir, List.mem_cons_self, Or.inl top⟩
  · obtain ⟨root, rootStored, rootPlace⟩ := known
    have belongs := List.mem_map_of_mem
      (f := Entry.relocate (settledPlace dir)) rootStored
    obtain ⟨entry, stored, sameEntry⟩ :=
      List.mem_map.mp (settles.rows.mem_iff.mpr belongs)
    have rootSettles := settledPlace_old dir []
    rw [List.append_nil, List.map_nil, List.append_nil] at rootSettles
    have samePlace : settledPlace dir entry.location = newPlace dir := by
      have places := congrArg Entry.location sameEntry
      rw [Entry.relocate, Entry.relocate, rootPlace, rootSettles] at places
      exact places
    have noNames : ∀ {names : Location},
        newPlace dir ++ names.map substituted = newPlace dir → names = [] := by
      intro names same
      exact List.map_eq_nil_iff.mp (List.append_right_eq_self.mp same)
    by_cases below : newPlace dir <+: entry.location
    · obtain ⟨names, isNames⟩ := below
      rw [← isNames, settledPlace_new] at samePlace
      rw [noNames samePlace, List.append_nil] at isNames
      exact ⟨renamedPath dir, List.mem_cons_of_mem _ List.mem_cons_self,
        Or.inr ⟨entry, stored, isNames.symm⟩⟩
    · rw [settledPlace_of_notBelow below] at samePlace
      by_cases old : locate dir <+: entry.location
      · obtain ⟨names, isNames⟩ := old
        rw [← isNames, finalPlace_append] at samePlace
        rw [noNames samePlace, List.append_nil] at isNames
        exact ⟨dir, List.mem_cons_self, Or.inr ⟨entry, stored, isNames.symm⟩⟩
      · rw [finalPlace_of_outside old] at samePlace
        exact absurd (samePlace ▸ List.prefix_refl _) below

/-- A names pass in which any calls may have failed, and that was stopped
anywhere, leaves a tree with the directory under one of its names, and from
there a pass in which no call fails ends as one such pass over the first tree,
where no two entries get the same place: for all orders that Go picks, whether
or not a directory can replace a file.  In particular a second pass over a
finished tree changes nothing.

The path of the second pass is that of the first one, or that one with its last
component renamed; after `eoslib/` a pass over `eoslib` is another matter, as it
renames the directory itself. -/
theorem names_pass_repairs (overFile : Bool)
    (order again : ℕ → List (Bytes × Bytes))
    (visits : ∀ turn, (order turn).Perm nameMap)
    (visitsAgain : ∀ turn, (again turn).Perm nameMap) (fails : ℕ → Bool)
    (tree : DirectoryTree) (dir : Bytes) (root : Present tree.entries dir)
    (apart : SiblingsApart tree.entries dir) (free : RootFree tree.entries dir)
    (turns : ℕ) :
    ∃ stopped : DirectoryTree,
      stopped.entries = (renameCalls overFile order fails 0 []
        ((walk tree.entries dir).reverse.take turns) tree.entries).2 ∧
      (∃ restart ∈ [dir, renamedPath dir], Present stopped.entries restart) ∧
      ∀ restart ∈ [dir, renamedPath dir], Present stopped.entries restart →
        modifyFileName overFile again (walk stopped.entries restart)
            stopped.entries =
          modifyFileName overFile order (walk tree.entries dir)
            tree.entries := by
  have separate := separate_start root apart free
  have start : Settles dir tree tree.entries := ⟨⟨tree, rfl⟩, List.Perm.refl _⟩
  have beside : ∀ path ∈ (walk tree.entries dir).reverse.take turns,
      Beside dir (locate path) (newPlace path) := by
    intro path member
    exact beside_of_mem_walk (List.mem_reverse.mp (List.mem_of_mem_take member))
  have settles : Settles dir tree (renameCalls overFile order fails 0 []
      ((walk tree.entries dir).reverse.take turns) tree.entries).2 :=
    settles_renameCalls visits separate beside start
  obtain ⟨stopped, isStopped⟩ := settles.isTree
  rw [← isStopped] at settles
  refine ⟨stopped, isStopped, exists_present settles root, ?_⟩
  intro restart isRestart present
  have known : (locate restart = locate dir ∨
      locate restart = newPlace dir) ∧ newPlace restart = newPlace dir := by
    rcases List.mem_cons.mp isRestart with isDir | isRenamed
    · rw [isDir]
      exact ⟨Or.inl rfl, rfl⟩
    · rw [List.mem_singleton.mp isRenamed]
      exact ⟨Or.inr (locate_renamedPath dir), newPlace_renamedPath dir⟩
  have second := settledRows_restart (settles.separate separate) known.1 known.2
    present overFile visitsAgain
  have first := settledRows_start overFile visits root apart free
  exact Table.eq_of_rows_perm
    ((second.trans settles.rows).trans first.symm)

/-- In `eoslib` the first call fails and the pass is stopped before the turn of
the directory. -/
theorem names_pass_repairs_eoslib :
    ∃ stopped : DirectoryTree,
      stopped.entries = (renameCalls false (fun _ => nameMap)
        (fun turn => turn == 0) 0 []
        ((walk eoslib.entries "eoslib".toUTF8.toList).reverse.take 3)
        eoslib.entries).2 ∧
      (∃ restart ∈ ["eoslib".toUTF8.toList,
          renamedPath "eoslib".toUTF8.toList],
        Present stopped.entries restart) ∧
      ∀ restart ∈ ["eoslib".toUTF8.toList, renamedPath "eoslib".toUTF8.toList],
        Present stopped.entries restart →
          modifyFileName false (fun _ => nameMap)
              (walk stopped.entries restart) stopped.entries =
            modifyFileName false (fun _ => nameMap)
              (walk eoslib.entries "eoslib".toUTF8.toList) eoslib.entries :=
  names_pass_repairs false (fun _ => nameMap) (fun _ => nameMap)
    (fun _ => List.Perm.refl nameMap) (fun _ => List.Perm.refl nameMap)
    (fun turn => turn == 0) eoslib "eoslib".toUTF8.toList (by decide +kernel)
    (siblingsApart_of_entries (by decide +kernel)) (by decide +kernel) 3

end Bright.Rename
