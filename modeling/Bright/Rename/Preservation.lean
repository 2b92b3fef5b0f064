import Bright.Rename.Relabelled

/-!
# What the renaming preserves

The tool moves every entry of the tree to its substituted place, and loses none,
exactly if no two entries of a directory have the same substituted name, the
new name of the directory itself is not taken, and the path of the directory
shows the name that it has to give up.  Otherwise one file replaces another, or
an entry stays behind under its old name.
-/

namespace Bright.Rename

open Bright.Lib

/-- Different entries of a directory of the tree have different new names. -/
def SiblingsApart (fs : FileSystem) (dir : Bytes) : Prop :=
  ∀ above name other, locate dir <+: above →
    (∃ entry ∈ fs.rows, entry.location = above ++ [name]) →
    (∃ entry ∈ fs.rows, entry.location = above ++ [other]) →
      substituted name = substituted other → name = other

/-- The directory keeps its name, or its new name is not taken. -/
def RootFree (fs : FileSystem) (dir : Bytes) : Prop :=
  newPlace dir = locate dir ∨ fs.find (newPlace dir) = none

/-- The name of the directory is not changed, or the path ends in it; behind a
last slash the loop sees no name, or only a dot. -/
def RootNamed (dir : Bytes) : Prop :=
  sibling (locate dir) = locate dir ∨
    (locate dir).getLast? = some (dir.drop (lastSlashEnd dir))

instance decidableRootFree (fs : FileSystem) (dir : Bytes) :
    Decidable (RootFree fs dir) :=
  inferInstanceAs (Decidable (_ ∨ _))

instance decidableRootNamed (dir : Bytes) : Decidable (RootNamed dir) :=
  inferInstanceAs (Decidable (_ ∨ _))

/-- Every entry of the tree is at its substituted place, the name of the
directory itself included, and there are as many entries as before. -/
structure LosesNothing (dir : Bytes) (before after : FileSystem) : Prop where
  kept : ∀ entry ∈ before.rows, ∀ names,
    entry.location = locate dir ++ names →
      { entry with
        location := sibling (locate dir) ++ names.map substituted } ∈ after.rows
  count : after.rows.length = before.rows.length

variable {overFile : Bool} {order : ℕ → List (Bytes × Bytes)} {dir : Bytes}
  {fs : FileSystem} {tree : DirectoryTree} {entry : Entry}
  {place old new : Location}

/-- The file system when only the turn of the directory itself is left. -/
def belowRenamed (overFile : Bool) (fs : FileSystem) (dir : Bytes) : FileSystem :=
  (below fs dir).reverse.foldl
    (fun fs entry =>
      renameTo overFile fs entry.location (sibling entry.location)) fs

/-- The substituted place of an entry. -/
def finalPlace (dir : Bytes) (place : Location) : Location :=
  if (locate dir).isPrefixOf place then
    newPlace dir ++ (place.drop (locate dir).length).map substituted
  else
    place

theorem finalPlace_append (dir : Bytes) (names : List Bytes) :
    finalPlace dir (locate dir ++ names) =
      newPlace dir ++ names.map substituted := by
  have under : (locate dir).isPrefixOf (locate dir ++ names) :=
    List.isPrefixOf_iff_prefix.mpr (List.prefix_append _ _)
  rw [finalPlace, if_pos under, List.drop_left]

theorem finalPlace_of_outside (outside : ¬ locate dir <+: place) :
    finalPlace dir place = place :=
  if_neg fun under => outside (List.isPrefixOf_iff_prefix.mp under)

theorem mem_below :
    entry ∈ below fs dir ↔ entry ∈ fs.rows ∧ locate dir <+: entry.location ∧
      entry.location ≠ locate dir := by
  rw [below, List.mem_filter, decide_eq_true_eq, List.isPrefixOf_iff_prefix]

/-! ### The entries below the directory -/

theorem exists_entry_of_mem_places {above : Location} {name : Bytes}
    (member : above ++ [name] ∈ tree.places) :
    ∃ entry ∈ tree.entries.rows, entry.location = above ++ [name] := by
  rcases member with empty | stored
  · exact absurd empty (List.concat_ne_nil name above)
  · exact stored

theorem prefix_above_of_mem_below {above : Location} {name : Bytes}
    (isBelow : above ++ [name] ∈ (below fs dir).map Entry.location) :
    locate dir <+: above := by
  obtain ⟨entry, member, isPlace⟩ := List.mem_map.mp isBelow
  obtain ⟨_, inFront, different⟩ := mem_below.mp member
  rw [isPlace] at inFront different
  rcases List.prefix_concat_iff.mp inFront with same | inFront
  · exact absurd same.symm different
  · exact inFront

theorem separates_below (apart : SiblingsApart tree.entries dir) :
    Separates substituted ((below tree.entries dir).map Entry.location)
      tree.places := by
  intro above name other member otherMember eitherDone same
  have inTree : locate dir <+: above := by
    rcases eitherDone with isBelow | isBelow
    · exact prefix_above_of_mem_below isBelow
    · exact prefix_above_of_mem_below isBelow
  exact apart above name other inTree (exists_entry_of_mem_places member)
    (exists_entry_of_mem_places otherMember) same

theorem relabelled_belowRenamed (overFile : Bool)
    (apart : SiblingsApart tree.entries dir) :
    Relabelled tree ((below tree.entries dir).map Entry.location)
      (belowRenamed overFile tree.entries dir) := by
  have start : Relabelled tree [] tree.entries := by
    rw [Relabelled, map_relocate_id]
    intro entry _
    exact relabel_of_clear fun _ _ => List.not_mem_nil
  have todo : (((below tree.entries dir).reverse.map Entry.location).reverse ++
      []) = (below tree.entries dir).map Entry.location := by
    rw [List.append_nil, List.map_reverse, List.reverse_reverse]
  have ran := relabelled_foldl overFile (below tree.entries dir).reverse start
    (fun entry member => (mem_below.mp (List.mem_reverse.mp member)).1)
    (pairwise_below_reverse tree.entries dir)
    (todo.symm ▸ separates_below apart)
    (fun _ _ _ _ => List.not_mem_nil)
  rw [todo] at ran
  exact ran

theorem notMem_below_of_above {above : Location} (inFront : above <+: locate dir) :
    above ∉ (below fs dir).map Entry.location := by
  intro isBelow
  obtain ⟨entry, member, rfl⟩ := List.mem_map.mp isBelow
  obtain ⟨_, isUnder, different⟩ := mem_below.mp member
  exact different (inFront.eq_of_length_le isUnder.length_le)

/-- Below the directory all names are substituted, and no others. -/
theorem relabel_below_names {names : List Bytes}
    (member : locate dir ++ names ∈ tree.places) :
    relabel substituted ((below tree.entries dir).map Entry.location)
        (locate dir ++ names) =
      locate dir ++ names.map substituted := by
  apply relabel_below
  · exact fun above inFront => notMem_below_of_above inFront
  · intro part nonempty inFront
    have inTree := prefixClosed_places tree _ member (locate dir ++ part)
      ((List.prefix_append_right_inj (locate dir)).mpr inFront)
    rcases inTree with empty | stored
    · exact absurd (List.append_eq_nil_iff.mp empty).2 nonempty
    · obtain ⟨entry, stored, isPlace⟩ := stored
      rw [← isPlace]
      apply List.mem_map_of_mem
      apply mem_below.mpr
      rw [isPlace]
      refine ⟨stored, List.prefix_append _ _, fun same => nonempty ?_⟩
      exact List.append_right_eq_self.mp same

theorem relabel_below_of_outside (outside : ¬ locate dir <+: place) :
    relabel substituted ((below tree.entries dir).map Entry.location) place =
      place := by
  apply relabel_of_clear
  intro above inFront isBelow
  obtain ⟨entry, member, rfl⟩ := List.mem_map.mp isBelow
  exact outside ((mem_below.mp member).2.1.trans inFront)

/-! ### The directory itself -/

/-- The directory keeps its place, or gets a new name in the same directory. -/
theorem newPlace_cases (dir : Bytes) :
    newPlace dir = locate dir ∨
      ∃ above name, locate dir = above ++ [name] ∧
        newPlace dir = above ++ [substituted name] ∧ substituted name ≠ name := by
  by_cases same : newPlace dir = locate dir
  · exact Or.inl same
  · have changed := mt newPlace_eq_iff.mpr same
    obtain ⟨front, name, rfl, isFront, noSlash⟩ := exists_front dir
    rw [lastSlashEnd_append isFront noSlash, List.drop_left] at changed
    have proper := properName_of_changed noSlash changed
    refine Or.inr ⟨locate front, name, ?_, ?_, changed⟩
    · rw [locate_append isFront, locate_of_properName proper]
    · rw [newPlace_append isFront noSlash,
        locate_of_properName (properName_substituted proper)]

theorem length_sibling (place : Location) :
    (sibling place).length = place.length := by
  rcases List.eq_nil_or_concat place with empty | concat
  · rw [empty]
    rfl
  · obtain ⟨above, name, rfl⟩ := concat
    rw [List.concat_eq_append, sibling_concat, List.length_append,
      List.length_append]
    rfl

theorem newPlace_eq_sibling (different : newPlace dir ≠ locate dir) :
    newPlace dir = sibling (locate dir) := by
  obtain ⟨above, name, old, new, _⟩ := (newPlace_cases dir).resolve_left different
  rw [new, old, sibling_concat]

/-- The turn of the directory substitutes its name exactly if the path shows
it. -/
theorem newPlace_eq_sibling_iff :
    newPlace dir = sibling (locate dir) ↔ RootNamed dir := by
  by_cases same : newPlace dir = locate dir
  · constructor
    · intro isSibling
      exact Or.inl (isSibling.symm.trans same)
    · intro named
      rcases named with kept | shown
      · exact same.trans kept.symm
      · -- The name that the path shows is not changed.
        obtain ⟨above, isPlace⟩ := List.getLast?_eq_some_iff.mp shown
        rw [same, isPlace, sibling_concat, newPlace_eq_iff.mp same]
  · refine iff_of_true (newPlace_eq_sibling same) (Or.inr ?_)
    have changed := mt newPlace_eq_iff.mpr same
    obtain ⟨front, name, rfl, isFront, noSlash⟩ := exists_front dir
    rw [lastSlashEnd_append isFront noSlash, List.drop_left] at changed ⊢
    rw [locate_append isFront,
      locate_of_properName (properName_of_changed noSlash changed),
      List.getLast?_concat]

theorem moved_relabel_eq_finalPlace (member : place ∈ tree.places) :
    moved (locate dir) (newPlace dir)
        (relabel substituted ((below tree.entries dir).map Entry.location)
          place) =
      finalPlace dir place := by
  by_cases inFront : locate dir <+: place
  · obtain ⟨names, rfl⟩ := inFront
    have isUnder : (locate dir).isPrefixOf (locate dir ++ names) :=
      List.isPrefixOf_iff_prefix.mpr (List.prefix_append _ _)
    rw [relabel_below_names member, moved_append, finalPlace,
      if_pos isUnder, List.drop_left]
  · have notUnder : ¬ (locate dir).isPrefixOf place := fun isUnder =>
      inFront (List.isPrefixOf_iff_prefix.mp isUnder)
    rw [relabel_below_of_outside inFront, moved_of_notBelow inFront, finalPlace,
      if_neg notUnder]

theorem length_newPlace (dir : Bytes) :
    (newPlace dir).length = (locate dir).length := by
  rcases newPlace_cases dir with same | changed
  · rw [same]
  · obtain ⟨above, name, place, new, _⟩ := changed
    rw [place, new, List.length_append, List.length_append]
    rfl

theorem newPlace_of_top (top : locate dir = []) : newPlace dir = [] := by
  have sameLength := length_newPlace dir
  rw [top, List.length_nil] at sameLength
  exact List.length_eq_zero_iff.mp sameLength

theorem newPlace_notUnder (different : newPlace dir ≠ locate dir) :
    ¬ locate dir <+: newPlace dir := fun inFront =>
  different (inFront.eq_of_length (length_newPlace dir).symm).symm

theorem newPlace_notInFront (different : newPlace dir ≠ locate dir) :
    ¬ newPlace dir <+: locate dir := fun inFront =>
  different (inFront.eq_of_length (length_newPlace dir))

/-- Where nothing is at the new place, nothing is below it. -/
theorem newPlace_notInFront_of_free (different : newPlace dir ≠ locate dir)
    (free : tree.entries.find (newPlace dir) = none)
    (stored : entry ∈ tree.entries.rows) :
    ¬ newPlace dir <+: entry.location := by
  intro inFront
  rcases prefixClosed_places tree _ (Or.inr ⟨entry, stored, rfl⟩)
    (newPlace dir) inFront with top | known
  · apply newPlace_notInFront different
    rw [top]
    exact List.nil_prefix
  · obtain ⟨target, targetStored, targetPlace⟩ := known
    exact Table.find_eq_none_iff.mp free target targetStored targetPlace

/-- No entry is at the new place of the directory or below it. -/
theorem newPlace_free (different : newPlace dir ≠ locate dir)
    (free : tree.entries.find (newPlace dir) = none)
    (stored : entry ∈ tree.entries.rows) :
    ¬ newPlace dir <+:
      relabel substituted ((below tree.entries dir).map Entry.location)
        entry.location := by
  have inTree : entry.location ∈ tree.places := Or.inr ⟨entry, stored, rfl⟩
  intro taken
  by_cases inFront : locate dir <+: entry.location
  · obtain ⟨names, isPlace⟩ := inFront
    rw [← isPlace] at taken inTree
    rw [relabel_below_names inTree] at taken
    exact newPlace_notInFront different (List.prefix_of_prefix_length_le taken
      (List.prefix_append _ _) (length_newPlace dir).le)
  · rw [relabel_below_of_outside inFront] at taken
    exact newPlace_notInFront_of_free different free stored taken

/-- The whole run moves every entry to its final place. -/
theorem modifyFileName_perm (overFile : Bool)
    (visits : ∀ turn, (order turn).Perm nameMap)
    (root : Present tree.entries dir)
    (apart : SiblingsApart tree.entries dir) (free : RootFree tree.entries dir) :
    (modifyFileName overFile order (walk tree.entries dir)
        tree.entries).rows.Perm
      (tree.entries.rows.map (Entry.relocate (finalPlace dir))) := by
  have relabelled := relabelled_belowRenamed overFile apart
  have places : tree.entries.rows.map (Entry.relocate fun place =>
      moved (locate dir) (newPlace dir)
        (relabel substituted ((below tree.entries dir).map Entry.location)
          place)) = tree.entries.rows.map (Entry.relocate (finalPlace dir)) :=
    map_relocate_congr fun entry stored =>
      moved_relabel_eq_finalPlace (Or.inr ⟨entry, stored, rfl⟩)
  rw [modifyFileName_walk visits, ← belowRenamed, ← places]
  rcases newPlace_cases dir with same | changed
  · rw [same, renameTo, if_neg (not_not.mpr rfl)]
    simp only [moved_self]
    exact relabelled
  · obtain ⟨above, name, place, new, changed⟩ := changed
    have different : newPlace dir ≠ locate dir := by
      rw [place, new]
      intro same
      exact changed (List.append_singleton_inj.mp same).2
    have notFound := free.resolve_left different
    rcases root with empty | root
    · rw [empty] at place
      exact absurd place.symm (List.concat_ne_nil name above)
    · obtain ⟨root, rootStored, rootPlace⟩ := root
      have clear : ∀ front, front <+: root.location →
          front ∉ (below tree.entries dir).map Entry.location := by
        intro front inFront
        rw [rootPlace] at inFront
        exact notMem_below_of_above inFront
      have freePlace := fun other (stored : other ∈ tree.entries.rows) =>
        newPlace_free different notFound stored
      rw [new] at freePlace
      rw [place, new]
      exact relabelled.renameTo_perm overFile rootStored
        (rootPlace.trans place) clear changed freePlace

/-! ### Losses -/

theorem renameTo_cases (overFile : Bool) (fs : FileSystem) (old new : Location) :
    renameTo overFile fs old new = fs ∨
      renameTo overFile fs old new = fs.move old new := by
  rw [renameTo]
  split_ifs with different
  · cases renamed : osRename overFile fs old new with
    | none => exact Or.inl rfl
    | some after => exact Or.inr (osRename_eq_some renamed)
  · exact Or.inl rfl

theorem length_renameTo_le (overFile : Bool) (fs : FileSystem)
    (old new : Location) :
    (renameTo overFile fs old new).rows.length ≤ fs.rows.length := by
  rcases renameTo_cases overFile fs old new with same | moves
  · rw [same]
  · rw [moves]
    exact length_move_le fs old new

theorem find_renameTo_of_notBelow (notOld : ¬ old <+: place)
    (notNew : ¬ new <+: place) :
    (renameTo overFile fs old new).find place = fs.find place := by
  rcases renameTo_cases overFile fs old new with same | moves
  · rw [same]
  · rw [moves, find_move_of_notBelow notNew notOld]

/-- The turns before that of the directory are only seen below it. -/
theorem find_belowRenamed (overFile : Bool) (tree : DirectoryTree)
    (notUnder : locate dir <+: place → place = locate dir) :
    (belowRenamed overFile tree.entries dir).find place =
      tree.entries.find place := by
  refine List.foldlRecOn _ _
    (motive := fun fs : FileSystem =>
      fs.find place = tree.entries.find place) rfl ?_
  intro fs same entry member
  have isBelow := List.mem_reverse.mp member
  obtain ⟨above, name, isPlace⟩ := tree.exists_name (mem_below.mp isBelow).1
  have known : above ++ [name] ∈
      (below tree.entries dir).map Entry.location := by
    rw [← isPlace]
    exact List.mem_map_of_mem isBelow
  have under := prefix_above_of_mem_below known
  have notInFront : ∀ last, ¬ above ++ [last] <+: place := by
    intro last inFront
    have isRoot := notUnder
      ((under.trans (List.prefix_append above [last])).trans inFront)
    have short := inFront.length_le
    have long := under.length_le
    rw [isRoot, List.length_append, List.length_singleton] at short
    omega
  rw [isPlace, sibling_concat,
    find_renameTo_of_notBelow (notInFront _) (notInFront _), same]

theorem find_belowRenamed_newPlace (overFile : Bool) (tree : DirectoryTree)
    (different : newPlace dir ≠ locate dir) :
    (belowRenamed overFile tree.entries dir).find (newPlace dir) =
      tree.entries.find (newPlace dir) :=
  find_belowRenamed overFile tree fun inFront =>
    absurd inFront (newPlace_notUnder different)

theorem length_belowRenamed_le (overFile : Bool) (fs : FileSystem)
    (dir : Bytes) :
    (belowRenamed overFile fs dir).rows.length ≤ fs.rows.length := by
  refine List.foldlRecOn _ _
    (motive := fun after : FileSystem =>
      after.rows.length ≤ fs.rows.length) le_rfl ?_
  intro after shorter entry _
  exact (length_renameTo_le overFile after _ _).trans shorter

theorem LosesNothing.root {before after : FileSystem} {root : Entry}
    (kept : LosesNothing dir before after) (stored : root ∈ before.rows)
    (isPlace : root.location = locate dir) :
    { root with location := sibling (locate dir) } ∈ after.rows := by
  have arrives := kept.kept root stored []
    (isPlace.trans (List.append_nil _).symm)
  rwa [List.map_nil, List.append_nil] at arrives

theorem siblingsApart_of_losesNothing {after : FileSystem}
    (kept : LosesNothing dir tree.entries after) :
    SiblingsApart tree.entries dir := by
  intro above name other inTree named otherNamed same
  obtain ⟨entry, stored, isPlace⟩ := named
  obtain ⟨otherEntry, otherStored, otherPlace⟩ := otherNamed
  obtain ⟨rest, rfl⟩ := inTree
  rw [List.append_assoc] at isPlace otherPlace
  have here := kept.kept entry stored _ isPlace
  have there := kept.kept otherEntry otherStored _ otherPlace
  have sameNames : (rest ++ [name]).map substituted =
      (rest ++ [other]).map substituted := by
    rw [List.map_append, List.map_append, List.map_singleton,
      List.map_singleton, same]
  rw [sameNames] at here
  have sameIdent := congrArg Entry.ident (after.eq_of_key_eq here there rfl)
  have sameEntry := List.inj_on_of_nodup_map tree.identsDiffer stored
    otherStored sameIdent
  rw [sameEntry, otherPlace] at isPlace
  exact (List.append_singleton_inj.mp
    (List.append_cancel_left isPlace)).2.symm

theorem rootNamed_of_losesNothing (visits : ∀ turn, (order turn).Perm nameMap)
    (root : Present tree.entries dir)
    (kept : LosesNothing dir tree.entries
      (modifyFileName overFile order (walk tree.entries dir) tree.entries)) :
    RootNamed dir := by
  by_contra unnamed
  have changed : sibling (locate dir) ≠ locate dir := fun same =>
    unnamed (Or.inl same)
  have stays : newPlace dir = locate dir := by
    by_contra different
    exact unnamed (newPlace_eq_sibling_iff.mp (newPlace_eq_sibling different))
  rcases root with top | known
  · rw [top] at changed
    exact changed rfl
  · obtain ⟨root, rootStored, rootPlace⟩ := known
    have arrives := kept.root rootStored rootPlace
    rw [modifyFileName_walk visits, ← belowRenamed, stays, renameTo,
      if_neg (not_not.mpr rfl)] at arrives
    -- No turn below the directory is seen at its new place, so the directory
    -- would have been there from the start.
    have found := Table.find_of_mem arrives
    rw [find_belowRenamed overFile tree fun inFront =>
      (inFront.eq_of_length (length_sibling _).symm).symm] at found
    have sameEntry := List.inj_on_of_nodup_map tree.identsDiffer
      (Table.mem_of_find found) rootStored rfl
    exact changed ((congrArg Entry.location sameEntry).trans rootPlace)

theorem rootFree_of_losesNothing (visits : ∀ turn, (order turn).Perm nameMap)
    (root : Present tree.entries dir)
    (kept : LosesNothing dir tree.entries
      (modifyFileName overFile order (walk tree.entries dir) tree.entries)) :
    RootFree tree.entries dir := by
  rw [modifyFileName_walk visits, ← belowRenamed] at kept
  by_contra taken
  obtain ⟨different, found⟩ := not_or.mp taken
  obtain ⟨target, found⟩ := Option.ne_none_iff_exists'.mp found
  have targetPlace := Table.key_of_find found
  rcases root with top | known
  · exact different ((newPlace_of_top top).trans top.symm)
  · obtain ⟨root, rootStored, rootPlace⟩ := known
    have targetStays : target ∈ (belowRenamed overFile tree.entries dir).rows := by
      apply Table.mem_of_find
      rw [find_belowRenamed_newPlace overFile tree different]
      exact found
    have arrives := kept.root rootStored rootPlace
    rw [← newPlace_eq_sibling different] at arrives
    rcases renameTo_cases overFile (belowRenamed overFile tree.entries dir)
      (locate dir) (newPlace dir) with fails | moves
    · -- The directory stays behind, and its new place belongs to the target.
      rw [fails] at arrives
      have sameIdent := congrArg Entry.ident
        (Table.eq_of_key_eq _ arrives targetStays targetPlace.symm)
      have sameEntry := List.inj_on_of_nodup_map tree.identsDiffer rootStored
        (Table.mem_of_find found) sameIdent
      rw [sameEntry, targetPlace] at rootPlace
      exact different rootPlace
    · -- The target is replaced, so an entry is missing.
      have count := kept.count
      rw [moves] at count
      have replaced : newPlace dir <+: target.location := by
        rw [targetPlace]
      have fewer := length_move_lt (locate dir) targetStays replaced
      have bound := length_belowRenamed_le overFile tree.entries dir
      omega

/-- On every tree, for all orders that Go picks and whether or not a directory
can replace a file, the renaming loses nothing exactly if siblings have
different new names, the new name of the directory is free, and the path shows
the name of the directory if it is an old one. -/
theorem modifyFileName_losesNothing_iff (overFile : Bool)
    (order : ℕ → List (Bytes × Bytes))
    (visits : ∀ turn, (order turn).Perm nameMap) (tree : DirectoryTree)
    (dir : Bytes) (root : RootDirectory tree.entries dir) :
    LosesNothing dir tree.entries
        (modifyFileName overFile order (walk tree.entries dir) tree.entries) ↔
      SiblingsApart tree.entries dir ∧ RootFree tree.entries dir ∧
        RootNamed dir := by
  constructor
  · intro kept
    exact ⟨siblingsApart_of_losesNothing kept,
      rootFree_of_losesNothing visits root.present kept,
      rootNamed_of_losesNothing visits root.present kept⟩
  · intro condition
    obtain ⟨apart, free, named⟩ := condition
    have moved := modifyFileName_perm overFile visits root.present apart free
    refine ⟨?_, moved.length_eq.trans (List.length_map _)⟩
    intro entry stored names isPlace
    have place : finalPlace dir entry.location =
        sibling (locate dir) ++ names.map substituted := by
      rw [isPlace, finalPlace_append, newPlace_eq_sibling_iff.mpr named]
    have here := List.mem_map_of_mem
      (f := Entry.relocate (finalPlace dir)) stored
    rw [Entry.relocate, place] at here
    exact moved.mem_iff.mpr here

/-- It is enough to compare the entries. -/
theorem siblingsApart_of_entries
    (apart : ∀ entry ∈ fs.rows, ∀ other ∈ fs.rows,
      sibling entry.location = sibling other.location →
        entry.location = other.location) :
    SiblingsApart fs dir := by
  intro above name other _ named otherNamed same
  obtain ⟨entry, stored, isPlace⟩ := named
  obtain ⟨otherEntry, otherStored, otherPlace⟩ := otherNamed
  have samePlace := apart entry stored otherEntry otherStored (by
    rw [isPlace, otherPlace, sibling_concat, sibling_concat, same])
  rw [isPlace, otherPlace] at samePlace
  exact (List.append_singleton_inj.mp samePlace).2

/-- The directory `eoslib` with a file and a directory that holds a file. -/
def eoslib : DirectoryTree where
  entries := Table.empty.putAll
    [⟨["eoslib".toUTF8.toList], 1, .directory⟩,
      ⟨["eoslib".toUTF8.toList, "eos.h".toUTF8.toList], 2, .file [1]⟩,
      ⟨["eoslib".toUTF8.toList, "Eos".toUTF8.toList], 3, .directory⟩,
      ⟨["eoslib".toUTF8.toList, "Eos".toUTF8.toList, "EOS".toUTF8.toList], 4,
        .file [2]⟩]
  nonempty := by decide +kernel
  proper := by decide +kernel
  parents := by decide +kernel
  identsDiffer := by decide +kernel

/-- In `eoslib` every entry gets its new name. -/
theorem modifyFileName_losesNothing_eoslib :
    LosesNothing "eoslib".toUTF8.toList eoslib.entries
      (modifyFileName false (fun _ => nameMap)
        (walk eoslib.entries "eoslib".toUTF8.toList) eoslib.entries) :=
  (modifyFileName_losesNothing_iff false (fun _ => nameMap)
    (fun _ => List.Perm.refl nameMap) eoslib "eoslib".toUTF8.toList
    (by decide +kernel)).mpr
    ⟨siblingsApart_of_entries (by decide +kernel), by decide +kernel,
      by decide +kernel⟩

/-- A directory with the two files `eos` and `uos`. -/
def collision : DirectoryTree where
  entries := Table.empty.putAll
    [⟨["d".toUTF8.toList], 1, .directory⟩,
      ⟨["d".toUTF8.toList, "eos".toUTF8.toList], 2, .file [1]⟩,
      ⟨["d".toUTF8.toList, "uos".toUTF8.toList], 3, .file [2]⟩]
  nonempty := by decide +kernel
  proper := by decide +kernel
  parents := by decide +kernel
  identsDiffer := by decide +kernel

/-- The file `eos` replaces the file `uos`. -/
theorem modifyFileName_loses :
    ¬ ∀ (overFile : Bool) (order : ℕ → List (Bytes × Bytes))
      (tree : DirectoryTree) (dir : Bytes),
      (∀ turn, (order turn).Perm nameMap) →
      RootDirectory tree.entries dir →
        LosesNothing dir tree.entries
          (modifyFileName overFile order (walk tree.entries dir)
            tree.entries) := by
  intro losesNothing
  have kept := losesNothing false (fun _ => nameMap) collision
    "d".toUTF8.toList (fun _ => List.Perm.refl nameMap) (by decide +kernel)
  have apart := siblingsApart_of_losesNothing kept
  have same := apart ["d".toUTF8.toList] "eos".toUTF8.toList
    "uos".toUTF8.toList (by decide +kernel) (by decide +kernel)
    (by decide +kernel) (by decide +kernel)
  exact absurd same (by decide +kernel)

end Bright.Rename
