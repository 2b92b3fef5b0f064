import Bright.Lib.Worklist
import Bright.Rename.Calls
import Bright.Rename.Containment

/-!
# Stopping the tool and starting it again

The tool keeps no record of what it has done.  When it is started again, it
walks over the tree that it finds.

A turn of the names pass leaves a tree (`exists_tree_turn`), and an entry whose
turn is over has nothing left to do, even where another entry has its new name:
a turn replaces neither directories nor, where they could not be replaced by a
directory, files by anything but files.  So the second pass ends as the first
one would have.
-/

namespace Bright.Rename

open Bright.Lib

/-- One turn on an entry below the directory. -/
def turn (overFile : Bool) (fs : FileSystem) (place : Location) : FileSystem :=
  renameTo overFile fs place (sibling place)

/-- The places below the directory, backwards. -/
def placesBelow (dir : Bytes) (fs : FileSystem) : List Location :=
  (below fs dir).reverse.map Entry.location

/-- The entry keeps its name, or another one is there that it cannot replace. -/
def Stuck (overFile : Bool) (fs : FileSystem) (entry : Entry) : Prop :=
  sibling entry.location = entry.location ∨
    ∃ target, fs.find (sibling entry.location) = some target ∧
      (target.node = .directory ∨
        entry.node = .directory ∧ overFile = false)

variable {overFile : Bool} {order : ℕ → List (Bytes × Bytes)} {dir : Bytes}
  {fs : FileSystem} {tree : DirectoryTree} {entry : Entry}
  {place old new : Location} {rest : List Location}

/-! ### Moving in a tree -/

/-- What is below `old` is found below `new` afterwards. -/
theorem find_move_below (notBelow : ¬ new <+: old ++ place)
    (found : fs.find (old ++ place) = some entry) :
    (fs.move old new).find (new ++ place) =
      some { entry with location := new ++ place } := by
  obtain ⟨stored, isPlace⟩ := Table.find_eq_some_iff.mp found
  have kept : entry ∈ fs.rows.filter
      fun entry => ¬ new.isPrefixOf entry.location := by
    apply List.mem_filter.mpr
    rw [decide_eq_true_eq, List.isPrefixOf_iff_prefix, isPlace]
    exact ⟨stored, notBelow⟩
  have here := List.mem_map_of_mem (f := Entry.relocate (moved old new)) kept
  rw [Entry.relocate, isPlace, moved_append] at here
  apply Table.find_eq_some_iff.mpr
  exact ⟨(rows_move_perm fs old new).mem_iff.mpr here, rfl⟩

/-- An entry after a move was below `old`, or neither there nor below `new`. -/
theorem mem_move_cases (member : entry ∈ (fs.move old new).rows) :
    (∃ source ∈ fs.rows, ∃ names, source.location = old ++ names ∧
        ¬ new <+: old ++ names ∧
        entry = { source with location := new ++ names }) ∨
      entry ∈ fs.rows ∧ ¬ old <+: entry.location ∧
        ¬ new <+: entry.location := by
  obtain ⟨source, kept, rfl⟩ :=
    List.mem_map.mp ((rows_move_perm fs old new).mem_iff.mp member)
  obtain ⟨stored, notBelow⟩ := List.mem_filter.mp kept
  rw [decide_eq_true_eq, List.isPrefixOf_iff_prefix] at notBelow
  by_cases inFront : old <+: source.location
  · obtain ⟨names, isPlace⟩ := inFront
    left
    refine ⟨source, stored, names, isPlace.symm, isPlace ▸ notBelow, ?_⟩
    rw [Entry.relocate, ← isPlace, moved_append]
  · right
    rw [Entry.relocate, moved_of_notBelow inFront]
    exact ⟨stored, inFront, notBelow⟩

/-- A place and its sibling with another name are not below each other. -/
theorem notBelow_sibling {above : Location} {name other : Bytes}
    (different : other ≠ name) (names : Location) :
    ¬ above ++ [other] <+: above ++ [name] ++ names := by
  intro inFront
  have same := List.prefix_of_prefix_length_le inFront
    (List.prefix_append (above ++ [name]) names)
    (by rw [List.length_append, List.length_append]; rfl)
  have equal := same.eq_of_length
    (by rw [List.length_append, List.length_append]; rfl)
  exact different (List.append_singleton_inj.mp equal).2

/-- What is above a place other than itself is above its directory. -/
theorem prefix_dropLast (inFront : old <+: place) (different : old ≠ place) :
    old <+: place.dropLast := by
  rcases List.eq_nil_or_concat place with empty | concat
  · rw [empty] at inFront ⊢
    exact inFront
  · obtain ⟨above, name, rfl⟩ := concat
    rw [List.concat_eq_append, List.dropLast_concat] at *
    rcases List.prefix_concat_iff.mp inFront with same | inFront
    · exact absurd same different
    · exact inFront

/-- The directory of an entry that a move leaves alone stays where it is. -/
theorem parent_stays (stored : entry ∈ tree.entries.rows)
    (notOld : ¬ old <+: entry.location.dropLast)
    (notNew : ¬ new <+: entry.location.dropLast) :
    entry.location.dropLast = [] ∨
      ∃ parent ∈ (tree.entries.move old new).rows,
        parent.location = entry.location.dropLast ∧
          parent.node = .directory := by
  rcases tree.parents entry stored with top | known
  · exact Or.inl top
  · obtain ⟨parent, parentStored, isParent, isDirectory⟩ := known
    rw [← isParent] at notOld notNew
    exact Or.inr ⟨parent, mem_move_of_notBelow parentStored notNew notOld,
      isParent, isDirectory⟩

/-- The tree in which an entry has got another name. -/
def DirectoryTree.moveBeside (tree : DirectoryTree) (above : Location)
    (name other : Bytes) (stored : ∃ entry ∈ tree.entries.rows,
      entry.location = above ++ [name])
    (proper : ProperName other) (different : other ≠ name) :
    DirectoryTree where
  entries := tree.entries.move (above ++ [name]) (above ++ [other])
  nonempty := by
    intro entry member
    rcases mem_move_cases member with moves | stays
    · obtain ⟨source, _, names, _, _, rfl⟩ := moves
      exact List.append_ne_nil_of_left_ne_nil (List.concat_ne_nil other above) _
    · exact tree.nonempty entry stays.1
  proper := by
    intro entry member part inPlace
    rcases mem_move_cases member with moves | stays
    · obtain ⟨source, sourceStored, names, isPlace, _, rfl⟩ := moves
      have sourceProper := tree.proper source sourceStored
      rw [isPlace] at sourceProper
      rcases List.mem_append.mp inPlace with front | back
      · rcases List.mem_append.mp front with higher | last
        · exact sourceProper part
            (List.mem_append_left _ (List.mem_append_left _ higher))
        · rw [List.mem_singleton.mp last]
          exact proper
      · exact sourceProper part (List.mem_append_right _ back)
    · exact tree.proper entry stays.1 part inPlace
  parents := by
    obtain ⟨source, sourceStored, sourcePlace⟩ := stored
    have notIn : ∀ last, ¬ above ++ [last] <+: above := by
      intro last inFront
      have bound := inFront.length_le
      rw [List.length_append, List.length_singleton] at bound
      omega
    intro entry member
    rcases mem_move_cases member with moves | stays
    · obtain ⟨moving, movingStored, names, isPlace, _, rfl⟩ := moves
      rcases List.eq_nil_or_concat names with empty | concat
      · -- The entry itself stays in its directory.
        have sameDirectory : source.location.dropLast = above := by
          rw [sourcePlace, List.dropLast_concat]
        dsimp only
        rw [empty, List.append_nil, List.dropLast_concat, ← sameDirectory]
        apply parent_stays sourceStored
        · rw [sameDirectory]
          exact notIn name
        · rw [sameDirectory]
          exact notIn other
      · -- The directories below it move with it.
        obtain ⟨front, last, rfl⟩ := concat
        rw [List.concat_eq_append] at *
        have known := tree.parents moving movingStored
        rw [isPlace, ← List.append_assoc, List.dropLast_concat] at known
        rcases known with top | known
        · exact absurd (List.append_eq_nil_iff.mp
            (List.append_eq_nil_iff.mp top).1).2 (List.cons_ne_nil name [])
        · obtain ⟨parent, parentStored, isParent, isDirectory⟩ := known
          have found := Table.find_of_mem parentStored
          rw [isParent] at found
          have movedParent :=
            find_move_below (notBelow_sibling different front) found
          dsimp only
          rw [← List.append_assoc, List.dropLast_concat]
          exact Or.inr ⟨_, Table.mem_of_find movedParent, rfl, isDirectory⟩
    · obtain ⟨stillStored, notOld, notNew⟩ := stays
      exact parent_stays stillStored
        (fun inFront => notOld (inFront.trans (List.dropLast_prefix _)))
        (fun inFront => notNew (inFront.trans (List.dropLast_prefix _)))
  identsDiffer := by
    have rows := (rows_move_perm tree.entries (above ++ [name])
      (above ++ [other])).map Entry.ident
    rw [List.map_map] at rows
    exact rows.nodup_iff.mpr
      (tree.identsDiffer.sublist (List.filter_sublist.map Entry.ident))

/-! ### One turn -/

theorem turn_of_stuck (stored : entry ∈ fs.rows)
    (stuck : Stuck overFile fs entry) :
    turn overFile fs entry.location = fs := by
  rw [turn, renameTo]
  split_ifs with different
  · rcases stuck with same | taken
    · exact absurd same different
    · obtain ⟨target, found, refuses⟩ := taken
      have fails : osRename overFile fs entry.location
          (sibling entry.location) = none := by
        rw [osRename, Table.find_of_mem stored, found]
        dsimp only
        split_ifs with below isDirectory overwrites
        · rfl
        · rfl
        · rfl
        · rcases refuses with targetDirectory | sourceDirectory
          · exact absurd targetDirectory isDirectory
          · exact absurd ⟨sourceDirectory.1, by
              rw [sourceDirectory.2]
              exact Bool.false_ne_true⟩ overwrites
      rw [fails, Option.getD_none]
  · rfl

theorem turn_of_not_stuck (stored : entry ∈ tree.entries.rows)
    (free : ¬ Stuck overFile tree.entries entry) :
    turn overFile tree.entries entry.location =
      tree.entries.move entry.location (sibling entry.location) := by
  obtain ⟨different, notTaken⟩ := not_or.mp free
  obtain ⟨above, name, isPlace⟩ := tree.exists_name stored
  have notBelow : ¬ entry.location <+: sibling entry.location := by
    rw [isPlace, sibling_concat] at different ⊢
    have changed : name ≠ substituted name := fun same =>
      different (by rw [← same])
    rw [← List.append_nil (above ++ [substituted name])]
    exact notBelow_sibling changed []
  have sameDirectory : (sibling entry.location).dropLast =
      entry.location.dropLast := by
    rw [isPlace, sibling_concat, List.dropLast_concat, List.dropLast_concat]
  have renamed : osRename overFile tree.entries entry.location
      (sibling entry.location) =
        some (tree.entries.move entry.location (sibling entry.location)) := by
    cases targetFound : tree.entries.find (sibling entry.location) with
    | none =>
        apply osRename_of_free (Table.find_of_mem stored) notBelow targetFound
        rw [sameDirectory]
        rcases tree.parents entry stored with top | known
        · exact Or.inl top
        · obtain ⟨parent, parentStored, isParent, isDirectory⟩ := known
          exact Or.inr ⟨parent,
            isParent ▸ Table.find_of_mem parentStored, isDirectory⟩
    | some target =>
        have allowed := fun refuses => notTaken ⟨target, targetFound, refuses⟩
        obtain ⟨notDirectory, replaces⟩ := not_or.mp allowed
        have outside : ¬ entry.location.isPrefixOf (sibling entry.location) :=
          fun below => notBelow (List.isPrefixOf_iff_prefix.mp below)
        have canReplace : ¬ (entry.node = .directory ∧ ¬ overFile) :=
          fun both => replaces ⟨both.1, Bool.eq_false_of_not_eq_true both.2⟩
        rw [osRename, Table.find_of_mem stored, targetFound]
        dsimp only
        rw [if_neg outside, if_neg notDirectory, if_neg canReplace]
  rw [turn, renameTo, if_pos different, renamed, Option.getD_some]

/-- Whatever a turn replaces, it leaves a tree. -/
theorem exists_tree_turn (overFile : Bool) (stored : entry ∈ tree.entries.rows) :
    ∃ after : DirectoryTree,
      after.entries = turn overFile tree.entries entry.location := by
  by_cases stuck : Stuck overFile tree.entries entry
  · exact ⟨tree, (turn_of_stuck stored stuck).symm⟩
  · obtain ⟨above, name, isPlace⟩ := tree.exists_name stored
    have changed : substituted name ≠ name := by
      intro same
      apply stuck
      left
      rw [isPlace, sibling_concat, same]
    have proper : ProperName name := by
      apply tree.proper entry stored
      rw [isPlace]
      exact List.mem_append_right above List.mem_cons_self
    have moves := turn_of_not_stuck stored stuck
    rw [isPlace, sibling_concat] at moves
    have atPlace := congrArg (turn overFile tree.entries) isPlace
    exact ⟨tree.moveBeside above name (substituted name)
      ⟨entry, stored, isPlace⟩ (properName_substituted proper) changed,
      (atPlace.trans moves).symm⟩

theorem le_sibling (place : Location) : place ≤ sibling place := by
  rcases List.eq_nil_or_concat place with empty | concat
  · rw [empty]
    exact le_rfl
  · obtain ⟨above, name, rfl⟩ := concat
    rw [List.concat_eq_append, sibling_concat]
    by_cases same : substituted name = name
    · rw [same]
    · exact (concat_lt_concat above (lt_substituted same)).le

/-- A turn is not seen at the places before its own. -/
theorem find_turn_of_lt (earlier : place < old) :
    (turn overFile fs old).find place = fs.find place := by
  apply find_renameTo_of_notBelow
  · exact fun inFront => not_lt_of_inFront inFront earlier
  · exact fun inFront =>
      not_lt_of_inFront inFront (earlier.trans_le (le_sibling old))

theorem sibling_sibling (place : Location) :
    sibling (sibling place) = sibling place := by
  rcases List.eq_nil_or_concat place with empty | concat
  · rw [empty]
    rfl
  · obtain ⟨above, name, rfl⟩ := concat
    rw [List.concat_eq_append, sibling_concat, sibling_concat,
      substituted_substituted]

theorem sibling_append (above : Location) {names : Location}
    (nonempty : names ≠ []) :
    sibling (above ++ names) = above ++ sibling names := by
  rcases List.eq_nil_or_concat names with empty | concat
  · exact absurd empty nonempty
  · obtain ⟨front, name, rfl⟩ := concat
    rw [List.concat_eq_append, ← List.append_assoc, sibling_concat,
      sibling_concat, List.append_assoc]

/-- An entry below the moved one is as stuck as it was. -/
theorem stuck_move_below {above names : Location} {name : Bytes}
    (changed : substituted name ≠ name) (nonempty : names ≠ [])
    (isPlace : entry.location = above ++ [name] ++ names)
    (stuck : Stuck overFile fs entry) :
    Stuck overFile (fs.move (above ++ [name]) (above ++ [substituted name]))
      { entry with location := above ++ [substituted name] ++ names } := by
  rw [Stuck] at *
  rw [isPlace, sibling_append _ nonempty] at stuck
  dsimp only
  rw [sibling_append _ nonempty]
  rcases stuck with fixed | taken
  · left
    rw [List.append_cancel_left fixed]
  · obtain ⟨target, found, refuses⟩ := taken
    right
    have targetMoves := find_move_below (notBelow_sibling changed _) found
    exact ⟨_, targetMoves, refuses⟩

/-- So is an entry beside it, even one with the same new name: what is there
afterwards refuses it, too. -/
theorem stuck_move_beside {above : Location} {name : Bytes} {other : Entry}
    (stored : entry ∈ tree.entries.rows)
    (isPlace : entry.location = above ++ [name])
    (free : ¬ Stuck overFile tree.entries entry)
    (otherStored : other ∈ tree.entries.rows)
    (notOld : ¬ above ++ [name] <+: other.location)
    (notNew : ¬ above ++ [substituted name] <+: other.location)
    (stuck : Stuck overFile tree.entries other) :
    Stuck overFile
      (tree.entries.move (above ++ [name]) (above ++ [substituted name]))
      other := by
  obtain ⟨different, notTaken⟩ := not_or.mp free
  have found := Table.find_of_mem stored
  rw [isPlace, sibling_concat] at different
  rw [isPlace] at found
  have changed : substituted name ≠ name := fun same => different (by rw [same])
  rcases stuck with fixed | taken
  · exact Or.inl fixed
  · obtain ⟨target, targetFound, refuses⟩ := taken
    right
    by_cases sameTarget : sibling other.location = above ++ [substituted name]
    · have notDirectory : target.node ≠ .directory := by
        intro isDirectory
        apply notTaken
        rw [isPlace, sibling_concat, ← sameTarget]
        exact ⟨target, targetFound, Or.inl isDirectory⟩
      rw [← List.append_nil (above ++ [name])] at found
      have moves := find_move_below (notBelow_sibling changed []) found
      rw [List.append_nil] at moves
      rw [sameTarget]
      exact ⟨_, moves, Or.inr (refuses.resolve_left notDirectory)⟩
    · have sameDirectory : (sibling other.location).dropLast =
          other.location.dropLast := by
        obtain ⟨front, last, otherPlace⟩ := tree.exists_name otherStored
        rw [otherPlace, sibling_concat, List.dropLast_concat,
          List.dropLast_concat]
      have outside : ∀ last, ¬ above ++ [last] <+: other.location →
          above ++ [last] ≠ sibling other.location →
            ¬ above ++ [last] <+: sibling other.location := by
        intro last notAbove notSame inFront
        have inDirectory := prefix_dropLast inFront notSame
        rw [sameDirectory] at inDirectory
        exact notAbove (inDirectory.trans (List.dropLast_prefix _))
      have notOwn : above ++ [name] ≠ sibling other.location := by
        intro same
        have again := sibling_sibling other.location
        rw [← same, sibling_concat] at again
        exact changed (List.append_singleton_inj.mp again).2
      refine ⟨target, ?_, refuses⟩
      rw [find_move_of_notBelow
        (outside _ notNew fun same => sameTarget same.symm)
        (outside _ notOld notOwn)]
      exact targetFound

/-- After its turn an entry is stuck, and those that were stuck still are. -/
theorem stuck_turn (stored : entry ∈ tree.entries.rows) {other : Entry}
    (member : other ∈ (turn overFile tree.entries entry.location).rows)
    (wasStuck : ∀ row ∈ tree.entries.rows, row ≠ entry →
      row = other ∨ entry.location <+: row.location →
        Stuck overFile tree.entries row) :
    Stuck overFile (turn overFile tree.entries entry.location) other := by
  by_cases stuck : Stuck overFile tree.entries entry
  · rw [turn_of_stuck stored stuck] at member ⊢
    by_cases same : other = entry
    · rw [same]
      exact stuck
    · exact wasStuck other member same (Or.inl rfl)
  · rw [turn_of_not_stuck stored stuck] at member ⊢
    obtain ⟨above, name, isPlace⟩ := tree.exists_name stored
    have changed : substituted name ≠ name := by
      intro same
      apply stuck
      left
      rw [isPlace, sibling_concat, same]
    rw [isPlace] at wasStuck
    rw [isPlace, sibling_concat] at member ⊢
    rcases mem_move_cases member with moves | stays
    · obtain ⟨source, sourceStored, names, sourcePlace, _, rfl⟩ := moves
      by_cases nonempty : names = []
      · left
        dsimp only
        rw [nonempty, List.append_nil, sibling_concat, substituted_substituted]
      · have notEntry : source ≠ entry := by
          intro same
          rw [same, isPlace] at sourcePlace
          exact nonempty (List.append_right_eq_self.mp sourcePlace.symm)
        have below : above ++ [name] <+: source.location :=
          sourcePlace ▸ List.prefix_append _ names
        exact stuck_move_below changed nonempty sourcePlace
          (wasStuck source sourceStored notEntry (Or.inr below))
    · obtain ⟨otherStored, notOld, notNew⟩ := stays
      have notEntry : other ≠ entry := by
        intro same
        rw [same, isPlace] at notOld
        exact notOld (List.prefix_refl _)
      exact stuck_move_beside stored isPlace stuck otherStored notOld notNew
        (wasStuck other otherStored notEntry (Or.inl rfl))

/-! ### The turns that are left -/

theorem mem_placesBelow :
    place ∈ placesBelow dir fs ↔
      (fs.find place).isSome ∧ locate dir <+: place ∧ place ≠ locate dir := by
  rw [placesBelow, List.mem_map]
  constructor
  · intro stored
    obtain ⟨entry, member, rfl⟩ := stored
    obtain ⟨inRows, inFront, different⟩ :=
      mem_below.mp (List.mem_reverse.mp member)
    rw [Table.find_of_mem inRows]
    exact ⟨rfl, inFront, different⟩
  · intro known
    obtain ⟨isSome, inFront, different⟩ := known
    obtain ⟨entry, found⟩ := Option.isSome_iff_exists.mp isSome
    obtain ⟨inRows, rfl⟩ := Table.find_eq_some_iff.mp found
    exact ⟨entry, List.mem_reverse.mpr (mem_below.mpr
      ⟨inRows, inFront, different⟩), rfl⟩

theorem falling_placesBelow (dir : Bytes) (fs : FileSystem) :
    (placesBelow dir fs).Pairwise fun first later => later < first := by
  rw [placesBelow, List.map_reverse, List.pairwise_reverse, List.pairwise_map]
  exact (List.pairwise_map.mp fs.sorted).sublist List.filter_sublist

/-- Of the entries below the directory those in `rest` are left, and the others
have nothing left to do. -/
structure Ready (overFile : Bool) (dir : Bytes) (rest : List Location)
    (fs : FileSystem) : Prop where
  isTree : ∃ tree : DirectoryTree, tree.entries = fs
  falling : rest.Pairwise fun first later => later < first
  waiting : ∀ place ∈ rest, place ∈ placesBelow dir fs
  smallest : ∀ place ∈ placesBelow dir fs, ∀ other ∈ rest, place < other →
    place ∈ rest
  settled : ∀ entry ∈ below fs dir, entry.location ∉ rest →
    Stuck overFile fs entry

theorem ready_start (overFile : Bool) (tree : DirectoryTree) (dir : Bytes) :
    Ready overFile dir (placesBelow dir tree.entries) tree.entries where
  isTree := ⟨tree, rfl⟩
  falling := falling_placesBelow dir tree.entries
  waiting := fun _ member => member
  smallest := fun _ member _ _ _ => member
  settled := by
    intro entry member outside
    apply absurd _ outside
    exact List.mem_map_of_mem (List.mem_reverse.mpr member)

theorem Ready.turn (ready : Ready overFile dir (place :: rest) fs) :
    Ready overFile dir rest (turn overFile fs place) := by
  obtain ⟨tree, rfl⟩ := ready.isTree
  obtain ⟨first, later⟩ := List.pairwise_cons.mp ready.falling
  obtain ⟨isSome, inFront, different⟩ :=
    mem_placesBelow.mp (ready.waiting place List.mem_cons_self)
  obtain ⟨entry, found⟩ := Option.isSome_iff_exists.mp isSome
  obtain ⟨stored, rfl⟩ := Table.find_eq_some_iff.mp found
  have sameBelow : ∀ other < entry.location,
      other ∈ placesBelow dir (Rename.turn overFile tree.entries entry.location) ↔
        other ∈ placesBelow dir tree.entries := by
    intro other less
    rw [mem_placesBelow, mem_placesBelow, find_turn_of_lt less]
  refine ⟨exists_tree_turn overFile stored, later, ?_, ?_, ?_⟩
  · intro other member
    rw [sameBelow other (first other member)]
    exact ready.waiting other (List.mem_cons_of_mem _ member)
  · intro other member next nextMember less
    have before := less.trans (first next nextMember)
    rw [sameBelow other before] at member
    have inRest := ready.smallest other member next
      (List.mem_cons_of_mem _ nextMember) less
    exact List.mem_of_ne_of_mem before.ne inRest
  · intro other member outside
    obtain ⟨otherStored, otherInFront, otherDifferent⟩ := mem_below.mp member
    apply stuck_turn stored otherStored
    intro row rowStored notEntry known
    have notPlace : row.location ≠ entry.location := fun same =>
      notEntry (tree.entries.eq_of_key_eq rowStored stored same)
    apply ready.settled
    · apply mem_below.mpr
      rcases known with isOther | isBelow
      · rw [isOther] at rowStored ⊢
        exact ⟨rowStored, otherInFront, otherDifferent⟩
      · refine ⟨rowStored, inFront.trans isBelow, ?_⟩
        intro isRoot
        rw [isRoot] at isBelow
        exact different
          (isBelow.eq_of_length_le inFront.length_le)
    · intro inRest
      rcases List.mem_cons.mp inRest with isPlace | inRest
      · exact notPlace isPlace
      · rcases known with isOther | isBelow
        · exact outside (isOther ▸ inRest)
        · exact not_lt_of_inFront isBelow (first _ inRest)

theorem Ready.leaves (ready : Ready overFile dir rest fs) :
    Leaves (Rename.turn overFile) (placesBelow dir) rest fs := by
  obtain ⟨done, whole, notLeft⟩ := exists_append_of_smallest
    (falling_placesBelow dir fs) ready.falling ready.waiting ready.smallest
  refine ⟨done, whole.symm, ?_⟩
  intro place member
  have isBelow : place ∈ placesBelow dir fs :=
    whole ▸ List.mem_append_left rest member
  obtain ⟨entry, entryBelow, rfl⟩ := List.mem_map.mp isBelow
  have inBelow := List.mem_reverse.mp entryBelow
  exact turn_of_stuck (mem_below.mp inBelow).1
    (ready.settled entry inBelow (notLeft _ member))

/-! ### The names pass -/

theorem belowRenamed_eq_sweep (overFile : Bool) (fs : FileSystem) (dir : Bytes) :
    belowRenamed overFile fs dir =
      sweep (Rename.turn overFile) (placesBelow dir) fs := by
  rw [belowRenamed, sweep, placesBelow, List.foldl_map]
  rfl

/-- The turns of the pass, and that of the directory itself. -/
theorem foldl_walk (turns : ℕ) (fs : FileSystem)
    (before : turns ≤ (below tree.entries dir).length ∨
      newPlace dir = locate dir) :
    ((walk tree.entries dir).reverse.take turns).foldl
        (fun fs path => renameTo overFile fs (locate path) (newPlace path)) fs =
      ((placesBelow dir tree.entries).take turns).foldl
        (Rename.turn overFile) fs := by
  have pathOf : ∀ entry ∈ (below tree.entries dir).reverse,
      locate (lead dir ++ joinPath entry.location) = entry.location ∧
        newPlace (lead dir ++ joinPath entry.location) =
          sibling entry.location := by
    intro entry member
    exact locate_path dir (mem_below.mp (List.mem_reverse.mp member)).1
  rw [walk, List.reverse_cons, List.take_append, List.foldl_append,
    ← List.map_reverse, ← List.map_take, List.foldl_map, placesBelow,
    ← List.map_take, List.foldl_map, List.length_map, List.length_reverse]
  have sameTurns : ∀ (fs : FileSystem),
      ∀ entry ∈ (below tree.entries dir).reverse.take turns,
        renameTo overFile fs (locate (lead dir ++ joinPath entry.location))
            (newPlace (lead dir ++ joinPath entry.location)) =
          Rename.turn overFile fs entry.location := by
    intro fs entry member
    obtain ⟨place, newPlace⟩ := pathOf entry (List.mem_of_mem_take member)
    rw [place, newPlace, Rename.turn]
  rw [List.foldl_ext _ _ _ sameTurns]
  rcases before with early | same
  · rw [Nat.sub_eq_zero_of_le early]
    rfl
  · cases turns - (below tree.entries dir).length with
    | zero => rfl
    | succ more =>
        rw [List.take_succ_cons, List.take_nil, List.foldl_cons, List.foldl_nil,
          same, renameTo, if_neg (not_not.mpr rfl)]

/-- A names pass that is stopped before the turn of the directory, or after it
where the directory keeps its name, leaves a tree, and the pass over a new walk
of this tree ends as the first one would have: on every tree, whichever names
collide, for all orders that Go picks in the two runs and whether or not a
directory can replace a file. -/
theorem names_pass_resumes (overFile : Bool)
    (order again : ℕ → List (Bytes × Bytes))
    (visits : ∀ turn, (order turn).Perm nameMap)
    (visitsAgain : ∀ turn, (again turn).Perm nameMap) (tree : DirectoryTree)
    (dir : Bytes) (turns : ℕ)
    (before : turns ≤ (below tree.entries dir).length ∨
      newPlace dir = locate dir) :
    ∃ stopped : DirectoryTree,
      stopped.entries = renameLoop overFile order 0 []
        ((walk tree.entries dir).reverse.take turns) tree.entries ∧
      modifyFileName overFile again (walk stopped.entries dir)
          stopped.entries =
        modifyFileName overFile order (walk tree.entries dir) tree.entries := by
  have start := ready_start overFile tree dir
  have stoppedEq : renameLoop overFile order 0 []
      ((walk tree.entries dir).reverse.take turns) tree.entries =
        ((placesBelow dir tree.entries).take turns).foldl
          (Rename.turn overFile) tree.entries := by
    rw [renameLoop_eq_foldl visits, foldl_walk turns tree.entries before]
  have isReady : Ready overFile dir
      ((placesBelow dir tree.entries).drop turns)
      (((placesBelow dir tree.entries).take turns).foldl
        (Rename.turn overFile) tree.entries) := by
    apply foldl_of_steps fun _ _ _ ready => ready.turn
    rw [List.take_append_drop]
    exact start
  obtain ⟨stopped, isStopped⟩ := isReady.isTree
  refine ⟨stopped, isStopped.trans stoppedEq.symm, ?_⟩
  have samePass := sweep_stopped (fun _ _ _ ready => ready.turn)
    (fun _ _ ready => ready.leaves) start turns
  rw [← isStopped, ← belowRenamed_eq_sweep, ← belowRenamed_eq_sweep] at samePass
  rw [modifyFileName_walk visitsAgain, modifyFileName_walk visits,
    ← belowRenamed, ← belowRenamed, samePass]

/-- In `collision` the pass is stopped before `eos` replaces `uos`. -/
theorem names_pass_resumes_collision :
    ∃ stopped : DirectoryTree,
      stopped.entries = renameLoop false (fun _ => nameMap) 0 []
        ((walk collision.entries "d".toUTF8.toList).reverse.take 1)
        collision.entries ∧
      modifyFileName false (fun _ => nameMap.reverse)
          (walk stopped.entries "d".toUTF8.toList) stopped.entries =
        modifyFileName false (fun _ => nameMap)
          (walk collision.entries "d".toUTF8.toList) collision.entries :=
  names_pass_resumes false (fun _ => nameMap) (fun _ => nameMap.reverse)
    (fun _ => List.Perm.refl nameMap) (fun _ => List.reverse_perm nameMap)
    collision "d".toUTF8.toList 1 (by decide +kernel)

end Bright.Rename
