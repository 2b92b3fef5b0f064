import Bright.Rename.Containment

/-!
# What becomes of links

The names pass gives a link a new name like any other entry, and nothing
rewrites the target of a link.  So a link still leads to its entry exactly if
the names that are looked up on its way keep their spelling
(`linkSurvives_iff`): a name that the tool has replaced is not found any more.
-/

namespace Bright.Rename

open Bright.Lib

/-- The entry at `place` is not given another name. -/
def NameKept (dir : Bytes) (place : Location) : Prop :=
  if place = locate dir then newPlace dir = place
  else locate dir <+: place → sibling place = place

instance decidableNameKept (dir : Bytes) (place : Location) :
    Decidable (NameKept dir place) := by
  unfold NameKept
  infer_instance

/-- The link and the entry that it led to are at their new places, and the link
leads there. -/
structure LinkSurvives (depth : ℕ) (dir target : Bytes) (link goal : Entry)
    (after : FileSystem) : Prop where
  linkFound : after.find (finalPlace dir link.location) =
    some (link.relocate (finalPlace dir))
  goalFound : ∃ entry, after.find (finalPlace dir goal.location) = some entry ∧
    entry.ident = goal.ident
  resolves : (linkRoute depth after (finalPlace dir link.location)
    target).reached = some (finalPlace dir goal.location)

variable {overFile : Bool} {links : ℕ} {order : ℕ → List (Bytes × Bytes)}
  {visits : List Visit} {fs after : FileSystem} {tree : DirectoryTree}
  {dir : Bytes} {place here : Location} {name : Bytes} {entry : Entry}

/-! ### Final places -/

theorem finalPlace_locate (dir : Bytes) :
    finalPlace dir (locate dir) = newPlace dir := by
  have whole := finalPlace_append dir []
  rwa [List.append_nil, List.map_nil, List.append_nil] at whole

theorem dropLast_newPlace (dir : Bytes) :
    (newPlace dir).dropLast = (locate dir).dropLast := by
  rcases newPlace_cases dir with same | changed
  · rw [same]
  · obtain ⟨above, name, old, new, _⟩ := changed
    rw [old, new, List.dropLast_concat, List.dropLast_concat]

theorem finalPlace_nil (dir : Bytes) : finalPlace dir [] = [] := by
  by_cases under : locate dir <+: []
  · have top := List.prefix_nil.mp under
    have whole := finalPlace_locate dir
    rwa [top, newPlace_of_top top] at whole
  · exact finalPlace_of_outside under

theorem not_prefix_of_root (isRoot : here ++ [name] = locate dir) :
    ¬ locate dir <+: here := by
  intro under
  have short := under.length_le
  rw [← isRoot, List.length_append, List.length_singleton] at short
  omega

/-- The directory of a place goes where the place goes. -/
theorem finalPlace_dropLast (dir : Bytes) (here : Location) :
    finalPlace dir here.dropLast = (finalPlace dir here).dropLast := by
  by_cases under : locate dir <+: here
  · obtain ⟨names, rfl⟩ := under
    rcases List.eq_nil_or_concat names with isRoot | concat
    · rw [isRoot, List.append_nil, finalPlace_locate, dropLast_newPlace]
      rcases List.eq_nil_or_concat (locate dir) with top | concat
      · rw [top]
        exact finalPlace_nil dir
      · obtain ⟨above, name, isPlace⟩ := concat
        rw [List.concat_eq_append] at isPlace
        apply finalPlace_of_outside
        rw [isPlace, List.dropLast_concat, ← isPlace]
        exact not_prefix_of_root isPlace.symm
    · obtain ⟨above, name, rfl⟩ := concat
      rw [List.concat_eq_append, ← List.append_assoc, List.dropLast_concat,
        finalPlace_append, List.append_assoc, finalPlace_append,
        List.map_append, ← List.append_assoc, List.map_singleton,
        List.dropLast_concat]
  · have outside : ¬ locate dir <+: here.dropLast := fun below =>
      under (below.trans (List.dropLast_prefix here))
    rw [finalPlace_of_outside under, finalPlace_of_outside outside]

theorem finalPlace_concat_of_kept (kept : NameKept dir (here ++ [name])) :
    finalPlace dir (here ++ [name]) = finalPlace dir here ++ [name] := by
  by_cases isRoot : here ++ [name] = locate dir
  · have outside := not_prefix_of_root isRoot
    rw [NameKept, if_pos isRoot] at kept
    rw [finalPlace_of_outside outside, isRoot, finalPlace_locate, kept, isRoot]
  · rw [NameKept, if_neg isRoot] at kept
    by_cases under : locate dir <+: here
    · have same := kept (under.trans (List.prefix_append here [name]))
      rw [sibling_concat] at same
      obtain ⟨names, rfl⟩ := under
      rw [List.append_assoc, finalPlace_append, finalPlace_append,
        List.map_append, List.map_singleton,
        (List.append_singleton_inj.mp same).2, List.append_assoc]
    · have outside : ¬ locate dir <+: here ++ [name] := by
        intro below
        rcases List.prefix_concat_iff.mp below with same | inFront
        · exact isRoot same.symm
        · exact under inFront
      rw [finalPlace_of_outside under, finalPlace_of_outside outside]

/-- No entry gets a final place whose name the tool would have replaced. -/
theorem finalPlace_ne_of_not_kept (free : RootFree tree.entries dir)
    (replaced : ¬ NameKept dir (here ++ [name]))
    (stored : entry ∈ tree.entries.rows) :
    finalPlace dir entry.location ≠ finalPlace dir here ++ [name] := by
  intro same
  by_cases isRoot : here ++ [name] = locate dir
  · have outside := not_prefix_of_root isRoot
    rw [NameKept, if_pos isRoot, isRoot] at replaced
    rw [finalPlace_of_outside outside, isRoot] at same
    by_cases under : locate dir <+: entry.location
    · obtain ⟨names, isPlace⟩ := under
      rw [← isPlace, finalPlace_append] at same
      have sameLength := congrArg List.length same
      rw [List.length_append, length_newPlace, List.length_map] at sameLength
      have none : names = [] := List.length_eq_zero_iff.mp (by omega)
      rw [none, List.map_nil, List.append_nil] at same
      exact replaced same
    · rw [finalPlace_of_outside under] at same
      exact under (same ▸ List.prefix_refl _)
  · rw [NameKept, if_neg isRoot] at replaced
    push Not at replaced
    obtain ⟨inFront, changed⟩ := replaced
    rw [sibling_concat] at changed
    have under : locate dir <+: here := by
      rcases List.prefix_concat_iff.mp inFront with root | inFront
      · exact absurd root.symm isRoot
      · exact inFront
    obtain ⟨names, rfl⟩ := under
    rw [finalPlace_append] at same
    by_cases below : locate dir <+: entry.location
    · obtain ⟨others, isPlace⟩ := below
      rw [← isPlace, finalPlace_append, List.append_assoc,
        List.append_cancel_left_eq] at same
      have written : name ∈ others.map substituted := by
        rw [same]
        exact List.mem_append_right _ List.mem_cons_self
      obtain ⟨source, _, isImage⟩ := List.mem_map.mp written
      apply changed
      rw [← isImage, substituted_substituted]
    · rw [finalPlace_of_outside below] at same
      have different : newPlace dir ≠ locate dir := by
        intro sameRoot
        apply below
        rw [same, sameRoot, List.append_assoc]
        exact List.prefix_append _ _
      have notUnder := newPlace_notInFront_of_free different
        (free.resolve_left different) stored
      apply notUnder
      rw [same, List.append_assoc]
      exact List.prefix_append _ _

/-! ### The tree after the run -/

theorem siblingsApart_mapNodes {change : Location → Node → Node}
    (apart : SiblingsApart fs dir) : SiblingsApart (fs.mapNodes change) dir := by
  have known : ∀ place, (∃ entry ∈ (fs.mapNodes change).rows,
      entry.location = place) → ∃ entry ∈ fs.rows, entry.location = place := by
    intro place stored
    obtain ⟨entry, member, isPlace⟩ := stored
    obtain ⟨source, sourceStored, rfl⟩ := mem_mapNodes.mp member
    exact ⟨source, sourceStored, isPlace⟩
  intro above name other under named otherNamed
  exact apart above name other under (known _ named) (known _ otherNamed)

theorem rootFree_mapNodes {change : Location → Node → Node}
    (free : RootFree fs dir) : RootFree (fs.mapNodes change) dir := by
  rcases free with same | free
  · exact Or.inl same
  · rw [RootFree, find_mapNodes, free]
    exact Or.inr rfl

/-- `after` holds every entry of the tree at its final place, with its node
rewritten, and nothing else. -/
def Finished (links : ℕ) (visits : List Visit) (tree : DirectoryTree)
    (dir : Bytes) (after : FileSystem) : Prop :=
  after.rows.Perm ((writtenTree links visits tree).entries.rows.map
    (Entry.relocate (finalPlace dir)))

theorem finished_runTool (inOrder : ∀ turn, (order turn).Perm nameMap)
    (root : RootDirectory tree.entries dir)
    (apart : SiblingsApart tree.entries dir) (free : RootFree tree.entries dir)
    (inWalk : visits.map Visit.path = walk tree.entries dir)
    (statable : ∀ visit ∈ visits, Statable links tree.entries visit) :
    Finished links visits tree dir
      (runTool overFile links order visits tree.entries) := by
  rw [Finished, runTool_of_statable tree inWalk statable]
  exact modifyFileName_perm overFile inOrder
    (rootDirectory_writtenTree root).present (siblingsApart_mapNodes apart)
    (rootFree_mapNodes free)

theorem Finished.find_finalPlace
    (finished : Finished links visits tree dir after)
    (found : tree.entries.find place = some entry) :
    after.find (finalPlace dir place) = some
      ⟨finalPlace dir place, entry.ident,
        rewriteNode links tree.entries visits place entry.node⟩ := by
  obtain ⟨stored, rfl⟩ := Table.find_eq_some_iff.mp found
  have written : (Entry.mk entry.location entry.ident
      (rewriteNode links tree.entries visits entry.location entry.node)) ∈
        (writtenTree links visits tree).entries.rows :=
    mem_mapNodes.mpr ⟨entry, stored, rfl⟩
  exact Table.find_eq_some_iff.mpr
    ⟨finished.mem_iff.mpr (List.mem_map_of_mem written), rfl⟩

theorem Finished.find_eq_none
    (finished : Finished links visits tree dir after)
    (nowhere : ∀ entry ∈ tree.entries.rows,
      finalPlace dir entry.location ≠ place) :
    after.find place = none := by
  apply Table.find_eq_none_iff.mpr
  intro row member
  obtain ⟨written, writtenStored, rfl⟩ :=
    List.mem_map.mp (finished.mem_iff.mp member)
  obtain ⟨source, stored, rfl⟩ := mem_mapNodes.mp writtenStored
  exact nowhere source stored

/-- For the paths, the tool rearranges the tree. -/
theorem Finished.relocates (finished : Finished links visits tree dir after)
    (free : RootFree tree.entries dir) :
    Relocates tree.entries.look after.look (finalPlace dir)
      (NameKept dir) where
  top := finalPlace_nil dir
  up := finalPlace_dropLast dir
  kept := by
    intro here name kind found kept
    have isPlace := finalPlace_concat_of_kept kept
    refine ⟨isPlace, ?_⟩
    rw [FileSystem.look] at found ⊢
    obtain ⟨entry, stored, isKind⟩ := Option.map_eq_some_iff.mp found
    rw [← isPlace, finished.find_finalPlace stored, Option.map_some,
      kind_rewriteNode, isKind]
  gone := by
    intro here name kind _ replaced
    rw [FileSystem.look, finished.find_eq_none, Option.map_none]
    intro entry stored
    exact finalPlace_ne_of_not_kept free replaced stored

/-- Where no two entries get the same place, a link of the tree leads to its
entry after the run, exactly if no name on its way through the tree has been
replaced. -/
theorem linkSurvives_iff (overFile : Bool) (links depth : ℕ)
    (order : ℕ → List (Bytes × Bytes))
    (inOrder : ∀ turn, (order turn).Perm nameMap) (visits : List Visit)
    (tree : DirectoryTree) (dir : Bytes)
    (root : RootDirectory tree.entries dir)
    (apart : SiblingsApart tree.entries dir) (free : RootFree tree.entries dir)
    (inWalk : visits.map Visit.path = walk tree.entries dir)
    (finished : ∃ written,
      modifyFileContent links visits tree.entries = .ok written)
    (link goal : Entry) (target : Bytes) (isLink : link.node = .link target)
    (linkStored : link ∈ tree.entries.rows)
    (goalStored : goal ∈ tree.entries.rows)
    (resolved : (linkRoute depth tree.entries link.location target).reached =
      some goal.location) :
    LinkSurvives depth dir target link goal
        (runTool overFile links order visits tree.entries) ↔
      ∀ place ∈ (linkRoute depth tree.entries link.location target).visited,
        NameKept dir place := by
  have statable : ∀ visit ∈ visits, Statable links tree.entries visit := by
    by_contra stops
    obtain ⟨written, ends⟩ := finished
    rw [modifyFileContent_of_not_statable stops] at ends
    cases ends
  have atEnd : Finished links visits tree dir
      (runTool overFile links order visits tree.entries) :=
    finished_runTool inOrder root apart free inWalk statable
  have start :
      finalPlace dir (if [slash].isPrefixOf target then []
          else link.location.dropLast) =
        if [slash].isPrefixOf target then []
        else (finalPlace dir link.location).dropLast := by
    rw [apply_ite (finalPlace dir), finalPlace_nil, finalPlace_dropLast]
  have leads := reached_relocated_iff (atEnd.relocates free) resolved
  rw [start] at leads
  constructor
  · intro survives
    exact leads.mp survives.resolves
  · intro kept
    refine ⟨?_, ?_, leads.mpr kept⟩
    · have notFile : ∀ content, Node.link target ≠ .file content := nofun
      rw [atEnd.find_finalPlace (Table.find_of_mem linkStored), isLink,
        rewriteNode_of_not_file notFile, Entry.relocate, isLink]
    · exact ⟨_, atEnd.find_finalPlace (Table.find_of_mem goalStored), rfl⟩

/-- The directory `d` with a file, a link `Eos` to it, and a link `l` through
the directory `d` to the link. -/
def linked : DirectoryTree where
  entries := Table.empty.putAll
    [⟨["d".toUTF8.toList], 1, .directory⟩,
      ⟨["d".toUTF8.toList, "Eos".toUTF8.toList], 2, .link "f".toUTF8.toList⟩,
      ⟨["d".toUTF8.toList, "f".toUTF8.toList], 3, .file "eos".toUTF8.toList⟩,
      ⟨["d".toUTF8.toList, "l".toUTF8.toList], 4,
        .link "../d/Eos".toUTF8.toList⟩]
  nonempty := by decide +kernel
  proper := by decide +kernel
  parents := by decide +kernel
  identsDiffer := by decide +kernel

theorem siblingsApart_linked :
    SiblingsApart linked.entries "d".toUTF8.toList :=
  siblingsApart_of_entries (by decide +kernel)

theorem finished_linked :
    ∃ written, modifyFileContent 40
      (smoothVisits (walk linked.entries "d".toUTF8.toList)) linked.entries =
        .ok written :=
  ⟨_, modifyFileContent_of_statable (by decide +kernel)⟩

/-- The link `Eos` is renamed and still leads to the file. -/
theorem linkSurvives_linked :
    LinkSurvives 39 "d".toUTF8.toList "f".toUTF8.toList
      ⟨["d".toUTF8.toList, "Eos".toUTF8.toList], 2, .link "f".toUTF8.toList⟩
      ⟨["d".toUTF8.toList, "f".toUTF8.toList], 3, .file "eos".toUTF8.toList⟩
      (runTool false 40 (fun _ => nameMap)
        (smoothVisits (walk linked.entries "d".toUTF8.toList))
        linked.entries) :=
  (linkSurvives_iff false 40 39 (fun _ => nameMap)
    (fun _ => List.Perm.refl nameMap) _ linked "d".toUTF8.toList
    (by decide +kernel) siblingsApart_linked (by decide +kernel)
    (by decide +kernel) finished_linked _ _ _ rfl (by decide +kernel)
    (by decide +kernel) (by decide +kernel)).mpr (by decide +kernel)

/-- The link `l` leads to nothing any more. -/
theorem link_dangles :
    ¬ ∀ (overFile : Bool) (links depth : ℕ)
      (order : ℕ → List (Bytes × Bytes)) (visits : List Visit)
      (tree : DirectoryTree) (dir : Bytes) (link goal : Entry)
      (target : Bytes),
      (∀ turn, (order turn).Perm nameMap) →
      RootDirectory tree.entries dir →
      SiblingsApart tree.entries dir → RootFree tree.entries dir →
      visits.map Visit.path = walk tree.entries dir →
      (∃ written, modifyFileContent links visits tree.entries = .ok written) →
      link.node = .link target → link ∈ tree.entries.rows →
      goal ∈ tree.entries.rows →
      (linkRoute depth tree.entries link.location target).reached =
          some goal.location →
        LinkSurvives depth dir target link goal
          (runTool overFile links order visits tree.entries) := by
  intro survives
  have leads := (survives false 40 39 (fun _ => nameMap)
    (smoothVisits (walk linked.entries "d".toUTF8.toList)) linked
    "d".toUTF8.toList
    ⟨["d".toUTF8.toList, "l".toUTF8.toList], 4,
      .link "../d/Eos".toUTF8.toList⟩
    ⟨["d".toUTF8.toList, "f".toUTF8.toList], 3, .file "eos".toUTF8.toList⟩ _
    (fun _ => List.Perm.refl nameMap) (by decide +kernel) siblingsApart_linked
    (by decide +kernel) (by decide +kernel) finished_linked rfl (by decide +kernel)
    (by decide +kernel) (by decide +kernel)).resolves
  exact absurd leads (by decide +kernel)

end Bright.Rename
