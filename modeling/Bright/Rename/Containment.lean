import Bright.Rename.Failures
import Bright.Rename.Preservation
import Mathlib.Data.Prod.Lex

/-!
# What happens outside the directory

The walk lists links and does not follow them, and `os.Rename` renames the link
itself, but the contents pass follows them.  So the tool changes a file outside
the directory exactly if some listed path leads to one in which it writes
something else, or if the renamed directory itself replaces a file
(`staysInside_iff`).
-/

namespace Bright.Rename

open Bright.Lib

/-- The two passes over the paths of a walk; a panic in the first ends the
run. -/
def runTool (overFile : Bool) (links : ℕ) (order : ℕ → List (Bytes × Bytes))
    (visits : List Visit) (fs : FileSystem) : FileSystem :=
  match modifyFileContent links visits fs with
  | .ok written => modifyFileName overFile order (visits.map Visit.path) written
  | .error stopped => stopped

/-- Whatever is not in the directory is where it was and as it was. -/
def StaysInside (dir : Bytes) (before after : FileSystem) : Prop :=
  ∀ place entry, ¬ locate dir <+: place → before.find place = some entry →
    after.find place = some entry

/-- The contents pass gets to no file outside the directory that it would
change. -/
def SparesOutside (links : ℕ) (dir : Bytes) (visits : List Visit)
    (fs : FileSystem) : Prop :=
  ∀ visit ∈ performed links fs visits, ∀ place ident content,
    follow links fs visit.path = some place → ¬ locate dir <+: place →
      fs.find place = some ⟨place, ident, .file content⟩ →
        Spares visit.answers content

/-- If the directory gets a new name, it is not that of a file that a directory
can replace. -/
def SparesNewPlace (overFile : Bool) (dir : Bytes) (fs : FileSystem) : Prop :=
  newPlace dir = locate dir ∨ overFile = false ∨
    ∀ target, fs.find (newPlace dir) = some target → target.node = .directory

variable {overFile : Bool} {links : ℕ} {order : ℕ → List (Bytes × Bytes)}
  {visits : List Visit} {fs : FileSystem} {tree : DirectoryTree} {dir : Bytes}
  {place old new : Location} {entry : Entry} {content : Bytes}

/-! ### Contents -/

/-- Shorter contents come after longer ones, and equally long ones in byte
order. -/
def contentRank (content : Bytes) : ℕᵒᵈ ×ₗ Bytes :=
  toLex (OrderDual.toDual content.length, content)

theorem contentRank_injective : contentRank.Injective := by
  intro first second same
  exact congrArg (fun rank => (ofLex rank).2) same

/-- A turn on a file shortens it, substitutes it or leaves it alone. -/
theorem contentRank_le_rewriteFile {pairs : List (Bytes × Bytes)}
    (inOrder : pairs.Perm nameMap) (answers : Answers) (content : Bytes) :
    contentRank content ≤ contentRank (rewriteFile pairs answers content) := by
  rcases rewriteFile_cases inOrder answers content with same | changed | shorter
  · rw [same]
  · rw [changed]
    by_cases noName : substituted content = content
    · rw [noName]
    · apply le_of_lt
      apply Prod.Lex.toLex_lt_toLex.mpr
      right
      rw [length_substituted]
      exact ⟨rfl, lt_substituted noName⟩
  · apply le_of_lt
    apply Prod.Lex.toLex_lt_toLex.mpr
    exact Or.inl shorter

/-- Turns on a file leave it as it was exactly if each of them does. -/
theorem rewriteAll_eq_self_iff
    (inOrder : ∀ visit ∈ visits, visit.order.Perm nameMap) :
    rewriteAll visits content = content ↔
      ∀ visit ∈ visits, Spares visit.answers content := by
  constructor
  · intro returns visit member
    apply (rewriteFile_eq_self_iff (inOrder visit member)).mp
    exact step_eq_of_foldl_eq contentRank_injective
      (fun visit member content => contentRank_le_rewriteFile
        (inOrder visit member) visit.answers content) returns visit member
  · intro spare
    induction visits with
    | nil => rfl
    | cons visit visits inductionHypothesis =>
        obtain ⟨firstInOrder, laterInOrder⟩ := List.forall_mem_cons.mp inOrder
        obtain ⟨first, later⟩ := List.forall_mem_cons.mp spare
        rw [rewriteAll, List.foldl_cons, ← rewriteAll,
          (rewriteFile_eq_self_iff firstInOrder).mpr first]
        exact inductionHypothesis laterInOrder later

/-- Directories and links are not rewritten. -/
theorem rewriteNode_of_not_file {node : Node}
    (notFile : ∀ content, node ≠ .file content) :
    rewriteNode links fs visits place node = node := by
  rw [rewriteNode]
  induction visits with
  | nil => rfl
  | cons visit visits inductionHypothesis =>
      rw [List.foldl_cons, visitNode, rewrite_of_not_file notFile, ite_self]
      exact inductionHypothesis

/-- The contents pass changes nothing outside exactly if it spares all files
there. -/
theorem staysInside_settled_iff
    (inOrder : ∀ visit ∈ visits, visit.order.Perm nameMap) :
    StaysInside dir fs (settled (modifyFileContent links visits fs)) ↔
      SparesOutside links dir visits fs := by
  have performedInOrder : ∀ place,
      ∀ visit ∈ visitsTo links fs (performed links fs visits) place,
        visit.order.Perm nameMap := by
    intro place visit member
    exact inOrder visit
      ((List.takeWhile_sublist _).subset (mem_visitsTo.mp member).1)
  rw [settled_modifyFileContent]
  constructor
  · intro stays visit member place ident content leads outside found
    have same := stays place _ outside found
    rw [find_mapNodes, found, Option.map_some, rewriteNode_file] at same
    have returns := (rewriteAll_eq_self_iff (performedInOrder place)).mp
      (by simpa using same)
    exact returns visit (mem_visitsTo.mpr ⟨member, leads⟩)
  · intro spares place entry outside found
    obtain ⟨location, ident, node⟩ := entry
    have isPlace : location = place := Table.key_of_find found
    subst isPlace
    rw [find_mapNodes, found, Option.map_some]
    cases node with
    | directory =>
        have notFile : ∀ content, Node.directory ≠ .file content := nofun
        rw [rewriteNode_of_not_file notFile]
    | link target =>
        have notFile : ∀ content, Node.link target ≠ .file content := nofun
        rw [rewriteNode_of_not_file notFile]
    | file content =>
        rw [rewriteNode_file,
          (rewriteAll_eq_self_iff (performedInOrder location)).mpr]
        intro visit member
        obtain ⟨isPerformed, leads⟩ := mem_visitsTo.mp member
        exact spares visit isPerformed location ident content leads outside
          found

/-! ### Names -/

/-- The root that is renamed is where the walk saw it. -/
theorem exists_root (overFile : Bool) (root : RootDirectory tree.entries dir)
    (different : newPlace dir ≠ locate dir) :
    ∃ entry, (belowRenamed overFile tree.entries dir).find (locate dir) =
        some entry ∧ entry.node = .directory := by
  rcases root with top | known
  · exact absurd ((newPlace_of_top top).trans top.symm) different
  · obtain ⟨entry, stored, isPlace, isDirectory⟩ := known
    refine ⟨entry, ?_, isDirectory⟩
    rw [find_belowRenamed overFile tree fun _ => rfl, ← isPlace]
    exact Table.find_of_mem stored

theorem osRename_eq_none_of_found {source target : Entry}
    (sourceFound : fs.find old = some source)
    (isDirectory : source.node = .directory)
    (targetFound : fs.find new = some target)
    (refused : target.node = .directory ∨ overFile = false) :
    osRename overFile fs old new = none := by
  rw [osRename, sourceFound, targetFound]
  dsimp only
  by_cases below : old.isPrefixOf new
  · rw [if_pos below]
  · rw [if_neg below]
    by_cases targetDirectory : target.node = .directory
    · rw [if_pos targetDirectory]
    · have isOff := refused.resolve_left targetDirectory
      have noReplace : source.node = .directory ∧ ¬ overFile := by
        rw [isOff]
        exact ⟨isDirectory, Bool.false_ne_true⟩
      rw [if_neg targetDirectory, if_pos noReplace]

/-- The names pass changes nothing outside as long as the directory replaces no
file. -/
theorem find_modifyFileName_of_outside
    (inOrder : ∀ turn, (order turn).Perm nameMap)
    (root : RootDirectory tree.entries dir)
    (spares : SparesNewPlace overFile dir tree.entries)
    (outside : ¬ locate dir <+: place)
    (found : tree.entries.find place = some entry) :
    (modifyFileName overFile order (walk tree.entries dir)
      tree.entries).find place = some entry := by
  have before : (belowRenamed overFile tree.entries dir).find place =
      some entry := by
    rw [find_belowRenamed overFile tree fun inFront => absurd inFront outside,
      found]
  rw [modifyFileName_walk inOrder, ← belowRenamed]
  by_cases same : newPlace dir = locate dir
  · rw [same, renameTo, if_neg (not_not.mpr rfl), before]
  · cases targetFound : tree.entries.find (newPlace dir) with
    | none =>
        have isPlace : entry.location = place := Table.key_of_find found
        have notBelow : ¬ newPlace dir <+: place := by
          rw [← isPlace]
          exact newPlace_notInFront_of_free same targetFound
            (Table.mem_of_find found)
        rw [find_renameTo_of_notBelow outside notBelow, before]
    | some target =>
        have targetStays :=
          (find_belowRenamed_newPlace overFile tree same).trans targetFound
        have refused : target.node = .directory ∨ overFile = false := by
          rcases spares.resolve_left same with isOff | isDirectory
          · exact Or.inr isOff
          · exact Or.inl (isDirectory target targetFound)
        obtain ⟨rootEntry, rootFound, isDirectory⟩ :=
          exists_root overFile root same
        rw [renameTo, if_pos same, osRename_eq_none_of_found rootFound
          isDirectory targetStays refused, Option.getD_none, before]

/-- A file at the new name of the directory is replaced by the directory. -/
theorem find_newPlace_of_replaced (tree : DirectoryTree) {target : Entry}
    (inOrder : ∀ turn, (order turn).Perm nameMap)
    (root : RootDirectory tree.entries dir)
    (different : newPlace dir ≠ locate dir) (replaces : overFile = true)
    (targetFound : tree.entries.find (newPlace dir) = some target)
    (notDirectory : target.node ≠ .directory) :
    ∃ moved, (modifyFileName overFile order (walk tree.entries dir)
        tree.entries).find (newPlace dir) = some moved ∧
      moved.node = .directory := by
  obtain ⟨rootEntry, rootFound, isDirectory⟩ :=
    exists_root overFile root different
  have targetStays :=
    (find_belowRenamed_newPlace overFile tree different).trans targetFound
  have notUnder : ¬ (locate dir).isPrefixOf (newPlace dir) := fun inFront =>
    newPlace_notUnder different (List.isPrefixOf_iff_prefix.mp inFront)
  have refuses : ¬ (rootEntry.node = .directory ∧ ¬ overFile) := fun refused =>
    refused.2 replaces
  have renamed : osRename overFile (belowRenamed overFile tree.entries dir)
      (locate dir) (newPlace dir) =
        some ((belowRenamed overFile tree.entries dir).move (locate dir)
          (newPlace dir)) := by
    rw [osRename, rootFound]
    dsimp only
    rw [if_neg notUnder, targetStays]
    dsimp only
    rw [if_neg notDirectory, if_neg refuses]
  obtain ⟨stored, isPlace⟩ := Table.find_eq_some_iff.mp rootFound
  have kept : rootEntry ∈ (belowRenamed overFile tree.entries dir).rows.filter
      fun entry => ¬ (newPlace dir).isPrefixOf entry.location := by
    apply List.mem_filter.mpr
    rw [decide_eq_true_eq, List.isPrefixOf_iff_prefix, isPlace]
    exact ⟨stored, newPlace_notInFront different⟩
  have arrives : moved (locate dir) (newPlace dir) rootEntry.location =
      newPlace dir := by
    rw [isPlace]
    simpa using moved_append (locate dir) (newPlace dir) []
  refine ⟨rootEntry.relocate (moved (locate dir) (newPlace dir)), ?_,
    isDirectory⟩
  rw [modifyFileName_walk inOrder, ← belowRenamed, renameTo, if_pos different,
    renamed, Option.getD_some]
  apply Table.find_eq_some_iff.mpr
  exact ⟨(rows_move_perm _ _ _).mem_iff.mpr (List.mem_map_of_mem kept), arrives⟩

/-! ### The whole run -/

/-- The tree that the names pass finds. -/
def writtenTree (links : ℕ) (visits : List Visit) (tree : DirectoryTree) :
    DirectoryTree :=
  tree.mapNodes (rewriteNode links tree.entries visits) kind_rewriteNode

theorem runTool_of_statable (tree : DirectoryTree)
    (inWalk : visits.map Visit.path = walk tree.entries dir)
    (statable : ∀ visit ∈ visits, Statable links tree.entries visit) :
    runTool overFile links order visits tree.entries =
      modifyFileName overFile order
        (walk (writtenTree links visits tree).entries dir)
        (writtenTree links visits tree).entries := by
  have sameWalk : walk (writtenTree links visits tree).entries dir =
      walk tree.entries dir :=
    walk_mapNodes _ tree.entries dir
  rw [runTool, modifyFileContent_of_statable statable, inWalk, ← sameWalk]
  rfl

theorem runTool_of_not_statable
    (stops : ¬ ∀ visit ∈ visits, Statable links fs visit) :
    runTool overFile links order visits fs =
      settled (modifyFileContent links visits fs) := by
  rw [runTool, modifyFileContent_of_not_statable stops]
  rfl

theorem isDirectory_writtenTree :
    (rewriteNode links fs visits place entry.node = .directory) ↔
      entry.node = .directory := by
  rw [eq_directory_iff, kind_rewriteNode, ← eq_directory_iff]

theorem rootDirectory_writtenTree (root : RootDirectory tree.entries dir) :
    RootDirectory (writtenTree links visits tree).entries dir := by
  rcases root with top | known
  · exact Or.inl top
  · obtain ⟨entry, stored, isPlace, isDirectory⟩ := known
    exact Or.inr ⟨_, mem_mapNodes.mpr ⟨entry, stored, rfl⟩, isPlace,
      isDirectory_writtenTree.mpr isDirectory⟩

theorem sparesNewPlace_writtenTree :
    SparesNewPlace overFile dir (writtenTree links visits tree).entries ↔
      SparesNewPlace overFile dir tree.entries := by
  have sameTargets :
      (∀ target, (writtenTree links visits tree).entries.find (newPlace dir) =
          some target → target.node = .directory) ↔
        ∀ target, tree.entries.find (newPlace dir) = some target →
          target.node = .directory := by
    rw [writtenTree, DirectoryTree.mapNodes, find_mapNodes]
    cases tree.entries.find (newPlace dir) with
    | none => exact Iff.rfl
    | some target =>
        simp only [Option.map_some, Option.some.injEq, forall_eq',
          isDirectory_writtenTree]
  rw [SparesNewPlace, SparesNewPlace, sameTargets]

theorem sparesNewPlace_of_staysInside
    (inOrder : ∀ turn, (order turn).Perm nameMap)
    (root : RootDirectory tree.entries dir)
    (inWalk : visits.map Visit.path = walk tree.entries dir)
    (statable : ∀ visit ∈ visits, Statable links tree.entries visit)
    (stays : StaysInside dir tree.entries
      (runTool overFile links order visits tree.entries)) :
    SparesNewPlace overFile dir tree.entries := by
  rw [runTool_of_statable tree inWalk statable] at stays
  by_contra replaced
  rw [SparesNewPlace] at replaced
  push Not at replaced
  obtain ⟨different, replaces, target, targetFound, notDirectory⟩ := replaced
  have writtenFound := find_mapNodes
    (rewriteNode links tree.entries visits) tree.entries (newPlace dir)
  rw [targetFound, Option.map_some] at writtenFound
  obtain ⟨moved, found, isDirectory⟩ := find_newPlace_of_replaced
    (writtenTree links visits tree) inOrder
    (rootDirectory_writtenTree root) different
    (Bool.eq_true_of_not_eq_false replaces) writtenFound
    (mt isDirectory_writtenTree.mp notDirectory)
  have same := stays (newPlace dir) target (newPlace_notUnder different)
    targetFound
  rw [found] at same
  exact notDirectory (Option.some.inj same ▸ isDirectory)

/-- A run of the two passes changes nothing outside the directory, exactly if
no listed path leads to a file outside in which the contents pass writes
something else, and the directory replaces no file by its new name. -/
theorem staysInside_iff (overFile : Bool) (links : ℕ)
    (order : ℕ → List (Bytes × Bytes))
    (inOrder : ∀ turn, (order turn).Perm nameMap) (visits : List Visit)
    (visitsInOrder : ∀ visit ∈ visits, visit.order.Perm nameMap)
    (tree : DirectoryTree) (dir : Bytes)
    (root : RootDirectory tree.entries dir)
    (inWalk : visits.map Visit.path = walk tree.entries dir) :
    StaysInside dir tree.entries
        (runTool overFile links order visits tree.entries) ↔
      SparesOutside links dir visits tree.entries ∧
        ((∀ visit ∈ visits, Statable links tree.entries visit) →
          SparesNewPlace overFile dir tree.entries) := by
  have contents : StaysInside dir tree.entries
      (settled (modifyFileContent links visits tree.entries)) ↔
        SparesOutside links dir visits tree.entries :=
    staysInside_settled_iff visitsInOrder
  by_cases statable : ∀ visit ∈ visits, Statable links tree.entries visit
  · rw [modifyFileContent_of_statable statable] at contents
    have namesKeep : SparesNewPlace overFile dir tree.entries →
        ∀ place entry, ¬ locate dir <+: place →
          (writtenTree links visits tree).entries.find place = some entry →
          (runTool overFile links order visits tree.entries).find place =
            some entry := by
      intro spares place entry outside found
      rw [runTool_of_statable tree inWalk statable]
      exact find_modifyFileName_of_outside inOrder
        (rootDirectory_writtenTree root)
        (sparesNewPlace_writtenTree.mpr spares) outside found
    constructor
    · intro stays
      have spares := sparesNewPlace_of_staysInside inOrder root inWalk statable
        stays
      refine ⟨contents.mp ?_, fun _ => spares⟩
      intro place entry outside found
      have written := find_mapNodes (rewriteNode links tree.entries visits)
        tree.entries place
      rw [found, Option.map_some] at written
      -- What the contents pass has written is still there at the end.
      have atEnd := namesKeep spares place _ outside written
      rw [stays place entry outside found] at atEnd
      rw [atEnd]
      exact written
    · intro spares place entry outside found
      exact namesKeep (spares.2 statable) place entry outside
        (contents.mpr spares.1 place entry outside found)
  · rw [runTool_of_not_statable statable, contents]
    constructor
    · intro spares
      exact ⟨spares, fun all => absurd all statable⟩
    · exact And.left

theorem spares_of_mem_lockedVisits {locked : Bytes} {paths : List Bytes}
    (small : content.length ≤ maxFileSize)
    (noName : substituted content = content) :
    ∀ visit ∈ lockedVisits locked paths, Spares visit.answers content := by
  intro visit member written truncates
  obtain ⟨path, _, rfl⟩ := List.mem_map.mp member
  have everything : maxFileSize = written := Option.some.inj truncates.truncated
  rw [everything] at small
  exact Or.inr ⟨fun _ => rfl, small, substituted_eq_self_iff.mp noName⟩

/-- In `linkedBothWays` the link leads out to a file without an old name. -/
theorem staysInside_linkedBothWays :
    StaysInside "eos".toUTF8.toList linkedBothWays.entries
      (runTool false 40 (fun _ => nameMap)
        (lockedVisits "eos/b".toUTF8.toList
          (walk linkedBothWays.entries "eos".toUTF8.toList))
        linkedBothWays.entries) := by
  have outsideOnly : ∀ entry ∈ linkedBothWays.entries.rows,
      ¬ locate "eos".toUTF8.toList <+: entry.location →
        entry.node = .file "uos".toUTF8.toList := by
    decide +kernel
  have spares : SparesOutside 40 "eos".toUTF8.toList
      (lockedVisits "eos/b".toUTF8.toList
        (walk linkedBothWays.entries "eos".toUTF8.toList))
      linkedBothWays.entries := by
    intro visit performs place ident content _ outside found
    have isFile := outsideOnly _ (Table.mem_of_find found) outside
    rw [Node.file.inj isFile]
    exact spares_of_mem_lockedVisits (by decide +kernel) (by decide +kernel)
      visit ((List.takeWhile_sublist _).subset performs)
  exact (staysInside_iff false 40 (fun _ => nameMap)
    (fun _ => List.Perm.refl nameMap) _ perm_of_mem_lockedVisits linkedBothWays
    "eos".toUTF8.toList (by decide +kernel) (by decide +kernel)).mpr
    ⟨spares, fun _ => Or.inr (Or.inl rfl)⟩

/-- The directory `d` with a link to the file `f` outside. -/
def linkedOut : DirectoryTree where
  entries := Table.empty.putAll
    [⟨["d".toUTF8.toList], 1, .directory⟩,
      ⟨["d".toUTF8.toList, "l".toUTF8.toList], 2, .link "../f".toUTF8.toList⟩,
      ⟨["f".toUTF8.toList], 3, .file "eos".toUTF8.toList⟩]
  nonempty := by decide +kernel
  proper := by decide +kernel
  parents := by decide +kernel
  identsDiffer := by decide +kernel

/-- The file `f` is rewritten through the link. -/
theorem not_staysInside_linkedOut :
    ¬ ∀ (overFile : Bool) (links : ℕ) (order : ℕ → List (Bytes × Bytes))
      (visits : List Visit) (tree : DirectoryTree) (dir : Bytes),
      (∀ turn, (order turn).Perm nameMap) →
      (∀ visit ∈ visits, visit.order.Perm nameMap) →
      RootDirectory tree.entries dir →
      visits.map Visit.path = walk tree.entries dir →
        StaysInside dir tree.entries
          (runTool overFile links order visits tree.entries) := by
  intro staysInside
  have stays := staysInside false 40 (fun _ => nameMap)
    (smoothVisits (walk linkedOut.entries "d".toUTF8.toList)) linkedOut
    "d".toUTF8.toList (fun _ => List.Perm.refl nameMap)
    perm_of_mem_smoothVisits (by decide +kernel) (by decide +kernel) ["f".toUTF8.toList]
    ⟨["f".toUTF8.toList], 3, .file "eos".toUTF8.toList⟩ (by decide +kernel)
    (by decide +kernel)
  exact absurd stays (by decide +kernel)

end Bright.Rename
