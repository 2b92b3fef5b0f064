import Bright.Rename.LinkTargets
import Bright.Rename.Retry

/-!
# Running the tool once more

After a run in which everything worked all names and contents are new, so a
second run has nothing left to replace.  It may panic nevertheless: the first
run has renamed the places that links lead through and left the links alone.
-/

namespace Bright.Rename

open Bright.Lib

/-- The links in the directory lead through no place that gets a new name. -/
def LinksKept (depth : ℕ) (tree : DirectoryTree) (dir : Bytes) : Prop :=
  ∀ link ∈ below tree.entries dir, ∀ target, link.node = .link target →
    ∀ place ∈ (linkRoute depth tree.entries link.location target).visited,
      NameKept dir place

variable {overFile : Bool} {depth links : ℕ}
  {order again : ℕ → List (Bytes × Bytes)} {visits visitsAgain : List Visit}
  {tree later : DirectoryTree} {dir path target : Bytes}
  {entry link : Entry} {goal front : Location} {content : Bytes}

/-! ### Paths in a tree -/

theorem partOf_of_notUp {name : Bytes} (notUp : name ≠ "..".toUTF8.toList) :
    partOf name = if name ≠ [] ∧ name ≠ ['.'.toUInt8] then .down name
      else .stay := by
  have isDot : ".".toUTF8.toList = ['.'.toUInt8] := by decide +kernel
  rw [partOf, isDot, if_neg notUp]
  by_cases skipped : name = [] ∨ name = ['.'.toUInt8]
  · rw [if_pos skipped, if_neg fun plain => not_or.mpr plain skipped]
  · rw [if_neg skipped, if_pos (not_or.mp skipped)]

/-- What is not skipped of a path are the names of its place. -/
theorem parts_plain (noneUp : "..".toUTF8.toList ∉ locate path) :
    (parts path).filter (· ≠ .stay) = (locate path).map .down := by
  rw [locate] at noneUp
  rw [parts, locate]
  generalize path.splitOn slash = names at noneUp ⊢
  induction names with
  | nil => rfl
  | cons name names inductionHypothesis =>
      by_cases plain : name ≠ [] ∧ name ≠ ['.'.toUInt8]
      · rw [List.filter_cons, if_pos (decide_eq_true plain), List.mem_cons,
          not_or] at noneUp
        have isDown : partOf name = .down name := by
          rw [partOf_of_notUp (Ne.symm noneUp.1), if_pos plain]
        rw [List.map_cons, isDown, List.filter_cons_of_pos (by simp),
          inductionHypothesis noneUp.2, List.filter_cons,
          if_pos (decide_eq_true plain), List.map_cons]
      · have excluded : ¬ decide (name ≠ [] ∧ name ≠ ['.'.toUInt8]) = true :=
          fun isPlain => plain (of_decide_eq_true isPlain)
        rw [List.filter_cons, if_neg excluded] at noneUp
        have isStay : partOf name = .stay := by
          by_cases isUp : name = "..".toUTF8.toList
          · rw [isUp] at plain
            exact absurd (by decide +kernel) plain
          · rw [partOf_of_notUp isUp, if_neg plain]
        rw [List.map_cons, isStay, List.filter_cons_of_neg (by simp),
          inductionHypothesis noneUp, List.filter_cons, if_neg excluded]

/-- The name at the end of a path comes behind the parts of the front. -/
theorem parts_append {front name : Bytes} (isFront : Front front)
    (noSlash : slash ∉ name) (noneUp : "..".toUTF8.toList ∉ locate front) :
    ∃ before, parts (front ++ name) = before ++ [partOf name] ∧
      before.filter (· ≠ .stay) = (locate front).map .down := by
  rcases isFront with empty | ends
  · refine ⟨[], ?_, by rw [empty]; rfl⟩
    rw [empty, List.nil_append, parts, List.splitOn_eq_singleton noSlash]
    rfl
  · obtain ⟨before, rfl⟩ := ends
    have samePlace : locate (before ++ [slash]) = locate before := by
      rw [locate_append_slash, locate_nil, List.append_nil]
    rw [samePlace] at noneUp ⊢
    refine ⟨parts before, ?_, parts_plain noneUp⟩
    rw [List.append_assoc, List.singleton_append, parts,
      List.splitOn_append_cons_self, List.map_append,
      List.splitOn_eq_singleton noSlash]
    rfl

theorem DirectoryTree.noneUp (tree : DirectoryTree)
    (stored : entry ∈ tree.entries.rows) :
    "..".toUTF8.toList ∉ entry.location :=
  fun member => (tree.proper entry stored _ member).notUp rfl

theorem look_of_stored (stored : entry ∈ tree.entries.rows) :
    tree.entries.look entry.location = some entry.node.kind := by
  rw [FileSystem.look, Table.find_of_mem stored, Option.map_some]

/-- Whatever is above an entry is a directory. -/
theorem look_above (stored : entry ∈ tree.entries.rows) {above : Location}
    (nonempty : above ≠ []) (inFront : above <+: entry.location)
    (different : above ≠ entry.location) :
    tree.entries.look above = some .directory := by
  obtain ⟨rest, isPlace⟩ := inFront
  induction rest using List.reverseRecOn generalizing entry with
  | nil =>
      rw [List.append_nil] at isPlace
      exact absurd isPlace different
  | append_singleton rest name inductionHypothesis =>
      rw [← List.append_assoc] at isPlace
      have parent := tree.parents entry stored
      rw [← isPlace, List.dropLast_concat] at parent
      rcases parent with top | known
      · exact absurd (List.append_eq_nil_iff.mp top).1 nonempty
      · obtain ⟨parent, parentStored, parentPlace, isDirectory⟩ := known
        by_cases same : above = parent.location
        · rw [same, look_of_stored parentStored, isDirectory]
          rfl
        · exact inductionHypothesis parentStored same parentPlace.symm

/-- The directory of the walk is found under its path. -/
theorem follow_root (root : RootDirectory tree.entries dir) :
    follow links tree.entries dir = some (locate dir) := by
  have directories : ∀ above, above ≠ [] → above <+: locate dir →
      tree.entries.look ([] ++ above) = some .directory := by
    intro above nonempty inFront
    rcases root with top | known
    · rw [top] at inFront
      exact absurd (List.prefix_nil.mp inFront) nonempty
    · obtain ⟨root, stored, isPlace, isDirectory⟩ := known
      rw [← isPlace] at inFront
      by_cases same : above = root.location
      · rw [List.nil_append, same, look_of_stored stored, isDirectory]
        rfl
      · exact look_above stored nonempty inFront same
  have plainNames : "..".toUTF8.toList ∉ locate dir := by
    rcases root with top | known
    · rw [top]
      exact List.not_mem_nil
    · obtain ⟨root, stored, isPlace, _⟩ := known
      exact isPlace ▸ tree.noneUp stored
  have plain := parts_plain plainNames
  have leads : ∀ behind, (routeParts tree.entries.look behind []
      (parts dir)).reached = some (locate dir) := by
    intro behind
    rw [← List.append_nil (parts dir),
      routeParts_of_directories plain directories []]
    rfl
  rw [follow]
  cases links with
  | zero => exact leads _
  | succ links => exact leads _

/-- The path of an entry leads to its directory first. -/
theorem follow_path (stored : entry ∈ tree.entries.rows) (dir : Bytes) :
    ∃ above name, entry.location = above ++ [name] ∧
      follow (depth + 1) tree.entries (lead dir ++ joinPath entry.location) =
        (routeParts tree.entries.look (route tree.entries.look depth) above
          [.down name]).reached := by
  obtain ⟨above, name, isPlace⟩ := tree.exists_name stored
  have proper := tree.proper entry stored
  have plainNames := tree.noneUp stored
  rw [isPlace] at proper plainNames
  obtain ⟨front, shape, isFront, frontPlace⟩ := exists_front_path dir proper
  have properName : ProperName name :=
    proper name (List.mem_append_right above List.mem_cons_self)
  rw [List.mem_append, not_or] at plainNames
  obtain ⟨before, isParts, plain⟩ := parts_append isFront properName.noSlash
    (frontPlace ▸ plainNames.1)
  have isDown : partOf name = .down name := by
    rw [partOf_of_notUp properName.notUp,
      if_pos ⟨properName.nonempty, properName.notDot⟩]
  have directories : ∀ inner, inner ≠ [] → inner <+: above →
      tree.entries.look ([] ++ inner) = some .directory := by
    intro inner nonempty inFront
    have shorter : inner ≠ entry.location := by
      intro same
      have length := inFront.length_le
      rw [same, isPlace, List.length_append, List.length_singleton] at length
      omega
    apply look_above stored nonempty _ shorter
    rw [isPlace]
    exact inFront.trans (List.prefix_append above [name])
  refine ⟨above, name, isPlace, ?_⟩
  rw [frontPlace] at plain
  rw [isPlace, shape, follow, isParts, isDown, route]
  exact routeParts_of_directories plain directories [.down name]

theorem follow_path_of_notLink (stored : entry ∈ tree.entries.rows)
    (dir : Bytes)
    (notLink : ∀ target, entry.node ≠ .link target) :
    follow (depth + 1) tree.entries (lead dir ++ joinPath entry.location) =
      some entry.location := by
  obtain ⟨above, name, isPlace, leads⟩ := follow_path stored dir
  have kind := look_of_stored stored
  rw [isPlace] at kind leads ⊢
  rw [leads, routeParts, kind]
  cases isNode : entry.node with
  | directory => rfl
  | file content => rfl
  | link target => exact absurd isNode (notLink target)

theorem follow_path_of_link (stored : link ∈ tree.entries.rows)
    (dir : Bytes) (isLink : link.node = .link target) :
    follow (depth + 1) tree.entries (lead dir ++ joinPath link.location) =
      (linkRoute depth tree.entries link.location target).reached := by
  obtain ⟨above, name, isPlace, leads⟩ := follow_path stored dir
  have kind := look_of_stored stored
  rw [isPlace, isLink] at kind
  rw [isPlace] at leads ⊢
  rw [leads, routeParts, kind, linkRoute, List.dropLast_concat]
  dsimp only [Node.kind]
  rw [List.append_nil]
  rfl

/-! ### The tree after a run -/

/-- A run leaves a tree. -/
theorem exists_tree_runTool (overFile : Bool)
    (inOrder : ∀ turn, (order turn).Perm nameMap)
    (root : RootDirectory tree.entries dir)
    (apart : SiblingsApart tree.entries dir) (free : RootFree tree.entries dir)
    (inWalk : visits.map Visit.path = walk tree.entries dir)
    (statable : ∀ visit ∈ visits, Statable links tree.entries visit) :
    ∃ later : DirectoryTree, later.entries =
      runTool overFile links order visits tree.entries := by
  have separate : Separate dir (writtenTree links visits tree).entries :=
    separate_start (rootDirectory_writtenTree root).present (siblingsApart_mapNodes apart)
      (rootFree_mapNodes free)
  have beside : ∀ path ∈
      (walk (writtenTree links visits tree).entries dir).reverse,
      Beside dir (locate path) (newPlace path) := by
    intro path member
    exact beside_of_mem_walk (List.mem_reverse.mp member)
  have settles : Settles dir (writtenTree links visits tree)
      (renameCalls overFile order (fun _ => false) 0 []
        (walk (writtenTree links visits tree).entries dir).reverse
        (writtenTree links visits tree).entries).2 :=
    settles_renameCalls inOrder separate beside
      ⟨⟨_, rfl⟩, List.Perm.refl _⟩
  obtain ⟨later, isLater⟩ := settles.isTree
  refine ⟨later, ?_⟩
  rw [isLater, renameCalls_eq_renameLoop,
    runTool_of_statable tree inWalk statable, modifyFileName]

section After

variable (atEnd : Finished links visits tree dir later.entries)

include atEnd

/-- Everything after the run is an entry of the tree at its final place. -/
theorem exists_before (stored : entry ∈ later.entries.rows) :
    ∃ source ∈ tree.entries.rows,
      entry.location = finalPlace dir source.location ∧
      entry.node =
        rewriteNode links tree.entries visits source.location source.node := by
  obtain ⟨written, writtenStored, rfl⟩ :=
    List.mem_map.mp (atEnd.mem_iff.mp stored)
  obtain ⟨source, sourceStored, rfl⟩ := mem_mapNodes.mp writtenStored
  exact ⟨source, sourceStored, rfl, rfl⟩

theorem exists_later (stored : entry ∈ tree.entries.rows) :
    ∃ moved ∈ later.entries.rows,
      moved.location = finalPlace dir entry.location ∧
      moved.node =
        rewriteNode links tree.entries visits entry.location entry.node := by
  have found := atEnd.find_finalPlace (Table.find_of_mem stored)
  exact ⟨_, Table.mem_of_find found, rfl, rfl⟩

theorem rootDirectory_later (root : RootDirectory tree.entries dir) :
    RootDirectory later.entries (renamedPath dir) := by
  rw [RootDirectory, locate_renamedPath]
  rcases root with top | known
  · exact Or.inl (newPlace_of_top top)
  · obtain ⟨root, stored, isPlace, isDirectory⟩ := known
    obtain ⟨moved, movedStored, movedPlace, movedNode⟩ :=
      exists_later atEnd stored
    refine Or.inr ⟨moved, movedStored, ?_, ?_⟩
    · rw [movedPlace, isPlace, finalPlace_locate]
    · rw [movedNode, isDirectory, rewriteNode_directory]

/-- What is below the directory after the run was below it before. -/
theorem exists_below (free : RootFree tree.entries dir)
    (isBelow : entry ∈ below later.entries (renamedPath dir)) :
    ∃ source ∈ below tree.entries dir,
      entry.location = finalPlace dir source.location ∧
      entry.node =
        rewriteNode links tree.entries visits source.location source.node := by
  obtain ⟨stored, inFront, different⟩ := mem_below.mp isBelow
  rw [locate_renamedPath] at inFront different
  obtain ⟨source, sourceStored, isPlace, isNode⟩ := exists_before atEnd stored
  refine ⟨source, mem_below.mpr ⟨sourceStored, ?_, ?_⟩, isPlace, isNode⟩
  · by_contra outside
    rw [isPlace, finalPlace_of_outside outside] at inFront
    by_cases same : newPlace dir = locate dir
    · exact outside (same ▸ inFront)
    · exact newPlace_notInFront_of_free same (free.resolve_left same)
        sourceStored inFront
  · intro isRoot
    rw [isPlace, isRoot, finalPlace_locate] at different
    exact different rfl

theorem below_later (isBelow : entry ∈ below tree.entries dir) :
    ∃ moved ∈ below later.entries (renamedPath dir),
      moved.location = finalPlace dir entry.location ∧
      moved.node =
        rewriteNode links tree.entries visits entry.location entry.node := by
  obtain ⟨stored, inFront, different⟩ := mem_below.mp isBelow
  obtain ⟨moved, movedStored, isPlace, isNode⟩ := exists_later atEnd stored
  obtain ⟨names, isNames⟩ := inFront
  refine ⟨moved, mem_below.mpr ⟨movedStored, ?_, ?_⟩, isPlace, isNode⟩
  · rw [locate_renamedPath, isPlace, ← isNames, finalPlace_append]
    exact List.prefix_append _ _
  · intro isRoot
    rw [locate_renamedPath, isPlace, ← isNames, finalPlace_append] at isRoot
    have none := List.map_eq_nil_iff.mp (List.append_right_eq_self.mp isRoot)
    rw [none, List.append_nil] at isNames
    exact different isNames.symm

/-! ### Links after a run -/

/-- A link that led to an entry leads to it or to nothing. -/
theorem linkRoute_later (free : RootFree tree.entries dir)
    (reached : (linkRoute depth tree.entries link.location target).reached =
      some goal) :
    ((∀ place ∈ (linkRoute depth tree.entries link.location target).visited,
        NameKept dir place) →
      (linkRoute depth later.entries (finalPlace dir link.location)
        target).reached = some (finalPlace dir goal)) ∧
    ((∃ place ∈ (linkRoute depth tree.entries link.location target).visited,
        ¬ NameKept dir place) →
      (linkRoute depth later.entries (finalPlace dir link.location)
        target).reached = none) := by
  have start :
      finalPlace dir (if [slash].isPrefixOf target then []
          else link.location.dropLast) =
        if [slash].isPrefixOf target then []
        else (finalPlace dir link.location).dropLast := by
    rw [apply_ite (finalPlace dir), finalPlace_nil, finalPlace_dropLast]
  have follows := route_follows (atEnd.relocates free) depth _ (parts target)
    goal reached
  rw [start] at follows
  exact follows

end After

theorem goal_mem_places
    (stored : link ∈ tree.entries.rows)
    (reached : (linkRoute depth tree.entries link.location target).reached =
      some goal) : goal ∈ tree.places := by
  have up : ∀ place ∈ tree.places, place.dropLast ∈ tree.places :=
    fun place member => prefixClosed_places tree place member _
      (List.dropLast_prefix place)
  have found : ∀ place, (tree.entries.look place).isSome →
      place ∈ tree.places := by
    intro place isFound
    rw [FileSystem.look, Option.isSome_map] at isFound
    obtain ⟨entry, isEntry⟩ := Option.isSome_iff_exists.mp isFound
    obtain ⟨stored, isPlace⟩ := Table.find_eq_some_iff.mp isEntry
    exact Or.inr ⟨entry, stored, isPlace⟩
  apply route_mem (Or.inl rfl) up found _ reached
  split_ifs
  · exact Or.inl rfl
  · exact up _ (Or.inr ⟨link, stored, rfl⟩)

theorem exists_visit {fs : FileSystem}
    (inWalk : visits.map Visit.path = walk fs dir)
    (isBelow : entry ∈ below fs dir) :
    ∃ visit ∈ visits, visit.path = lead dir ++ joinPath entry.location := by
  have listed : lead dir ++ joinPath entry.location ∈ visits.map Visit.path :=
    inWalk ▸ List.mem_cons_of_mem _ (List.mem_map_of_mem isBelow)
  exact List.mem_map.mp listed

/-- In a run that ends, every link below the directory leads somewhere. -/
theorem exists_goal (inWalk : visits.map Visit.path = walk tree.entries dir)
    (statable : ∀ visit ∈ visits, Statable (depth + 1) tree.entries visit)
    (isBelow : link ∈ below tree.entries dir) (isLink : link.node = .link target) :
    ∃ visit ∈ visits, ∃ goal,
      follow (depth + 1) tree.entries visit.path = some goal ∧
      (linkRoute depth tree.entries link.location target).reached =
        some goal := by
  obtain ⟨visit, member, isPath⟩ := exists_visit inWalk isBelow
  obtain ⟨goal, leads⟩ := Option.isSome_iff_exists.mp (statable visit member).2
  refine ⟨visit, member, goal, leads, ?_⟩
  rw [← follow_path_of_link (mem_below.mp isBelow).1 dir isLink, ← isPath]
  exact leads

theorem rewriteNode_eq_link_iff {fs : FileSystem} {place : Location}
    {node : Node} :
    rewriteNode links fs visits place node = .link target ↔
      node = .link target := by
  cases node with
  | file content =>
      rw [rewriteNode_file]
      exact iff_of_false nofun nofun
  | directory => rw [rewriteNode_directory]
  | link other => rw [rewriteNode_link]

theorem finished_finished (content : Bytes) :
    finished (finished content) = finished content := by
  rw [finished, length_finished]
  split_ifs with tooLarge
  · rfl
  · rw [finished, if_neg tooLarge, substituted_substituted]

/-- A file that a turn leads to, in a pass that works, is finished. -/
theorem rewriteAll_visitsTo {fs : FileSystem} {visit : Visit}
    (inOrder : ∀ visit ∈ visits, visit.order.Perm nameMap)
    (works : ∀ visit ∈ visits, ∀ place ident content,
      follow links fs visit.path = some place →
        fs.find place = some ⟨place, ident, .file content⟩ →
          Works visit.answers content)
    (stored : entry ∈ fs.rows) (isFile : entry.node = .file content)
    (member : visit ∈ visits)
    (leads : follow links fs visit.path = some entry.location) :
    rewriteAll (visitsTo links fs visits entry.location) content =
      finished content := by
  have found := Table.find_of_mem stored
  apply rewriteAll_eq_finished
  · intro other inTurns
    exact inOrder other (mem_visitsTo.mp inTurns).1
  · intro other inTurns
    obtain ⟨isVisit, leadsTo⟩ := mem_visitsTo.mp inTurns
    refine works other isVisit _ entry.ident content leadsTo ?_
    rw [← isFile]
    exact found
  · exact List.ne_nil_of_mem (mem_visitsTo.mpr ⟨member, leads⟩)

/-! ### The second run -/

section Second

variable (atEnd : Finished (depth + 1) visits tree dir later.entries)
  (root : RootDirectory tree.entries dir) (free : RootFree tree.entries dir)
  (inWalk : visits.map Visit.path = walk tree.entries dir)
  (statable : ∀ visit ∈ visits, Statable (depth + 1) tree.entries visit)

include atEnd root free inWalk statable

/-- The second run ends exactly if the links were kept. -/
theorem statable_later_iff
    (inWalkAgain : visitsAgain.map Visit.path =
      walk later.entries (renamedPath dir))
    (answers : ∀ visit ∈ visitsAgain, visit.answers.stat) :
    (∀ visit ∈ visitsAgain, Statable (depth + 1) later.entries visit) ↔
      LinksKept depth tree dir := by
  constructor
  · intro statableAgain link isBelow target isLink
    by_contra lost
    push Not at lost
    obtain ⟨visit, _, goal, _, reached⟩ :=
      exists_goal inWalk statable isBelow isLink
    obtain ⟨moved, movedBelow, isPlace, isNode⟩ := below_later atEnd isBelow
    rw [isLink, rewriteNode_link] at isNode
    obtain ⟨visit, member, isPath⟩ := exists_visit inWalkAgain movedBelow
    have leads := (statableAgain visit member).2
    rw [isPath, follow_path_of_link (mem_below.mp movedBelow).1 _
      isNode, isPlace, (linkRoute_later atEnd free reached).2 lost] at leads
    cases leads
  · intro kept visit member
    refine ⟨answers visit member, ?_⟩
    have listed : visit.path ∈ walk later.entries (renamedPath dir) :=
      inWalkAgain ▸ List.mem_map_of_mem member
    rcases List.mem_cons.mp listed with isRoot | isBelow
    · rw [isRoot, follow_root (rootDirectory_later atEnd root)]
      rfl
    · obtain ⟨moved, movedBelow, isPath⟩ := List.mem_map.mp isBelow
      obtain ⟨source, sourceBelow, isPlace, isNode⟩ :=
        exists_below atEnd free movedBelow
      rw [← isPath]
      by_cases isLink : ∃ target, source.node = .link target
      · obtain ⟨target, isLink⟩ := isLink
        obtain ⟨_, _, goal, _, reached⟩ :=
          exists_goal inWalk statable sourceBelow isLink
        rw [isLink, rewriteNode_link] at isNode
        rw [follow_path_of_link (mem_below.mp movedBelow).1 _ isNode,
          isPlace, (linkRoute_later atEnd free reached).1
            (kept source sourceBelow target isLink)]
        rfl
      · rw [follow_path_of_notLink (mem_below.mp movedBelow).1]
        · rfl
        · intro target isTarget
          rw [isNode, rewriteNode_eq_link_iff] at isTarget
          exact isLink ⟨target, isTarget⟩

/-- A file that the second run gets to is one that the first run got to. -/
theorem exists_visit_before
    (listed : path ∈ walk later.entries (renamedPath dir))
    (stored : entry ∈ later.entries.rows) (isFile : entry.node = .file content)
    (leads : follow (depth + 1) later.entries path = some entry.location) :
    ∃ source ∈ tree.entries.rows,
      entry.node = rewriteNode (depth + 1) tree.entries visits source.location
        source.node ∧
      ∃ visit ∈ visits,
        follow (depth + 1) tree.entries visit.path = some source.location := by
  have nonempty := later.nonempty entry stored
  rcases List.mem_cons.mp listed with isRoot | isBelow
  · have rootLater := rootDirectory_later atEnd root
    rw [isRoot, follow_root rootLater] at leads
    rcases rootLater with top | known
    · rw [top] at leads
      exact absurd (Option.some.inj leads).symm nonempty
    · obtain ⟨rootEntry, rootStored, isPlace, isDirectory⟩ := known
      have same := later.entries.eq_of_key_eq rootStored stored
        (isPlace.trans (Option.some.inj leads))
      rw [same, isFile] at isDirectory
      cases isDirectory
  · obtain ⟨moved, movedBelow, rfl⟩ := List.mem_map.mp isBelow
    obtain ⟨source, sourceBelow, isPlace, isNode⟩ :=
      exists_below atEnd free movedBelow
    have movedStored := (mem_below.mp movedBelow).1
    have sourceStored := (mem_below.mp sourceBelow).1
    by_cases isLink : ∃ target, source.node = .link target
    · obtain ⟨target, isLink⟩ := isLink
      obtain ⟨visit, member, goal, leadsBefore, reached⟩ :=
        exists_goal inWalk statable sourceBelow isLink
      rw [isLink, rewriteNode_link] at isNode
      rw [follow_path_of_link movedStored _ isNode, isPlace] at leads
      have route := linkRoute_later atEnd free reached
      have kept : ∀ place ∈ (linkRoute depth tree.entries source.location
          target).visited, NameKept dir place := by
        by_contra lost
        push Not at lost
        rw [route.2 lost] at leads
        cases leads
      rw [route.1 kept] at leads
      rcases goal_mem_places sourceStored reached with top | known
      · rw [top, finalPlace_nil] at leads
        exact absurd (Option.some.inj leads).symm nonempty
      · obtain ⟨file, fileStored, filePlace⟩ := known
        obtain ⟨after, afterStored, afterPlace, afterNode⟩ :=
          exists_later atEnd fileStored
        rw [filePlace] at afterPlace
        have same := later.entries.eq_of_key_eq afterStored stored
          (afterPlace.trans (Option.some.inj leads))
        refine ⟨file, fileStored, same ▸ afterNode, visit, member, ?_⟩
        rw [filePlace]
        exact leadsBefore
    · have notLink : ∀ target, source.node ≠ .link target :=
        fun target isTarget => isLink ⟨target, isTarget⟩
      rw [follow_path_of_notLink movedStored] at leads
      · have same := later.entries.eq_of_key_eq movedStored stored
          (Option.some.inj leads)
        obtain ⟨visit, member, isPath⟩ := exists_visit inWalk sourceBelow
        refine ⟨source, sourceStored, same ▸ isNode, visit, member, ?_⟩
        rw [isPath]
        exact follow_path_of_notLink sourceStored dir notLink
      · intro target isTarget
        rw [isNode, rewriteNode_eq_link_iff] at isTarget
        exact notLink target isTarget

/-- A file that the second run gets to has nothing left to replace. -/
theorem finished_content
    (inOrder : ∀ visit ∈ visits, visit.order.Perm nameMap)
    (works : ∀ visit ∈ visits, ∀ place ident content,
      follow (depth + 1) tree.entries visit.path = some place →
        tree.entries.find place = some ⟨place, ident, .file content⟩ →
          Works visit.answers content)
    (listed : path ∈ walk later.entries (renamedPath dir))
    (stored : entry ∈ later.entries.rows) (isFile : entry.node = .file content)
    (leads : follow (depth + 1) later.entries path = some entry.location) :
    finished content = content := by
  obtain ⟨source, sourceStored, sameNode, visit, member, led⟩ :=
    exists_visit_before atEnd root free inWalk statable listed stored
      isFile leads
  cases sourceNode : source.node with
  | file old =>
      rw [isFile, sourceNode, rewriteNode_file, rewriteAll_visitsTo inOrder works
        sourceStored sourceNode member led] at sameNode
      rw [Node.file.inj sameNode, finished_finished]
  | directory =>
      rw [isFile, sourceNode, rewriteNode_directory] at sameNode
      cases sameNode
  | link target =>
      rw [isFile, sourceNode, rewriteNode_link] at sameNode
      cases sameNode

/-- Turns that work leave the contents as they are. -/
theorem contents_kept
    (inOrder : ∀ visit ∈ visits, visit.order.Perm nameMap)
    (inOrderAgain : ∀ visit ∈ visitsAgain, visit.order.Perm nameMap)
    (works : ∀ visit ∈ visits, ∀ place ident content,
      follow (depth + 1) tree.entries visit.path = some place →
        tree.entries.find place = some ⟨place, ident, .file content⟩ →
          Works visit.answers content)
    (inWalkAgain : visitsAgain.map Visit.path =
      walk later.entries (renamedPath dir))
    (worksAgain : ∀ visit ∈ visitsAgain, ∀ place ident content,
      follow (depth + 1) later.entries visit.path = some place →
        later.entries.find place = some ⟨place, ident, .file content⟩ →
          Works visit.answers content) :
    settled (modifyFileContent (depth + 1) visitsAgain later.entries) =
      later.entries := by
  have performedIn : ∀ visit ∈ performed (depth + 1) later.entries visitsAgain,
      visit ∈ visitsAgain :=
    (List.takeWhile_sublist _).subset
  rw [settled_modifyFileContent]
  conv_rhs => rw [← mapNodes_rewriteNode_nil (depth + 1) later.entries]
  apply mapNodes_eq_iff.mpr
  intro entry stored
  cases isNode : entry.node with
  | file content =>
      rw [rewriteNode_file, rewriteNode_file]
      rcases eq_or_ne (visitsTo (depth + 1) later.entries
        (performed (depth + 1) later.entries visitsAgain) entry.location) []
          with never | nonempty
      · rw [never]
        rfl
      · obtain ⟨visit, member⟩ := List.exists_mem_of_ne_nil _ nonempty
        obtain ⟨isPerformed, leads⟩ := mem_visitsTo.mp member
        have listed : visit.path ∈ walk later.entries (renamedPath dir) :=
          inWalkAgain ▸ List.mem_map_of_mem (performedIn visit isPerformed)
        rw [rewriteAll_visitsTo
          (fun other performs => inOrderAgain other (performedIn other performs))
          (fun other performs => worksAgain other (performedIn other performs))
          stored isNode isPerformed leads,
          finished_content atEnd root free inWalk statable inOrder works
            listed stored isNode leads]
        rfl
  | directory => rw [rewriteNode_directory, rewriteNode_directory]
  | link target => rw [rewriteNode_link, rewriteNode_link]

omit root inWalk statable in
/-- Every name is new. -/
theorem newPlace_eq_locate
    (listed : path ∈ walk later.entries (renamedPath dir)) :
    newPlace path = locate path := by
  rcases List.mem_cons.mp listed with isRoot | isBelow
  · rw [isRoot, newPlace_renamedPath, locate_renamedPath]
  · obtain ⟨moved, movedBelow, rfl⟩ := List.mem_map.mp isBelow
    obtain ⟨source, sourceBelow, isPlace, _⟩ := exists_below atEnd free movedBelow
    obtain ⟨same, changed⟩ :=
      locate_path (renamedPath dir) (mem_below.mp movedBelow).1
    obtain ⟨_, inFront, different⟩ := mem_below.mp sourceBelow
    obtain ⟨names, isNames⟩ := inFront
    rcases List.eq_nil_or_concat names with empty | concat
    · rw [empty, List.append_nil] at isNames
      exact absurd isNames.symm different
    · obtain ⟨front, name, rfl⟩ := concat
      rw [same, changed, isPlace, ← isNames, finalPlace_append,
        List.concat_eq_append, List.map_append, List.map_singleton,
        ← List.append_assoc, sibling_concat, substituted_substituted]

omit root inWalk statable in
theorem names_kept (inOrderAgain : ∀ turn, (again turn).Perm nameMap) :
    modifyFileName overFile again (walk later.entries (renamedPath dir))
      later.entries = later.entries := by
  rw [modifyFileName, renameLoop_eq_foldl inOrderAgain]
  apply foldl_of_settled
  intro path listed
  have same := newPlace_eq_locate atEnd free (List.mem_reverse.mp listed)
  rw [renameTo, if_neg (not_not.mpr same)]

end Second

/-- After a run in which everything worked, one more run in which everything
works changes nothing at all, where its path is that of the first run with the
last component renamed.  It ends without a panic exactly if the links below the
directory led through no place that got a new name.

Another path of the directory is another run: after `eoslib/`, which keeps the
name of the directory, a run over `eoslib` still renames it. -/
theorem second_run_changes_nothing (overFile : Bool) (depth : ℕ)
    (order again : ℕ → List (Bytes × Bytes))
    (inOrder : ∀ turn, (order turn).Perm nameMap)
    (inOrderAgain : ∀ turn, (again turn).Perm nameMap) (tree : DirectoryTree)
    (dir : Bytes) (root : RootDirectory tree.entries dir)
    (apart : SiblingsApart tree.entries dir) (free : RootFree tree.entries dir)
    (visits visitsAgain : List Visit)
    (visitsInOrder : ∀ visit ∈ visits, visit.order.Perm nameMap)
    (visitsAgainInOrder : ∀ visit ∈ visitsAgain, visit.order.Perm nameMap)
    (inWalk : visits.map Visit.path = walk tree.entries dir)
    (statable : ∀ visit ∈ visits, Statable (depth + 1) tree.entries visit)
    (works : ∀ visit ∈ visits, ∀ place ident content,
      follow (depth + 1) tree.entries visit.path = some place →
        tree.entries.find place = some ⟨place, ident, .file content⟩ →
          Works visit.answers content)
    (after : FileSystem)
    (ended : runTool overFile (depth + 1) order visits tree.entries = after)
    (inWalkAgain : visitsAgain.map Visit.path = walk after (renamedPath dir))
    (answers : ∀ visit ∈ visitsAgain, visit.answers.stat)
    (worksAgain : ∀ visit ∈ visitsAgain, ∀ place ident content,
      follow (depth + 1) after visit.path = some place →
        after.find place = some ⟨place, ident, .file content⟩ →
          Works visit.answers content) :
    runTool overFile (depth + 1) again visitsAgain after = after ∧
    ((∃ written, modifyFileContent (depth + 1) visitsAgain after =
        .ok written) ↔ LinksKept depth tree dir) := by
  have atEnd : Finished (depth + 1) visits tree dir after :=
    ended ▸ finished_runTool inOrder root apart free inWalk statable
  obtain ⟨later, isLater⟩ :=
    exists_tree_runTool overFile inOrder root apart free inWalk statable
  rw [ended] at isLater
  subst isLater
  constructor
  · have kept := contents_kept atEnd root free inWalk statable
      visitsInOrder visitsAgainInOrder works inWalkAgain worksAgain
    rw [runTool]
    cases written :
        modifyFileContent (depth + 1) visitsAgain later.entries with
    | error stopped =>
        rw [written] at kept
        exact kept
    | ok contents =>
        rw [written] at kept
        rw [show contents = later.entries from kept, inWalkAgain]
        exact names_kept atEnd free inOrderAgain
  · rw [← statable_later_iff atEnd root free inWalk statable inWalkAgain
      answers]
    constructor
    · intro ends
      obtain ⟨written, isWritten⟩ := ends
      by_contra stops
      rw [modifyFileContent_of_not_statable stops] at isWritten
      cases isWritten
    · intro statableAgain
      exact ⟨_, modifyFileContent_of_statable statableAgain⟩

/-- The tree `linked` after a run. -/
def linkedAfter : FileSystem :=
  runTool false 40 (fun _ => nameMap)
    (smoothVisits (walk linked.entries "d".toUTF8.toList)) linked.entries

/-- The second run over `linked`, which panics at the link `l`. -/
theorem second_run_changes_nothing_linked :
    runTool false 40 (fun _ => nameMap)
        (smoothVisits (walk linkedAfter (renamedPath "d".toUTF8.toList)))
        linkedAfter = linkedAfter ∧
      ((∃ written, modifyFileContent 40
          (smoothVisits (walk linkedAfter (renamedPath "d".toUTF8.toList)))
          linkedAfter = .ok written) ↔
        LinksKept 39 linked "d".toUTF8.toList) :=
  second_run_changes_nothing false 39 (fun _ => nameMap)
    (fun _ => nameMap) (fun _ => List.Perm.refl nameMap)
    (fun _ => List.Perm.refl nameMap) linked "d".toUTF8.toList
    (by decide +kernel) siblingsApart_linked (by decide +kernel) _ _
    perm_of_mem_smoothVisits perm_of_mem_smoothVisits (by decide +kernel) (by decide +kernel)
    (works_smoothVisits (by decide +kernel)) linkedAfter rfl
    (by decide +kernel) (by decide +kernel)
    (works_smoothVisits (by decide +kernel))

example : ¬ LinksKept 39 linked "d".toUTF8.toList := by
  intro kept
  have onRoute := kept
    ⟨["d".toUTF8.toList, "l".toUTF8.toList], 4,
      .link "../d/Eos".toUTF8.toList⟩ (by decide +kernel) _ rfl
  exact absurd onRoute (by decide +kernel)

end Bright.Rename
