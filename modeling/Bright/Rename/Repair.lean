import Bright.Rename.Restart

/-!
# What a second run repairs

Whatever stopped the contents pass, a pass that works gives every file the
content that it would have got at once, exactly if no file has been cut short.
-/

namespace Bright.Rename

open Bright.Lib

/-- Every file is as it was, or substituted if it is not too large. -/
def LeavesWhole (before after : FileSystem) : Prop :=
  ∀ entry ∈ before.rows, ∀ content, entry.node = .file content →
    after.find entry.location = some entry ∨
      content.length ≤ maxFileSize ∧ after.find entry.location =
        some { entry with node := .file (substituted content) }

def Node.size : Node → ℕ
  | .file content => content.length
  | _ => 0

variable {overFile : Bool} {links : ℕ} {order : ℕ → List (Bytes × Bytes)}
  {visits interrupted : List Visit} {fs : FileSystem} {tree : DirectoryTree}
  {dir : Bytes} {place : Location} {content left : Bytes} {entry : Entry}

/-! ### One file -/

/-- What a pass that works makes of a file. -/
def finished (content : Bytes) : Bytes :=
  if maxFileSize < content.length then content else substituted content

theorem length_finished (content : Bytes) :
    (finished content).length = content.length := by
  rw [finished]
  split_ifs
  · rfl
  · exact length_substituted content

theorem rewriteAll_eq_finished
    (inOrder : ∀ visit ∈ visits, visit.order.Perm nameMap)
    (works : ∀ visit ∈ visits, Works visit.answers content)
    (nonempty : visits ≠ []) : rewriteAll visits content = finished content := by
  rw [finished]
  split_ifs with tooLarge
  · apply (rewriteAll_eq_self_iff inOrder).mpr
    intro visit member written truncates
    have fits := truncates.fits (works visit member).measured
    exact absurd tooLarge (Nat.not_lt.mpr fits)
  · exact rewriteAll_of_works inOrder works (Nat.not_lt.mp tooLarge) nonempty

theorem works_mono (shorter : left.length ≤ content.length)
    {answers : Answers} (works : Works answers content) :
    Works answers left where
  opened := works.opened
  measured := works.measured
  rewound := works.rewound
  read := works.read
  written := by
    obtain ⟨written, outcome, enough⟩ := works.written
    exact ⟨written, outcome, shorter.trans enough⟩

/-- Turns on a file leave it, substitute it or cut it short. -/
theorem rewriteAll_cases
    (inOrder : ∀ visit ∈ visits, visit.order.Perm nameMap) (content : Bytes) :
    rewriteAll visits content = content ∨
      rewriteAll visits content = substituted content ∨
      (rewriteAll visits content).length < content.length := by
  induction visits generalizing content with
  | nil => exact Or.inl rfl
  | cons visit visits inductionHypothesis =>
      obtain ⟨firstInOrder, laterInOrder⟩ := List.forall_mem_cons.mp inOrder
      have later := inductionHypothesis laterInOrder
        (rewriteFile visit.order visit.answers content)
      rw [rewriteAll, List.foldl_cons, ← rewriteAll]
      rcases rewriteFile_cases firstInOrder visit.answers content
        with same | changed | cut
      · rw [same] at later ⊢
        exact later
      · rw [changed, substituted_substituted, length_substituted] at later
        rw [changed]
        rcases later with same | same | cut
        · exact Or.inr (Or.inl same)
        · exact Or.inr (Or.inl same)
        · exact Or.inr (Or.inr cut)
      · right
        right
        rcases later with same | same | shorter
        · rw [same]
          exact cut
        · rw [same, length_substituted]
          exact cut
        · exact shorter.trans cut

/-- A file that turns have left is finished like the old one exactly if it is
still whole. -/
theorem finished_eq_iff
    (isLeft : left = content ∨ left = substituted content ∨
      left.length < content.length) :
    finished left = finished content ↔
      left = content ∨ content.length ≤ maxFileSize ∧
        left = substituted content := by
  constructor
  · intro same
    have sameLength := congrArg List.length same
    rw [length_finished, length_finished] at sameLength
    rcases isLeft with whole | whole | cut
    · exact Or.inl whole
    · by_cases fits : content.length ≤ maxFileSize
      · exact Or.inr ⟨fits, whole⟩
      · left
        have tooLarge := Nat.not_le.mp fits
        rw [finished, finished, sameLength, if_pos tooLarge, if_pos tooLarge]
          at same
        exact same
    · exact absurd sameLength cut.ne
  · intro whole
    rcases whole with same | substitutes
    · rw [same]
    · obtain ⟨fits, same⟩ := substitutes
      have notTooLarge := Nat.not_lt.mpr fits
      rw [same, finished, finished, length_substituted, if_neg notTooLarge,
        if_neg notTooLarge, substituted_substituted]

/-! ### The contents pass -/

theorem rewriteNode_mapNodes (change : Location → Node → Node)
    (keepsKind : ∀ place node, (change place node).kind = node.kind)
    (links : ℕ) (fs : FileSystem) (visits : List Visit) :
    rewriteNode links (fs.mapNodes change) visits =
      rewriteNode links fs visits := by
  funext place node
  rw [rewriteNode, rewriteNode]
  simp only [visitNode, follow_mapNodes keepsKind]

theorem rewriteNode_directory (place : Location) :
    rewriteNode links fs visits place .directory = .directory :=
  rewriteNode_of_not_file nofun

theorem rewriteNode_link (place : Location) (target : Bytes) :
    rewriteNode links fs visits place (.link target) = .link target :=
  rewriteNode_of_not_file nofun

theorem mapNodes_eq_iff {first second : Location → Node → Node} :
    fs.mapNodes first = fs.mapNodes second ↔
      ∀ entry ∈ fs.rows,
        first entry.location entry.node = second entry.location entry.node := by
  constructor
  · intro same entry stored
    have found := congrArg (fun after => Table.find after entry.location) same
    rw [find_mapNodes, find_mapNodes, Table.find_of_mem stored] at found
    exact congrArg Entry.node (Option.some.inj found)
  · intro same
    apply Table.ext
    apply List.map_congr_left
    intro entry stored
    rw [same entry stored]

/-- The second pass gives every node what it would have got at once exactly if
the first one has left the files whole. -/
theorem rewritten_again_iff {first : List Visit}
    (firstInOrder : ∀ visit ∈ first, visit.order.Perm nameMap)
    (inOrder : ∀ visit ∈ visits, visit.order.Perm nameMap)
    (listed : ∀ visit ∈ first, ∃ again ∈ visits, again.path = visit.path)
    (works : ∀ visit ∈ visits, ∀ place ident content,
      follow links fs visit.path = some place →
        fs.find place = some ⟨place, ident, .file content⟩ →
          Works visit.answers content) :
    (∀ entry ∈ fs.rows,
        rewriteNode links fs visits entry.location
            (rewriteNode links fs first entry.location entry.node) =
          rewriteNode links fs visits entry.location entry.node) ↔
      LeavesWhole fs (fs.mapNodes (rewriteNode links fs first)) := by
  have inFile : ∀ entry ∈ fs.rows, ∀ content, entry.node = .file content →
      (rewriteNode links fs visits entry.location
            (rewriteNode links fs first entry.location entry.node) =
          rewriteNode links fs visits entry.location entry.node ↔
        (fs.mapNodes (rewriteNode links fs first)).find entry.location =
            some entry ∨
          content.length ≤ maxFileSize ∧
            (fs.mapNodes (rewriteNode links fs first)).find entry.location =
              some { entry with node := .file (substituted content) }) := by
    intro entry stored content isFile
    obtain ⟨place, ident, node⟩ := entry
    obtain rfl : node = .file content := isFile
    have found := Table.find_of_mem stored
    dsimp only at found ⊢
    rw [find_mapNodes, found, Option.map_some]
    simp only [rewriteNode_file, Option.some.injEq, Entry.mk.injEq, true_and,
      Node.file.injEq]
    have firstInOrderHere : ∀ visit ∈ visitsTo links fs first place,
        visit.order.Perm nameMap :=
      fun visit member => firstInOrder visit (mem_visitsTo.mp member).1
    have cases := rewriteAll_cases firstInOrderHere content
    rcases eq_or_ne (visitsTo links fs visits place) [] with never | nonempty
    · -- No path of the walk leads to the file, so the first pass left it alone.
      have neverFirst : visitsTo links fs first place = [] := by
        apply List.eq_nil_iff_forall_not_mem.mpr
        intro visit member
        obtain ⟨inFirst, leads⟩ := mem_visitsTo.mp member
        obtain ⟨again, isAgain, samePath⟩ := listed visit inFirst
        have isVisit := mem_visitsTo.mpr ⟨isAgain, samePath ▸ leads⟩
        rw [never] at isVisit
        cases isVisit
      rw [never, neverFirst]
      exact iff_of_true rfl (Or.inl rfl)
    · have inOrderHere : ∀ visit ∈ visitsTo links fs visits place,
          visit.order.Perm nameMap :=
        fun visit member => inOrder visit (mem_visitsTo.mp member).1
      have worksHere : ∀ visit ∈ visitsTo links fs visits place,
          Works visit.answers content := by
        intro visit member
        obtain ⟨isVisit, leads⟩ := mem_visitsTo.mp member
        exact works visit isVisit place ident content leads found
      have shorter : (rewriteAll (visitsTo links fs first place)
          content).length ≤ content.length := by
        rcases cases with same | changed | cut
        · rw [same]
        · rw [changed, length_substituted]
        · exact cut.le
      rw [rewriteAll_eq_finished inOrderHere worksHere nonempty,
        rewriteAll_eq_finished inOrderHere
          (fun visit member => works_mono shorter (worksHere visit member))
          nonempty]
      exact finished_eq_iff cases
  constructor
  · intro same entry stored content isFile
    exact (inFile entry stored content isFile).mp (same entry stored)
  · intro whole entry stored
    cases node : entry.node with
    | file content =>
        rw [← node]
        exact (inFile entry stored content node).mpr
          (whole entry stored content node)
    | directory => rw [rewriteNode_directory, rewriteNode_directory]
    | link target => rw [rewriteNode_link, rewriteNode_link]

/-- After a contents pass that was stopped anywhere, in which any operations
may have failed, a second pass over a new walk that meets no error ends as it
would have at once, exactly if every file is still whole. -/
theorem contents_pass_repairs_iff (overFile : Bool) (links : ℕ)
    (order : ℕ → List (Bytes × Bytes)) (fs : FileSystem) (dir : Bytes)
    (interrupted visits : List Visit)
    (interruptedInOrder : ∀ visit ∈ interrupted, visit.order.Perm nameMap)
    (inOrder : ∀ visit ∈ visits, visit.order.Perm nameMap)
    (listed : interrupted.map Visit.path <+: walk fs dir)
    (inWalk : visits.map Visit.path =
      walk (settled (modifyFileContent links interrupted fs)) dir)
    (statable : ∀ visit ∈ visits, Statable links fs visit)
    (works : ∀ visit ∈ visits, ∀ place ident content,
      follow links fs visit.path = some place →
        fs.find place = some ⟨place, ident, .file content⟩ →
          Works visit.answers content) :
    (modifyFileContent links visits
          (settled (modifyFileContent links interrupted fs)) =
        modifyFileContent links visits fs ↔
      LeavesWhole fs (settled (modifyFileContent links interrupted fs))) ∧
    (LeavesWhole fs (settled (modifyFileContent links interrupted fs)) →
      runTool overFile links order visits
          (settled (modifyFileContent links interrupted fs)) =
        runTool overFile links order visits fs) := by
  rw [settled_modifyFileContent] at *
  have performedIn : ∀ visit ∈ performed links fs interrupted,
      visit ∈ interrupted :=
    (List.takeWhile_sublist _).subset
  have sameWalk := walk_mapNodes
    (rewriteNode links fs (performed links fs interrupted)) fs dir
  rw [sameWalk] at inWalk
  have again : ∀ visit ∈ performed links fs interrupted,
      ∃ again ∈ visits, again.path = visit.path := by
    intro visit member
    have inList := listed.subset (List.mem_map_of_mem (performedIn visit member))
    rw [← inWalk] at inList
    exact List.mem_map.mp inList
  have stillStatable : ∀ visit ∈ visits, Statable links
      (fs.mapNodes (rewriteNode links fs (performed links fs interrupted)))
      visit := by
    intro visit member
    rw [Statable, follow_mapNodes kind_rewriteNode]
    exact statable visit member
  have same : modifyFileContent links visits
        (fs.mapNodes (rewriteNode links fs (performed links fs interrupted))) =
      modifyFileContent links visits fs ↔
        LeavesWhole fs (fs.mapNodes
          (rewriteNode links fs (performed links fs interrupted))) := by
    rw [modifyFileContent_of_statable stillStatable,
      modifyFileContent_of_statable statable,
      rewriteNode_mapNodes _ kind_rewriteNode, mapNodes_mapNodes,
      Except.ok.injEq, mapNodes_eq_iff]
    exact rewritten_again_iff
      (fun visit member => interruptedInOrder visit (performedIn visit member))
      inOrder again works
  refine ⟨same, ?_⟩
  intro whole
  rw [runTool, same.mpr whole, runTool]

theorem works_smoothVisits {fs : FileSystem} {paths : List Bytes}
    (small : ∀ entry ∈ fs.rows, entry.node.size ≤ maxFileSize) :
    ∀ visit ∈ smoothVisits paths, ∀ place ident content,
      follow links fs visit.path = some place →
        fs.find place = some ⟨place, ident, .file content⟩ →
          Works visit.answers content := by
  intro visit member place ident content _ found
  obtain ⟨path, _, rfl⟩ := List.mem_map.mp member
  exact ⟨rfl, rfl, rfl, rfl, maxFileSize, rfl,
    small _ (Table.mem_of_find found)⟩

/-- A pass over `linkedBothWays` that could not open `a`, has rewritten `b` and was
stopped before the links. -/
def stoppedVisits : List Visit :=
  lockedVisits "eos/a".toUTF8.toList
    ((walk linkedBothWays.entries "eos".toUTF8.toList).take 3)

theorem leavesWhole_stoppedVisits :
    LeavesWhole linkedBothWays.entries
      (settled (modifyFileContent 40 stoppedVisits linkedBothWays.entries)) := by
  have whole : ∀ entry ∈ linkedBothWays.entries.rows,
      (settled (modifyFileContent 40 stoppedVisits
          linkedBothWays.entries)).find entry.location = some entry ∨
        entry = ⟨["eos".toUTF8.toList, "b".toUTF8.toList], 3,
          .file "EOS".toUTF8.toList⟩ := by
    decide +kernel
  intro entry stored content isFile
  rcases whole entry stored with same | isRewritten
  · exact Or.inl same
  · rw [isRewritten] at isFile ⊢
    rw [← Node.file.inj isFile]
    exact Or.inr ⟨by decide +kernel, by decide +kernel⟩

theorem contents_pass_repairs_linkedBothWays :
    runTool false 40 (fun _ => nameMap)
        (smoothVisits (walk linkedBothWays.entries "eos".toUTF8.toList))
        (settled (modifyFileContent 40 stoppedVisits linkedBothWays.entries)) =
      runTool false 40 (fun _ => nameMap)
        (smoothVisits (walk linkedBothWays.entries "eos".toUTF8.toList))
        linkedBothWays.entries :=
  (contents_pass_repairs_iff false 40 (fun _ => nameMap) linkedBothWays.entries
    "eos".toUTF8.toList stoppedVisits _ perm_of_mem_lockedVisits
    perm_of_mem_smoothVisits (by decide +kernel) (by decide +kernel)
    (by decide +kernel) (works_smoothVisits (by decide +kernel))).2
    leavesWhole_stoppedVisits

end Bright.Rename
