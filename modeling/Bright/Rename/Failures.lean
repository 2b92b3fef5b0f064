import Bright.Rename.Content

/-!
# Failing operations

Of the operations of a turn only a failing `os.Stat` stops the tool
(`survives_iff`).  A failing write can leave a part of the new content, and so
can a `Seek` that does not rewind (`file_whole_iff`); all the other errors
leave the file as it was.  An operation that never returns, as a read from a
named pipe may, is not among the failures.
-/

namespace Bright.Rename

open Bright.Lib

/-- The turn gets as far as truncating the file, of which `written` bytes are
then written. -/
structure Truncates (answers : Answers) (content : Bytes) (written : ℕ) :
    Prop where
  opened : answers.openFile
  fits : answers.seekEnd → content.length ≤ maxFileSize
  read : answers.readAll
  truncated : answers.writeFile = some written

/-- The file is read from its beginning. -/
def Rewinds (answers : Answers) : Prop := answers.seekEnd → answers.seekSet

instance decidableRewinds (answers : Answers) : Decidable (Rewinds answers) :=
  inferInstanceAs (Decidable (_ → _))

/-- A turn that truncates the file writes all of it. -/
def KeepsWhole (answers : Answers) (content : Bytes) : Prop :=
  ∀ written, Truncates answers content written →
    content = [] ∨ Rewinds answers ∧ content.length ≤ written

/-- A turn that truncates the file writes all of it and finds no old name. -/
def Spares (answers : Answers) (content : Bytes) : Prop :=
  ∀ written, Truncates answers content written →
    content = [] ∨ Rewinds answers ∧ content.length ≤ written ∧
      ∀ pair ∈ nameMap, ¬ pair.1 <:+: content

/-- The file can be opened, read and written. -/
structure Works (answers : Answers) (content : Bytes) : Prop where
  opened : answers.openFile
  measured : answers.seekEnd
  rewound : answers.seekSet
  read : answers.readAll
  written : ∃ written, answers.writeFile = some written ∧
    content.length ≤ written

variable {links : ℕ} {fs : FileSystem} {visit : Visit} {visits : List Visit}
  {place : Location} {order : List (Bytes × Bytes)} {answers : Answers}
  {content : Bytes} {written ident : ℕ}

/-! ### One file -/

theorem rewriteFile_of_truncates (inOrder : order.Perm nameMap)
    (truncates : Truncates answers content written) :
    rewriteFile order answers content =
      (substituted (if Rewinds answers then content else [])).take written := by
  have fits : ¬ maxFileSize <
      if answers.seekEnd then content.length else 0 := by
    split_ifs with measured
    · exact Nat.not_lt.mpr (truncates.fits measured)
    · exact Nat.not_lt_zero _
  have source :
      content.drop
          (if answers.seekEnd ∧ ¬ answers.seekSet then content.length else 0) =
        if Rewinds answers then content else [] := by
    by_cases rewinds : Rewinds answers
    · have atStart : ¬ (answers.seekEnd ∧ ¬ answers.seekSet) := fun atEnd =>
        atEnd.2 (rewinds atEnd.1)
      rw [if_pos rewinds, if_neg atStart, List.drop_zero]
    · have atEnd : answers.seekEnd ∧ ¬ answers.seekSet := by
        rw [Rewinds] at rewinds
        push Not at rewinds
        exact rewinds
      rw [if_neg rewinds, if_pos atEnd, List.drop_length]
  rw [rewriteFile, if_neg (not_not.mpr truncates.opened), if_neg fits,
    if_neg (not_not.mpr truncates.read), truncates.truncated, source]
  dsimp only
  rw [replaceLoop, foldl_replaceAll_eq inOrder]

/-- A turn that reads the file from its beginning and writes all of it. -/
theorem rewriteFile_of_delivered (inOrder : order.Perm nameMap)
    (truncates : Truncates answers content written)
    (rewinds : Rewinds answers) (enough : content.length ≤ written) :
    rewriteFile order answers content = substituted content := by
  rw [rewriteFile_of_truncates inOrder truncates, if_pos rewinds,
    List.take_of_length_le]
  rw [length_substituted]
  exact enough

theorem rewriteFile_of_empty (inOrder : order.Perm nameMap)
    (truncates : Truncates answers content written) (empty : content = []) :
    rewriteFile order answers content = content := by
  rw [rewriteFile_of_truncates inOrder truncates, empty, ite_self,
    substituted_nil, List.take_nil]

/-- All the other turns leave the file alone. -/
theorem rewriteFile_of_not_truncates
    (never : ∀ written, ¬ Truncates answers content written) :
    rewriteFile order answers content = content := by
  by_cases opened : answers.openFile
  · by_cases tooLarge :
        maxFileSize < if answers.seekEnd then content.length else 0
    · rw [rewriteFile, if_neg (not_not.mpr opened), if_pos tooLarge]
    · by_cases read : answers.readAll
      · cases outcome : answers.writeFile with
        | none =>
            rw [rewriteFile, if_neg (not_not.mpr opened), if_neg tooLarge,
              if_neg (not_not.mpr read), outcome]
        | some written =>
            have fits : answers.seekEnd → content.length ≤ maxFileSize := by
              intro measured
              rwa [if_pos measured, not_lt] at tooLarge
            exact absurd ⟨opened, fits, read, outcome⟩ (never written)
      · rw [rewriteFile, if_neg (not_not.mpr opened), if_neg tooLarge,
          if_pos read]
  · rw [rewriteFile, if_pos opened]

/-- The file is whole after a turn exactly if a write that truncates it writes
all of it. -/
theorem rewriteFile_whole_iff (inOrder : order.Perm nameMap) :
    (rewriteFile order answers content = content ∨
        rewriteFile order answers content = substituted content) ↔
      KeepsWhole answers content := by
  constructor
  · intro whole written truncates
    rw [rewriteFile_of_truncates inOrder truncates] at whole
    have sameLength : ((substituted (if Rewinds answers then content else
        [])).take written).length = content.length := by
      rcases whole with same | changed
      · rw [same]
      · rw [changed, length_substituted]
    rw [List.length_take, length_substituted] at sameLength
    split_ifs at sameLength with rewinds
    · exact Or.inr ⟨rewinds, by omega⟩
    · rw [List.length_nil, Nat.min_zero] at sameLength
      exact Or.inl (List.length_eq_zero_iff.mp sameLength.symm)
  · intro keeps
    by_cases truncates : ∃ written, Truncates answers content written
    · obtain ⟨written, truncates⟩ := truncates
      rcases keeps written truncates with empty | delivered
      · left
        exact rewriteFile_of_empty inOrder truncates empty
      · right
        exact rewriteFile_of_delivered inOrder truncates delivered.1
          delivered.2
    · left
      exact rewriteFile_of_not_truncates fun written truncated =>
        truncates ⟨written, truncated⟩

/-- A file that is not whole has lost bytes. -/
theorem rewriteFile_cases (inOrder : order.Perm nameMap) (answers : Answers)
    (content : Bytes) :
    rewriteFile order answers content = content ∨
      rewriteFile order answers content = substituted content ∨
      (rewriteFile order answers content).length < content.length := by
  by_cases keeps : KeepsWhole answers content
  · rcases (rewriteFile_whole_iff inOrder).mpr keeps with same | changed
    · exact Or.inl same
    · exact Or.inr (Or.inl changed)
  · rw [KeepsWhole] at keeps
    push Not at keeps
    obtain ⟨written, truncates, nonempty, cut⟩ := keeps
    have someBytes := List.length_pos_of_ne_nil nonempty
    right
    right
    rw [rewriteFile_of_truncates inOrder truncates, List.length_take,
      length_substituted]
    split_ifs with rewinds
    · exact (Nat.min_le_left _ _).trans_lt (cut rewinds)
    · rw [List.length_nil, Nat.min_zero]
      exact someBytes

/-- A turn leaves the file as it was exactly if a write that truncates it
writes all of it and there is no old name in it. -/
theorem rewriteFile_eq_self_iff (inOrder : order.Perm nameMap) :
    rewriteFile order answers content = content ↔ Spares answers content := by
  constructor
  · intro same written truncates
    have keeps := (rewriteFile_whole_iff inOrder).mp (Or.inl same)
    rcases keeps written truncates with empty | delivered
    · exact Or.inl empty
    · right
      refine ⟨delivered.1, delivered.2, substituted_eq_self_iff.mp ?_⟩
      rw [← rewriteFile_of_delivered inOrder truncates delivered.1 delivered.2]
      exact same
  · intro spares
    by_cases truncates : ∃ written, Truncates answers content written
    · obtain ⟨written, truncates⟩ := truncates
      rcases spares written truncates with empty | delivered
      · exact rewriteFile_of_empty inOrder truncates empty
      · obtain ⟨rewinds, enough, noName⟩ := delivered
        rw [rewriteFile_of_delivered inOrder truncates rewinds enough,
          substituted_eq_self_iff.mpr noName]
    · exact rewriteFile_of_not_truncates fun written truncated =>
        truncates ⟨written, truncated⟩

/-- Where all operations succeed, this is the function of the tool. -/
theorem rewriteFile_of_works (inOrder : order.Perm nameMap)
    (works : Works answers content) :
    rewriteFile order answers content =
      (modifiedContent order content).getD content := by
  obtain ⟨written, outcome, enough⟩ := works.written
  rw [modifiedContent_eq inOrder]
  by_cases tooLarge : maxFileSize < content.length
  · rw [if_pos tooLarge, Option.getD_none]
    apply rewriteFile_of_not_truncates
    intro written truncates
    exact Nat.not_lt.mpr (truncates.fits works.measured) tooLarge
  · rw [if_neg tooLarge, Option.getD_some]
    have truncates : Truncates answers content written :=
      ⟨works.opened, fun _ => Nat.not_lt.mp tooLarge, works.read, outcome⟩
    have rewinds : Rewinds answers := fun _ => works.rewound
    exact rewriteFile_of_delivered inOrder truncates rewinds enough

/-! ### A failing write -/

/-- After a turn on a file, whichever operations fail, its content is the old
one or the substituted one, exactly if a write that has truncated it writes all
of it and no failing `Seek` leaves the position at the end. -/
theorem file_whole_iff {links ident : ℕ} {fs : FileSystem} (visit : Visit)
    {place : Location} {content : Bytes} (inOrder : visit.order.Perm nameMap)
    (leads : follow links fs visit.path = some place)
    (found : fs.find place = some ⟨place, ident, .file content⟩) :
    (∃ left, (settled (modifyFileContent links [visit] fs)).find place =
          some ⟨place, ident, .file left⟩ ∧
        (left = content ∨ left = substituted content)) ↔
      (visit.answers.stat → KeepsWhole visit.answers content) := by
  have after : (settled (modifyFileContent links [visit] fs)).find place =
      some ⟨place, ident, .file (if visit.answers.stat then
        rewriteFile visit.order visit.answers content else content)⟩ := by
    rw [settled_modifyFileContent, find_mapNodes, found, Option.map_some,
      rewriteNode_file]
    by_cases stat : visit.answers.stat
    · have statable : Statable links fs visit :=
        ⟨stat, Option.isSome_iff_exists.mpr ⟨place, leads⟩⟩
      have once : visitsTo links fs (performed links fs [visit]) place =
          [visit] := by
        rw [performed_of_statable (List.forall_mem_singleton.mpr statable),
          visitsTo, List.filter_singleton, decide_eq_true leads]
        rfl
      rw [once, if_pos stat]
      rfl
    · have stops : ¬ Statable links fs visit := fun statable => stat statable.1
      have never : visitsTo links fs (performed links fs [visit]) place = [] := by
        rw [performed, List.takeWhile_cons_of_neg (by simpa using stops)]
        rfl
      rw [never, if_neg stat]
      rfl
  rw [after]
  by_cases stat : visit.answers.stat
  · rw [if_pos stat, ← rewriteFile_whole_iff inOrder]
    constructor
    · intro whole _
      obtain ⟨left, same, isWhole⟩ := whole
      cases same
      exact isWhole
    · intro whole
      exact ⟨_, rfl, whole stat⟩
  · rw [if_neg stat]
    constructor
    · intro _ statSucceeds
      exact absurd statSucceeds stat
    · intro _
      exact ⟨content, rfl, Or.inl rfl⟩

/-- Every operation succeeds, on a file that is not too large. -/
def smooth : Answers := ⟨true, true, true, true, true, some maxFileSize⟩

/-- A file `f` that holds `eos`. -/
def oneFile : FileSystem :=
  Table.empty.putAll
    [⟨["f".toUTF8.toList], 1, .file "eos".toUTF8.toList⟩]

/-- A failing `ReadAll` leaves `eos` alone. -/
theorem file_whole_oneFile :
    ∃ left, (settled (modifyFileContent 40
          [⟨"f".toUTF8.toList, nameMap, { smooth with readAll := false }⟩]
          oneFile)).find ["f".toUTF8.toList] =
        some ⟨["f".toUTF8.toList], 1, .file left⟩ ∧
      (left = "eos".toUTF8.toList ∨
        left = substituted "eos".toUTF8.toList) := by
  have keeps : KeepsWhole { smooth with readAll := false }
      "eos".toUTF8.toList := by
    intro written truncates
    exact absurd truncates.read (by decide)
  exact (file_whole_iff
    ⟨"f".toUTF8.toList, nameMap, { smooth with readAll := false }⟩
    (List.Perm.refl nameMap) (by decide +kernel) (by decide +kernel)).mpr
    fun _ => keeps

/-- A write that stops after one byte leaves `u` of `eos`. -/
theorem file_cut_short :
    ¬ ∀ (links ident : ℕ) (fs : FileSystem) (visit : Visit) (place : Location)
      (content : Bytes), visit.order.Perm nameMap →
        follow links fs visit.path = some place →
        fs.find place = some ⟨place, ident, .file content⟩ →
          ∃ left, (settled (modifyFileContent links [visit] fs)).find place =
              some ⟨place, ident, .file left⟩ ∧
            (left = content ∨ left = substituted content) := by
  intro whole
  obtain ⟨left, found, isWhole⟩ := whole 40 1 oneFile
    ⟨"f".toUTF8.toList, nameMap, { smooth with writeFile := some 1 }⟩
    ["f".toUTF8.toList] "eos".toUTF8.toList (List.Perm.refl nameMap)
    (by decide +kernel) (by decide +kernel)
  have cut : (settled (modifyFileContent 40
        [⟨"f".toUTF8.toList, nameMap, { smooth with writeFile := some 1 }⟩]
        oneFile)).find ["f".toUTF8.toList] =
      some ⟨["f".toUTF8.toList], 1, .file "u".toUTF8.toList⟩ := by
    decide +kernel
  rw [cut] at found
  cases found
  exact absurd isWhole (by decide +kernel)

/-! ### A failing `os.Stat` -/

/-- The contents pass ends without a panic, leaves the paths alone on which
`os.Stat` fails, and rewrites every listed file that is not too large and that
can be opened, read and written. -/
def Survives (links : ℕ) (visits : List Visit) (fs : FileSystem) : Prop :=
  ∃ after, modifyFileContent links visits fs = .ok after ∧
    (∀ visit ∈ visits, ¬ Statable links fs visit →
      after.find (locate visit.path) = fs.find (locate visit.path)) ∧
    ∀ place ident content,
      fs.find place = some ⟨place, ident, .file content⟩ →
      content.length ≤ maxFileSize →
      (∃ visit ∈ visits, follow links fs visit.path = some place) →
      (∀ visit ∈ visits, follow links fs visit.path = some place →
        Works visit.answers content) →
        after.find place = some ⟨place, ident, .file (substituted content)⟩

theorem works_congr {other : Bytes} (sameLength : other.length = content.length)
    (works : Works answers content) : Works answers other where
  opened := works.opened
  measured := works.measured
  rewound := works.rewound
  read := works.read
  written := by
    rw [sameLength]
    exact works.written

theorem rewriteFile_eq_substituted (inOrder : order.Perm nameMap)
    (works : Works answers content) (fits : content.length ≤ maxFileSize) :
    rewriteFile order answers content = substituted content := by
  rw [rewriteFile_of_works inOrder works, modifiedContent_eq inOrder,
    if_neg (Nat.not_lt.mpr fits), Option.getD_some]

/-- Turns that work substitute once, however many there are. -/
theorem rewriteAll_of_works (inOrder : ∀ visit ∈ visits,
      visit.order.Perm nameMap)
    (works : ∀ visit ∈ visits, Works visit.answers content)
    (fits : content.length ≤ maxFileSize) (nonempty : visits ≠ []) :
    rewriteAll visits content = substituted content := by
  induction visits generalizing content with
  | nil => exact absurd rfl nonempty
  | cons visit visits inductionHypothesis =>
      obtain ⟨firstInOrder, laterInOrder⟩ := List.forall_mem_cons.mp inOrder
      obtain ⟨firstWorks, laterWorks⟩ := List.forall_mem_cons.mp works
      rw [rewriteAll, List.foldl_cons, ← rewriteAll,
        rewriteFile_eq_substituted firstInOrder firstWorks fits]
      rcases eq_or_ne visits [] with last | more
      · rw [last]
        rfl
      · have sameLength := length_substituted content
        rw [inductionHypothesis laterInOrder
          (fun other member => works_congr sameLength (laterWorks other member))
          (sameLength ▸ fits) more, substituted_substituted]

/-- The contents pass survives a list of paths exactly if `os.Stat` succeeds on
all of them. -/
theorem survives_iff (links : ℕ) (fs : FileSystem) (visits : List Visit)
    (inOrder : ∀ visit ∈ visits, visit.order.Perm nameMap) :
    Survives links visits fs ↔
      ∀ visit ∈ visits, Statable links fs visit := by
  constructor
  · intro survives
    obtain ⟨after, finished, _⟩ := survives
    by_contra stops
    rw [modifyFileContent_of_not_statable stops] at finished
    cases finished
  · intro statable
    refine ⟨_, modifyFileContent_of_statable statable, ?_, ?_⟩
    · intro visit member stops
      exact absurd (statable visit member) stops
    · intro place ident content found fits listed works
      obtain ⟨visit, member, leads⟩ := listed
      have nonempty : visitsTo links fs visits place ≠ [] :=
        List.ne_nil_of_mem (mem_visitsTo.mpr ⟨member, leads⟩)
      have rewritten := rewriteAll_of_works
        (fun other otherMember =>
          inOrder other (mem_visitsTo.mp otherMember).1)
        (fun other otherMember =>
          works other (mem_visitsTo.mp otherMember).1
            (mem_visitsTo.mp otherMember).2) fits nonempty
      rw [find_mapNodes, found, Option.map_some, rewriteNode_file, rewritten]

theorem perm_of_mem_map {paths : List Bytes} (answers : Bytes → Answers) :
    ∀ visit ∈ paths.map fun path => (⟨path, nameMap, answers path⟩ : Visit),
      visit.order.Perm nameMap := by
  intro visit member
  obtain ⟨path, _, rfl⟩ := List.mem_map.mp member
  exact List.Perm.refl nameMap

/-- Turns of which every operation succeeds. -/
def smoothVisits (paths : List Bytes) : List Visit :=
  paths.map fun path => ⟨path, nameMap, smooth⟩

theorem perm_of_mem_smoothVisits {paths : List Bytes} :
    ∀ visit ∈ smoothVisits paths, visit.order.Perm nameMap :=
  perm_of_mem_map fun _ => smooth

/-- Turns of which every operation succeeds, but that the path `locked` cannot be
opened. -/
def lockedVisits (locked : Bytes) (paths : List Bytes) : List Visit :=
  paths.map fun path =>
    ⟨path, nameMap, { smooth with openFile := path ≠ locked }⟩

theorem perm_of_mem_lockedVisits {locked : Bytes} {paths : List Bytes} :
    ∀ visit ∈ lockedVisits locked paths, visit.order.Perm nameMap :=
  perm_of_mem_map fun path => { smooth with openFile := path ≠ locked }

/-- The directory `eos` with two files, a link to one of them, and a link to the
file `f` outside. -/
def linkedBothWays : DirectoryTree where
  entries := Table.empty.putAll
    [⟨["eos".toUTF8.toList], 1, .directory⟩,
      ⟨["eos".toUTF8.toList, "a".toUTF8.toList], 2, .file "eos".toUTF8.toList⟩,
      ⟨["eos".toUTF8.toList, "b".toUTF8.toList], 3, .file "EOS".toUTF8.toList⟩,
      ⟨["eos".toUTF8.toList, "in".toUTF8.toList], 4,
        .link "../eos/a".toUTF8.toList⟩,
      ⟨["eos".toUTF8.toList, "out".toUTF8.toList], 5,
        .link "../f".toUTF8.toList⟩,
      ⟨["f".toUTF8.toList], 6, .file "uos".toUTF8.toList⟩]
  nonempty := by decide +kernel
  proper := by decide +kernel
  parents := by decide +kernel
  identsDiffer := by decide +kernel

/-- The directory `d` with a link to nowhere and a file behind it. -/
def dangling : DirectoryTree where
  entries := Table.empty.putAll
    [⟨["d".toUTF8.toList], 1, .directory⟩,
      ⟨["d".toUTF8.toList, "a".toUTF8.toList], 2, .link "gone".toUTF8.toList⟩,
      ⟨["d".toUTF8.toList, "b".toUTF8.toList], 3,
        .file "eos".toUTF8.toList⟩]
  nonempty := by decide +kernel
  proper := by decide +kernel
  parents := by decide +kernel
  identsDiffer := by decide +kernel

/-- In `linkedBothWays` the file `b` cannot be opened. -/
theorem survives_linkedBothWays :
    Survives 40
      (lockedVisits "eos/b".toUTF8.toList
        (walk linkedBothWays.entries "eos".toUTF8.toList))
      linkedBothWays.entries :=
  (survives_iff 40 linkedBothWays.entries _ perm_of_mem_lockedVisits).mpr
    (by decide +kernel)

/-- The dangling link in `dangling` stops the tool before the file. -/
theorem not_survives_dangling :
    ¬ ∀ (links : ℕ) (tree : DirectoryTree) (dir : Bytes) (visits : List Visit),
      (∀ visit ∈ visits, visit.order.Perm nameMap) →
        visits.map Visit.path = walk tree.entries dir →
          Survives links visits tree.entries := by
  intro survives
  have statable := survives 40 dangling "d".toUTF8.toList
    (smoothVisits (walk dangling.entries "d".toUTF8.toList))
    perm_of_mem_smoothVisits (by decide +kernel)
  obtain ⟨after, finished, _⟩ := statable
  have stops : ¬ ∀ visit ∈ smoothVisits
      (walk dangling.entries "d".toUTF8.toList),
        Statable 40 dangling.entries visit := by
    decide +kernel
  rw [modifyFileContent_of_not_statable stops] at finished
  cases finished

end Bright.Rename
