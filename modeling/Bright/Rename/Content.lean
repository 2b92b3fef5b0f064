import Bright.Lib.Run
import Bright.Rename.Links

/-!
# The contents of the files

`modifyFileContent` runs over the paths of the walk and rewrites the file that
each of them leads to.  Every operation on the file can fail.  The errors of
`os.OpenFile`, `ioutil.ReadAll` and `ioutil.WriteFile` are checked and end the
turn; those of `os.Stat` and of the two calls of `Seek` are dropped.

`os.Stat` returns no file info with an error, so asking the file info whether
it is a directory panics then.  `ioutil.WriteFile` truncates the file and can
fail after a part of the bytes.
-/

namespace Bright.Rename

open Bright.Lib

/-- Whether the operations of a turn succeed where the file system allows it.
`writeFile` is `none` for an error that comes before the file is truncated, and
otherwise the number of bytes at which writing stops. -/
structure Answers where
  stat : Bool
  openFile : Bool
  seekEnd : Bool
  seekSet : Bool
  readAll : Bool
  writeFile : Option ℕ
  deriving DecidableEq, Repr

/-- A path of the walk, the order of the pairs in its turn and what the system
answers. -/
structure Visit where
  path : Bytes
  order : List (Bytes × Bytes)
  answers : Answers
  deriving DecidableEq, Repr

/-- What a turn leaves in a regular file. -/
def rewriteFile (order : List (Bytes × Bytes)) (answers : Answers)
    (content : Bytes) : Bytes :=
  if ¬ answers.openFile then
    content
  else
    -- A failing `Seek` returns 0 and leaves the position where it is.
    let fileSize := if answers.seekEnd then content.length else 0
    let position :=
      if answers.seekEnd ∧ ¬ answers.seekSet then content.length else 0
    if maxFileSize < fileSize then
      content
    else if ¬ answers.readAll then
      content
    else
      let srcBytes := replaceLoop order (content.drop position)
      match answers.writeFile with
      | none => content
      | some written => srcBytes.take written

/-- One turn of `modifyFileContent`; `error` is a panic. -/
def visitPath (links : ℕ) (fs : FileSystem) (visit : Visit) :
    Except FileSystem FileSystem :=
  match if visit.answers.stat then follow links fs visit.path else none with
  | none => .error fs
  | some place =>
      match fs.find place with
      | some ⟨location, ident, .file content⟩ =>
          let written := rewriteFile visit.order visit.answers content
          .ok (fs.put ⟨location, ident, .file written⟩)
      | _ => .ok fs

def modifyFileContent (links : ℕ) (visits : List Visit) (fs : FileSystem) :
    Except FileSystem FileSystem :=
  runAll (visitPath links) fs visits

/-- The file system at the end or at the panic. -/
def settled : Except FileSystem FileSystem → FileSystem
  | .ok fs => fs
  | .error fs => fs

/-! ### One turn -/

/-- `os.Stat` succeeds on the path. -/
def Statable (links : ℕ) (fs : FileSystem) (visit : Visit) : Prop :=
  visit.answers.stat ∧ (follow links fs visit.path).isSome

instance decidableStatable (links : ℕ) (fs : FileSystem) (visit : Visit) :
    Decidable (Statable links fs visit) :=
  inferInstanceAs (Decidable (_ ∧ _))

/-- What a turn makes of the node that its path leads to. -/
def Node.rewrite (visit : Visit) : Node → Node
  | .file content => .file (rewriteFile visit.order visit.answers content)
  | node => node

/-- What a turn makes of the node at `place`. -/
def visitNode (links : ℕ) (fs : FileSystem) (visit : Visit) (place : Location)
    (node : Node) : Node :=
  if follow links fs visit.path = some place then node.rewrite visit else node

variable {links : ℕ} {fs : FileSystem} {visit : Visit} {visits : List Visit}
  {place : Location}

@[simp]
theorem kind_rewrite (visit : Visit) (node : Node) :
    (node.rewrite visit).kind = node.kind := by
  cases node with
  | file content => rfl
  | directory => rfl
  | link target => rfl

theorem kind_visitNode (place : Location) (node : Node) :
    (visitNode links fs visit place node).kind = node.kind := by
  rw [visitNode]
  split_ifs
  · exact kind_rewrite visit node
  · rfl

theorem visitPath_of_not_statable (fails : ¬ Statable links fs visit) :
    visitPath links fs visit = .error fs := by
  have nothing :
      (if visit.answers.stat then follow links fs visit.path else none) =
        none := by
    split_ifs with found
    · rw [← Option.not_isSome_iff_eq_none]
      exact fun leads => fails ⟨found, leads⟩
    · rfl
  rw [visitPath, nothing]

/-- Directories and links are not rewritten. -/
theorem rewrite_of_not_file {node : Node}
    (notFile : ∀ content, node ≠ .file content) (visit : Visit) :
    node.rewrite visit = node := by
  cases node with
  | file content => exact absurd rfl (notFile content)
  | directory => rfl
  | link target => rfl

theorem visitNode_of_leads (leads : follow links fs visit.path = some place)
    (node : Node) : visitNode links fs visit place node = node.rewrite visit :=
  if_pos leads

theorem visitNode_of_ne (leads : follow links fs visit.path = some place)
    {other : Location} (different : other ≠ place) (node : Node) :
    visitNode links fs visit other node = node := by
  rw [visitNode, leads, if_neg]
  exact fun same => different (Option.some.inj same).symm

/-- A path that does not lead to a file changes nothing. -/
theorem mapNodes_visitNode_of_not_file
    (leads : follow links fs visit.path = some place)
    (notFile : ∀ entry content, fs.find place = some entry →
      entry.node ≠ .file content) :
    fs.mapNodes (visitNode links fs visit) = fs := by
  apply Table.ext_find
  intro other
  rw [find_mapNodes]
  cases found : fs.find other with
  | none => rfl
  | some entry =>
      rw [Option.map_some]
      by_cases isPlace : other = place
      · subst isPlace
        rw [visitNode_of_leads leads,
          rewrite_of_not_file fun content => notFile entry content found]
      · rw [visitNode_of_ne leads isPlace]

/-- A path that leads to a file changes that one. -/
theorem mapNodes_visitNode_of_file {ident : ℕ} {content : Bytes}
    (leads : follow links fs visit.path = some place)
    (found : fs.find place = some ⟨place, ident, .file content⟩) :
    fs.mapNodes (visitNode links fs visit) =
      fs.put ⟨place, ident,
        .file (rewriteFile visit.order visit.answers content)⟩ := by
  apply Table.ext_find
  intro other
  rw [Table.find_put, find_mapNodes]
  by_cases isPlace : other = place
  · subst isPlace
    rw [if_pos rfl, found, Option.map_some, visitNode_of_leads leads]
    rfl
  · rw [if_neg isPlace]
    cases fs.find other with
    | none => rfl
    | some entry => rw [Option.map_some, visitNode_of_ne leads isPlace]

theorem visitPath_of_statable (statable : Statable links fs visit) :
    visitPath links fs visit =
      .ok (fs.mapNodes (visitNode links fs visit)) := by
  obtain ⟨place, leads⟩ := Option.isSome_iff_exists.mp statable.2
  rw [visitPath, if_pos statable.1, leads]
  dsimp only
  cases found : fs.find place with
  | none =>
      rw [mapNodes_visitNode_of_not_file leads]
      intro entry content stored
      rw [found] at stored
      cases stored
  | some entry =>
      obtain ⟨location, ident, node⟩ := entry
      cases node with
      | file content =>
          obtain rfl : location = place := Table.key_of_find found
          rw [mapNodes_visitNode_of_file leads found]
      | directory =>
          rw [mapNodes_visitNode_of_not_file leads]
          intro entry content stored isFile
          rw [← Option.some.inj (found.symm.trans stored)] at isFile
          cases isFile
      | link target =>
          rw [mapNodes_visitNode_of_not_file leads]
          intro entry content stored isFile
          rw [← Option.some.inj (found.symm.trans stored)] at isFile
          cases isFile

/-! ### The whole list -/

/-- What the turns make of the node at `place`, in order. -/
def rewriteNode (links : ℕ) (fs : FileSystem) (visits : List Visit)
    (place : Location) (node : Node) : Node :=
  visits.foldl (fun node visit => visitNode links fs visit place node) node

/-- The turns before the first path that `os.Stat` fails on. -/
def performed (links : ℕ) (fs : FileSystem) (visits : List Visit) :
    List Visit :=
  visits.takeWhile fun visit => Statable links fs visit

theorem kind_rewriteNode (place : Location) (node : Node) :
    (rewriteNode links fs visits place node).kind = node.kind := by
  rw [rewriteNode]
  induction visits generalizing node with
  | nil => rfl
  | cons visit visits inductionHypothesis =>
      rw [List.foldl_cons, inductionHypothesis, kind_visitNode]

theorem mapNodes_mapNodes (first second : Location → Node → Node)
    (fs : FileSystem) :
    (fs.mapNodes first).mapNodes second =
      fs.mapNodes fun place node => second place (first place node) := by
  apply Table.ext
  exact List.map_map

theorem mapNodes_rewriteNode_nil (links : ℕ) (fs : FileSystem) :
    fs.mapNodes (rewriteNode links fs []) = fs := by
  apply Table.ext
  exact List.map_id fs.rows

/-- The other paths lead where they led before the turn. -/
theorem follow_visit (path : Bytes) :
    follow links (fs.mapNodes (visitNode links fs visit)) path =
      follow links fs path :=
  follow_mapNodes kind_visitNode links fs path

theorem statable_visit (visit other : Visit) :
    Statable links (fs.mapNodes (visitNode links fs visit)) other ↔
      Statable links fs other := by
  rw [Statable, follow_visit, Statable]

theorem rewriteNode_visit (visits : List Visit) :
    (fs.mapNodes (visitNode links fs visit)).mapNodes
        (rewriteNode links (fs.mapNodes (visitNode links fs visit)) visits) =
      fs.mapNodes (rewriteNode links fs (visit :: visits)) := by
  have sameNodes : ∀ place node,
      rewriteNode links (fs.mapNodes (visitNode links fs visit)) visits
          place node =
        rewriteNode links fs visits place node := by
    intro place node
    rw [rewriteNode, rewriteNode]
    simp only [visitNode, follow_visit]
  rw [mapNodes_mapNodes]
  apply congrArg fun change => fs.mapNodes change
  funext place node
  rw [sameNodes, rewriteNode, rewriteNode, List.foldl_cons]

theorem modifyFileContent_of_statable
    (statable : ∀ visit ∈ visits, Statable links fs visit) :
    modifyFileContent links visits fs =
      .ok (fs.mapNodes (rewriteNode links fs visits)) := by
  induction visits generalizing fs with
  | nil =>
      rw [mapNodes_rewriteNode_nil]
      rfl
  | cons visit visits inductionHypothesis =>
      obtain ⟨first, later⟩ := List.forall_mem_cons.mp statable
      have rest := inductionHypothesis fun other member =>
        (statable_visit visit other).mpr (later other member)
      rw [rewriteNode_visit] at rest
      exact runAll_cons_eq_ok_iff.mpr ⟨_, visitPath_of_statable first, rest⟩

theorem modifyFileContent_of_not_statable
    (fails : ¬ ∀ visit ∈ visits, Statable links fs visit) :
    modifyFileContent links visits fs =
      .error (fs.mapNodes
        (rewriteNode links fs (performed links fs visits))) := by
  induction visits generalizing fs with
  | nil => exact absurd (List.forall_mem_nil _) fails
  | cons visit visits inductionHypothesis =>
      apply runAll_cons_eq_error_iff.mpr
      by_cases statable : Statable links fs visit
      · have laterFails : ¬ ∀ other ∈ visits, Statable links
            (fs.mapNodes (visitNode links fs visit)) other := by
          intro later
          apply fails
          rw [List.forall_mem_cons]
          exact ⟨statable, fun other member =>
            (statable_visit visit other).mp (later other member)⟩
        have rest := inductionHypothesis laterFails
        have samePart :
            performed links (fs.mapNodes (visitNode links fs visit)) visits =
              performed links fs visits := by
          rw [performed, performed]
          simp only [statable_visit]
        rw [samePart, rewriteNode_visit] at rest
        right
        refine ⟨_, visitPath_of_statable statable, ?_⟩
        rw [performed, List.takeWhile_cons_of_pos (by simpa using statable)]
        exact rest
      · left
        rw [visitPath_of_not_statable statable, performed,
          List.takeWhile_cons_of_neg (by simpa using statable),
          mapNodes_rewriteNode_nil]

theorem performed_of_statable
    (statable : ∀ visit ∈ visits, Statable links fs visit) :
    performed links fs visits = visits := by
  rw [performed, List.takeWhile_eq_self_iff]
  intro visit member
  exact decide_eq_true (statable visit member)

theorem settled_modifyFileContent (links : ℕ) (fs : FileSystem)
    (visits : List Visit) :
    settled (modifyFileContent links visits fs) =
      fs.mapNodes (rewriteNode links fs (performed links fs visits)) := by
  by_cases statable : ∀ visit ∈ visits, Statable links fs visit
  · rw [modifyFileContent_of_statable statable, performed_of_statable statable]
    rfl
  · rw [modifyFileContent_of_not_statable statable]
    rfl

/-! ### The content of one file -/

/-- The turns that lead to `place`. -/
def visitsTo (links : ℕ) (fs : FileSystem) (visits : List Visit)
    (place : Location) : List Visit :=
  visits.filter fun visit => follow links fs visit.path = some place

/-- What turns on one file leave in it. -/
def rewriteAll (visits : List Visit) (content : Bytes) : Bytes :=
  visits.foldl
    (fun content visit => rewriteFile visit.order visit.answers content) content

theorem rewriteNode_file (content : Bytes) :
    rewriteNode links fs visits place (.file content) =
      .file (rewriteAll (visitsTo links fs visits place) content) := by
  rw [rewriteNode]
  induction visits generalizing content with
  | nil => rfl
  | cons visit visits inductionHypothesis =>
      rw [List.foldl_cons, visitNode, visitsTo]
      by_cases leads : follow links fs visit.path = some place
      · rw [if_pos leads, List.filter_cons_of_pos (by simpa using leads)]
        exact inductionHypothesis _
      · rw [if_neg leads,
          List.filter_cons_of_neg (by simpa using leads)]
        exact inductionHypothesis content

theorem mem_visitsTo :
    visit ∈ visitsTo links fs visits place ↔
      visit ∈ visits ∧ follow links fs visit.path = some place := by
  rw [visitsTo, List.mem_filter, decide_eq_true_eq]

end Bright.Rename
