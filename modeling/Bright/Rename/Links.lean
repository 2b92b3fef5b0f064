import Bright.Lib.Resolution
import Bright.Rename.Tree

/-!
# Paths through symbolic links

`os.Stat`, `os.OpenFile` and `ioutil.WriteFile` follow symbolic links.  The
place that a path leads to depends on the names of the entries, on which of
them are directories and on the targets of the links, but not on contents.

The working directory is the top of the file system, as in `locate`.
-/

namespace Bright.Rename

open Bright.Lib

def partOf (name : Bytes) : PathPart Bytes :=
  if name = [] ∨ name = ".".toUTF8.toList then .stay
  else if name = "..".toUTF8.toList then .up
  else .down name

/-- The parts of a path between its slashes. -/
def parts (path : Bytes) : List (PathPart Bytes) := (path.splitOn slash).map partOf

def Node.kind : Node → Kind Bytes
  | .directory => .directory
  | .file _ => .file
  | .link target => .link ([slash].isPrefixOf target) (parts target)

/-- What a path meets at a place. -/
def FileSystem.look (fs : FileSystem) (place : Location) : Option (Kind Bytes) :=
  (fs.find place).map fun entry => entry.node.kind

/-- The place that a path leads to; the system follows at most `links` links. -/
def follow (links : ℕ) (fs : FileSystem) (path : Bytes) : Option Location :=
  (route fs.look links [] (parts path)).reached

/-- The route of a link at `place`. -/
def linkRoute (links : ℕ) (fs : FileSystem) (place : Location)
    (target : Bytes) : Route Bytes :=
  route fs.look links (if [slash].isPrefixOf target then [] else place.dropLast)
    (parts target)

/-! ### Changing nodes -/

/-- The file system in which `change` has been applied to all nodes. -/
def FileSystem.mapNodes (change : Location → Node → Node) (fs : FileSystem) :
    FileSystem where
  rows := fs.rows.map fun entry =>
    { entry with node := change entry.location entry.node }
  sorted := by
    rw [List.map_map]
    exact fs.sorted

variable {change : Location → Node → Node} {fs : FileSystem} {place : Location}
  {links : ℕ}

theorem mem_mapNodes {entry : Entry} :
    entry ∈ (fs.mapNodes change).rows ↔ ∃ source ∈ fs.rows,
      { source with node := change source.location source.node } = entry :=
  List.mem_map

theorem find_mapNodes (change : Location → Node → Node) (fs : FileSystem)
    (place : Location) :
    (fs.mapNodes change).find place = (fs.find place).map fun entry =>
      { entry with node := change place entry.node } := by
  cases found : fs.find place with
  | none =>
      apply Table.find_eq_none_iff.mpr
      intro row member
      obtain ⟨source, stored, rfl⟩ := mem_mapNodes.mp member
      exact Table.find_eq_none_iff.mp found source stored
  | some entry =>
      obtain ⟨stored, rfl⟩ := Table.find_eq_some_iff.mp found
      exact Table.find_eq_some_iff.mpr ⟨mem_mapNodes.mpr ⟨entry, stored, rfl⟩, rfl⟩

/-- Paths do not see a change that keeps the kinds of the nodes. -/
theorem look_mapNodes (keepsKind : ∀ place node,
      (change place node).kind = node.kind) (fs : FileSystem) :
    (fs.mapNodes change).look = fs.look := by
  funext place
  rw [FileSystem.look, FileSystem.look, find_mapNodes]
  cases fs.find place with
  | none => rfl
  | some entry => exact congrArg some (keepsKind place entry.node)

theorem follow_mapNodes (keepsKind : ∀ place node,
      (change place node).kind = node.kind) (links : ℕ) (fs : FileSystem)
    (path : Bytes) :
    follow links (fs.mapNodes change) path = follow links fs path := by
  rw [follow, look_mapNodes keepsKind, follow]

/-- A directory is recognised by its kind. -/
theorem eq_directory_iff {node : Node} :
    node = .directory ↔ node.kind = .directory := by
  cases node with
  | directory => exact iff_of_true rfl rfl
  | file content => exact iff_of_false nofun nofun
  | link target => exact iff_of_false nofun nofun

/-- A tree whose nodes change but keep their kinds. -/
def DirectoryTree.mapNodes (tree : DirectoryTree)
    (change : Location → Node → Node)
    (keepsKind : ∀ place node, (change place node).kind = node.kind) :
    DirectoryTree where
  entries := tree.entries.mapNodes change
  nonempty := by
    intro entry member
    obtain ⟨source, stored, rfl⟩ := mem_mapNodes.mp member
    exact tree.nonempty source stored
  proper := by
    intro entry member
    obtain ⟨source, stored, rfl⟩ := mem_mapNodes.mp member
    exact tree.proper source stored
  parents := by
    intro entry member
    obtain ⟨source, stored, rfl⟩ := mem_mapNodes.mp member
    rcases tree.parents source stored with top | known
    · exact Or.inl top
    · obtain ⟨parent, parentStored, isParent, isDirectory⟩ := known
      refine Or.inr ⟨_, mem_mapNodes.mpr ⟨parent, parentStored, rfl⟩,
        isParent, ?_⟩
      rw [eq_directory_iff, keepsKind, ← eq_directory_iff]
      exact isDirectory
  identsDiffer := by
    rw [FileSystem.mapNodes, List.map_map]
    exact tree.identsDiffer

/-- The walk does not see the nodes. -/
theorem walk_mapNodes (change : Location → Node → Node) (fs : FileSystem)
    (dir : Bytes) : walk (fs.mapNodes change) dir = walk fs dir := by
  rw [walk, walk, below, below, FileSystem.mapNodes, List.filter_map,
    List.map_map]
  rfl

end Bright.Rename
