import Bright.Lib.Rewrite
import Bright.Rename.FileSystem
import Mathlib.Data.List.DropRight

/-!
# The rename tool

The tool collects the paths below a directory, replaces the three old names in
the contents of the files and then renames the entries, the last path first.

Go visits the pairs of `nameMap` in an order of its own in every range loop, so
the loops take the order as an argument.  The console output is left out.  Of
`modifyFileContent` this is the treatment of the bytes that it has read; the
operations on the files are in `Bright.Rename.Content`.
-/

namespace Bright.Rename

open Bright.Lib

def slash : UInt8 := '/'.toUInt8

/-- The pairs of `nameMap`. -/
def nameMap : List (Bytes × Bytes) :=
  [("eos".toUTF8.toList, "uos".toUTF8.toList),
    ("EOS".toUTF8.toList, "UOS".toUTF8.toList),
    ("Eos".toUTF8.toList, "Uos".toUTF8.toList)]

/-! ### Contents -/

def maxFileSize : ℕ := 50 * 1024 * 1024

/-- What `modifyFileContent` writes back to a file; `none` is a file that is too
large. -/
def modifiedContent (order : List (Bytes × Bytes)) (srcBytes : Bytes) :
    Option Bytes :=
  if maxFileSize < srcBytes.length then
    none
  else
    some (order.foldl
      (fun srcBytes pair => replaceAll pair.1 pair.2 srcBytes) srcBytes)

/-! ### Names -/

/-- The range loop of `modifyFileName`, which starts with the last `newName`. -/
def modifiedName (order : List (Bytes × Bytes)) (newName oldName : Bytes) :
    Bytes :=
  let step := fun (state : Bytes × Bytes) (pair : Bytes × Bytes) =>
    let (_, strold) := state
    let newName := replaceAll pair.1 pair.2 strold
    (newName, if newName ≠ strold then newName else strold)
  (order.foldl step (newName, oldName)).1

/-- `strings.LastIndex(path, "/") + 1`. -/
def lastSlashEnd (path : Bytes) : ℕ :=
  (path.rdropWhile fun c => c ≠ slash).length

/-- The place that a path names.  A part `..` is taken as a name, which no entry
has. -/
def locate (path : Bytes) : Location :=
  (path.splitOn slash).filter fun name => name ≠ [] ∧ name ≠ ['.'.toUInt8]

section Loop

variable (overFile : Bool) (order : ℕ → List (Bytes × Bytes))

/-- What one turn of `modifyFileName` does with the new name; an error of
`os.Rename` is printed and otherwise ignored. -/
def renamePath (path newName : Bytes) (fs : FileSystem) : FileSystem :=
  let pos := lastSlashEnd path
  let oldName := path.drop pos
  if newName ≠ oldName then
    let newPath := path.take pos ++ newName
    (osRename overFile fs (locate path) (locate newPath)).getD fs
  else
    fs

/-- The loop of `modifyFileName` over the paths that are left. -/
def renameLoop : ℕ → Bytes → List Bytes → FileSystem → FileSystem
  | _, _, [], fs => fs
  | turn, last, path :: rest, fs =>
      let oldName := path.drop (lastSlashEnd path)
      let newName := modifiedName (order turn) last oldName
      renameLoop (turn + 1) newName rest (renamePath overFile path newName fs)

def modifyFileName (paths : List Bytes) (fs : FileSystem) : FileSystem :=
  renameLoop overFile order 0 [] paths.reverse fs

end Loop

/-! ### The walk -/

def joinPath : List Bytes → Bytes
  | [] => []
  | [name] => name
  | name :: rest => name ++ slash :: joinPath rest

/-- What `filepath.Join` puts before the names below `dir`. -/
def lead (dir : Bytes) : Bytes :=
  if [slash].isPrefixOf dir then [slash] else []

/-- The entries below `dir`. -/
def below (fs : FileSystem) (dir : Bytes) : List Entry :=
  fs.rows.filter fun entry =>
    (locate dir).isPrefixOf entry.location ∧ entry.location ≠ locate dir

/-- The paths that `filepath.Walk` visits.  This leaves out what the system makes
of a `dir` that goes through a link or through `..`, or that has a slash behind
a link. -/
def walk (fs : FileSystem) (dir : Bytes) : List Bytes :=
  dir :: (below fs dir).map fun entry => lead dir ++ joinPath entry.location

end Bright.Rename
