/-
# The file system and the reads of `loc_file`

A path names a file, with its content and the time it was modified last, or a directory, or
nothing.  Each read of `loc_file` sees the file system at one moment.  Other processes change
it between any two reads.
-/
import ConfigMonitor.ZooKeeper.Path
import Mathlib.Logic.Function.Basic

namespace ConfigMonitor

namespace LocalFile

/-- `file_error`. -/
inductive FileError
  | ok
  | notExist
  | alreadyExist
  | alreadyUsed
deriving DecidableEq, Repr

/-- `file_event`. -/
inductive FileEvent
  | dummy
  | created
  | deleted
  | changed
  | child
deriving DecidableEq, Repr

/-- What a path names; the entries of a directory are in the order of the iteration. -/
inductive Node
  | file (value : Str) (mtime : ℕ)
  | dir (entries : List Str) (mtime : ℕ)
deriving DecidableEq, Repr

/-- What each path names. -/
abbrev FileSystem := Path → Option Node

/-- There is nothing. -/
def emptyFs : FileSystem := fun _ => none

/-- There is one file. -/
def oneFile (path : Path) (value : Str) (mtime : ℕ) : FileSystem :=
  Function.update emptyFs path (some (.file value mtime))

/-- Is the node a regular file? -/
def Node.isRegularFile : Node → Bool
  | .file .. => true
  | .dir .. => false

/-- `std::filesystem::exists`. -/
def pathExists (fs : FileSystem) (path : Path) : Bool := (fs path).isSome

/-- `get_file_value`.  A directory can be opened, but `file_size` throws for it. -/
def getFileValue (fs : FileSystem) (path : Path) : Option (FileError × Str) :=
  match fs path with
  | none => some (.notExist, [])
  | some (.file value _) => some (.ok, value)
  | some (.dir ..) => none

/-- `file_modify_time`. -/
def fileModifyTime (fs : FileSystem) (path : Path) : FileError × ℕ :=
  match fs path with
  | none => (.notExist, 0)
  | some (.file _ mtime) | some (.dir _ mtime) => (.ok, mtime)

/-- The path of an entry, as the iteration of a directory gives it. -/
def entryPath (path : Path) (entry : Str) : Path :=
  if path.getLast? = some '/' then path ++ entry else subPath path entry

/-- `get_path_children`: the regular files in a directory. -/
def getPathChildren (fs : FileSystem) (path : Path) : List Str :=
  match fs path with
  | some (.dir entries _) =>
      entries.filter fun entry => ((fs (entryPath path entry)).map Node.isRegularFile).getD false
  | _ => []

variable {fs : FileSystem} {path : Path} {value : Str} {mtime : ℕ}

lemma fileModifyTime_file (h : fs path = some (.file value mtime)) :
    fileModifyTime fs path = (.ok, mtime) := by
  rw [fileModifyTime, h]

lemma getFileValue_file (h : fs path = some (.file value mtime)) :
    getFileValue fs path = some (.ok, value) := by
  rw [getFileValue, h]

lemma fileModifyTime_none (h : fs path = none) : fileModifyTime fs path = (.notExist, 0) := by
  rw [fileModifyTime, h]

lemma getFileValue_none (h : fs path = none) : getFileValue fs path = some (.notExist, []) := by
  rw [getFileValue, h]

end LocalFile

end ConfigMonitor
