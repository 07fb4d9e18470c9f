import LockPrune.Ordered.Catalog
import LockPrune.Text.Lines

/-!
# Folders

A command reads and writes files by their paths.  What it needs of a place that holds files
is a class, so that the same command works on the files of a machine and on a folder that
is a value, about which one can reason.

A folder is told by its files alone: the directories in it are those on the way to a file, and
there are no links.  Paths are taken from the folder.  Outside it there are the directories that
it stands in, the root of all files, and the null device; nothing else is known there, so what is
written there cannot be read again.  A path that leaves the folder, because it is absolute or goes
up too far, does not come back: it is taken to stay outside even where it would lead into the
folder again.

## Main definitions

* `FileFault` — why a file cannot be used.
* `MonadFiles` — reading, writing and removing files.
* `Folder` — files by their names.
* `Path`, `Directory`, `Location` — what a path says, and where it leads.
-/

namespace LockPrune.Command

/-- Why a file cannot be used: the reason, and its number. -/
structure FileFault where
  reason : String
  code : Nat
  deriving DecidableEq, Repr

namespace FileFault

/-- There is no such file. -/
def missing : FileFault := ⟨"No such file or directory", 2⟩

/-- The path goes through a file. -/
def notDirectory : FileFault := ⟨"Not a directory", 20⟩

/-- The path leads to a directory. -/
def isDirectory : FileFault := ⟨"Is a directory", 21⟩

/-- The path, or a name in it, is longer than names can be. -/
def tooLong : FileFault := ⟨"File name too long", 36⟩

/-- The file may not be used. -/
def notPermitted : FileFault := ⟨"Permission denied", 13⟩

/-- The text of a fault. -/
def message (f : FileFault) : String :=
  f.reason ++ " (os error " ++ toString f.code ++ ")"

end FileFault

/-- Reading, writing and removing files by their paths. -/
class MonadFiles (m : Type → Type) where
  /-- The octets of a file. -/
  readFile : String → m (Except FileFault (List UInt8))
  /-- Makes a file of octets, in the place of one that is there. -/
  writeFile : String → List UInt8 → m (Except FileFault Unit)
  /-- Removes a file. -/
  removeFile : String → m (Except FileFault Unit)

/-! ## Paths -/

/-- The most octets in the name of a file. -/
def maxNameLength : Nat := 255

/-- The most octets in a path. -/
def maxPathLength : Nat := 4095

/-- What a path says: where it begins, the directories on the way, and the last name with
whether a slash behind it asks for a directory.  A path that ends with dots or is made of
slashes alone has no last name. -/
structure Path where
  isAbsolute : Bool
  way : List String
  last? : Option String
  asDirectory : Bool
  deriving DecidableEq, Repr

namespace Path

/-- The parts of a text between its slashes. -/
def parts (path : String) : List String :=
  (Text.splitOn '/' path.toList).map String.ofList

/-- The part leads to the directory itself or to the one around it. -/
def isDots (part : String) : Bool :=
  part = "." || part = ".."

/-- What a path says. -/
def ofText (path : String) : Path :=
  let ps := parts path
  let way := ps.filter (· ≠ "")
  let isAbsolute := ps.head? = some "" && ps.length > 1
  match way.getLast? with
  | none => ⟨isAbsolute, [], none, true⟩
  | some last =>
    if isDots last then ⟨isAbsolute, way, none, true⟩
    else ⟨isAbsolute, way.dropLast, some last, ps.getLast? = some ""⟩

end Path

/-! ## Folders -/

/-- Files by their names.  The name of a file is its path, written the shortest way.  No name is
that of a link, and where the folder stands among all files is not told, so that no path from
outside leads into it. -/
structure Folder where
  files : Catalog (List UInt8)

/-- A directory: one in the folder, told by the way to it; one around the folder; the root of
all files; or the directory of the devices. -/
inductive Directory where
  | inside (way : List String)
  | around
  | root
  | devices
  deriving DecidableEq, Repr

/-- Where a name leads from a directory. -/
inductive Location where
  | file (name : String)
  | directory (d : Directory)
  /-- No file, in a directory of the folder. -/
  | vacant (name : String)
  /-- No file, in a directory outside the folder. -/
  | vacantOutside
  /-- The device that holds nothing, whatever is written to it. -/
  | nullDevice
  deriving DecidableEq, Repr

namespace Folder

/-- The name of a file, from the directories on the way to it and its own. -/
def nameOf (way : List String) : String :=
  "/".intercalate way

/-- The directories on the way are those of a file. -/
def hasDirectory (f : Folder) (way : List String) : Bool :=
  f.files.keys.any fun name => (nameOf way ++ "/").toList.isPrefixOf name.toList

/-- Where a name leads from a directory. -/
def find (f : Folder) (d : Directory) (name : String) : Except FileFault Location :=
  if name.utf8ByteSize > maxNameLength then .error .tooLong
  else .ok <| match d with
    | .inside way =>
      let here := way ++ [name]
      if f.hasDirectory here then .directory (.inside here)
      else if (f.files.get? (nameOf here)).isSome then .file (nameOf here)
      else .vacant (nameOf here)
    | .around => .vacantOutside
    | .root => if name = "dev" then .directory .devices else .vacantOutside
    | .devices => if name = "null" then .nullDevice else .vacantOutside

/-- The directory around a directory. -/
def parent : Directory → Directory
  | .inside [] => .around
  | .inside way => .inside way.dropLast
  | .around => .around
  | .root => .root
  | .devices => .root

/-- The directory to which one part of a way leads. -/
def enter (f : Folder) (d : Directory) (part : String) : Except FileFault Directory :=
  if part = "." then .ok d
  else if part = ".." then .ok (parent d)
  else do
    match ← f.find d part with
    | .directory d => .ok d
    | .file _ | .nullDevice => .error .notDirectory
    | .vacant _ | .vacantOutside => .error .missing

/-- The directory in which the last name of a path is to be found. -/
def approach (f : Folder) (p : Path) : Except FileFault Directory :=
  p.way.foldlM f.enter (if p.isAbsolute then .root else .inside [])

/-- What a path says, and the directory in which its last name is to be found. -/
def reach (f : Folder) (path : String) : Except FileFault (Path × Directory) :=
  if path.isEmpty then .error .missing
  else if path.utf8ByteSize > maxPathLength then .error .tooLong
  else (f.approach (.ofText path)).map (Path.ofText path, ·)

/-- The octets of a file. -/
def read (f : Folder) (path : String) : Except FileFault (List UInt8) := do
  let (p, d) ← f.reach path
  match p.last? with
  | none => .error .isDirectory
  | some name =>
    match ← f.find d name with
    | .file name =>
      if p.asDirectory then .error .notDirectory
      else match f.files.get? name with
        | some octets => .ok octets
        | none => .error .missing
    | .nullDevice => if p.asDirectory then .error .notDirectory else .ok []
    | .directory _ => .error .isDirectory
    | .vacant _ | .vacantOutside => .error .missing

/-- The folder with a file of octets, in the place of one that is there.  A path with a slash
at its end names no file that could be made. -/
def write (f : Folder) (path : String) (octets : List UInt8) : Except FileFault Folder := do
  let (p, d) ← f.reach path
  match p.last?, p.asDirectory with
  | some name, false =>
    match ← f.find d name with
    | .file name | .vacant name => .ok ⟨f.files.put name octets⟩
    | .directory _ => .error .isDirectory
    | .vacantOutside | .nullDevice => .ok f
  | _, _ => .error .isDirectory

/-- The folder without a file. -/
def remove (f : Folder) (path : String) : Except FileFault Folder := do
  let (p, d) ← f.reach path
  match p.last? with
  | none => .error .isDirectory
  | some name =>
    match ← f.find d name with
    | .file name => if p.asDirectory then .error .notDirectory else .ok ⟨f.files.erase name⟩
    | .directory _ => .error .isDirectory
    | .vacant _ => .error .missing
    | .vacantOutside | .nullDevice => .ok f

/-- The folder that holds nothing. -/
def empty : Folder := ⟨.empty⟩

/-- The folder in which some files were made one after the other, if all of them can be. -/
def ofList (files : List (String × List UInt8)) : Except FileFault Folder :=
  files.foldlM (fun f p => f.write p.1 p.2) empty

end Folder

instance : MonadFiles (StateM Folder) where
  readFile path := fun f => (f.read path, f)
  writeFile path octets := fun f =>
    match f.write path octets with
    | .ok f' => (.ok (), f')
    | .error fault => (.error fault, f)
  removeFile path := fun f =>
    match f.remove path with
    | .ok f' => (.ok (), f')
    | .error fault => (.error fault, f)

end LockPrune.Command
