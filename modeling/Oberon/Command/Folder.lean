import Oberon.Command.Session

/-!
# An empty folder

What saving a text does when the command works in a folder that holds nothing yet. A path is
followed part by part, from the folder or, if it starts with a slash, from the root. Of what
lies outside of the folder, the standard folders under the root are known and a few devices.

Every part but the last has to lead to a folder. The last one names the file to make; a path
that ends with a slash or with dots names a folder whether there is one or not.
-/

namespace Oberon.Command

/-- Why a path cannot be opened for writing. -/
inductive OpenFault where
  | notFound
  | notFolder
  | isFolder
  | nameTooLong
  deriving DecidableEq

/-- The system's report of the fault. -/
def OpenFault.message : OpenFault → String
  | .notFound => "No such file or directory (os error 2)"
  | .notFolder => "Not a directory (os error 20)"
  | .isFolder => "Is a directory (os error 21)"
  | .nameTooLong => "File name too long (os error 36)"

/-- The greatest number of bytes in a file name. -/
def maxNameBytes : Nat := 255

/-- The greatest number of bytes in a path. -/
def maxPathBytes : Nat := 4095

/-- A folder that a path has led to. -/
inductive Place where
  /-- So many folders above the one where the command works. -/
  | above (levels : Nat)
  | root
  /-- A standard folder under the root. -/
  | system (name : String)
  deriving DecidableEq

/-- A file that is no file of a disk. -/
inductive Device where
  /-- Forgets what is written to it. -/
  | null
  /-- Has no room for anything. -/
  | full
  | stdout
  | stderr
  deriving DecidableEq

/-- What a path can be opened as. -/
inductive Opened where
  | file (place : Place) (name : String)
  | device (device : Device)
  deriving DecidableEq

/-- What a folder holds under a name. -/
inductive Entry where
  | folder (place : Place)
  | device (device : Device)

/-- The folders under the root. -/
def systemFolders : List String :=
  ["bin", "boot", "dev", "etc", "home", "lib", "media", "mnt", "opt", "proc", "root", "run",
    "sbin", "srv", "sys", "tmp", "usr", "var"]

/-- The device with a name. -/
def Device.ofName? : String → Option Device
  | "null" => some .null
  | "full" => some .full
  | "stdout" => some .stdout
  | "stderr" => some .stderr
  | _ => none

namespace Place

/-- The folder around a folder; the root is around itself. -/
def parent : Place → Place
  | .above levels => .above (levels + 1)
  | .root | .system _ => .root

/-- What is known to be in a folder under a name. -/
def entry? : Place → String → Option Entry
  | .root, name => if systemFolders.contains name then some (.folder (.system name)) else none
  | .system "dev", name => (Device.ofName? name).map .device
  | _, _ => none

/-- Follows one part of a path that goes on after it. -/
def enter (place : Place) (part : String) : Except OpenFault Place :=
  if part = "." then .ok place
  else if part = ".." then .ok place.parent
  else if maxNameBytes < part.utf8ByteSize then .error .nameTooLong
  else match place.entry? part with
    | some (.folder inner) => .ok inner
    | some (.device _) => .error .notFolder
    | none => .error .notFound

/-- Opens the file with a name, which is made if it is not there. -/
def openFile (place : Place) (name : String) : Except OpenFault Opened :=
  if name = "." || name = ".." then .error .isFolder
  else if maxNameBytes < name.utf8ByteSize then .error .nameTooLong
  else match place.entry? name with
    | some (.folder _) => .error .isFolder
    | some (.device device) => .ok (.device device)
    | none => .ok (.file place name)

/-- Follows the parts of a path; `slash` tells whether a slash comes after the last one. -/
def openParts (slash : Bool) : Place → List String → Except OpenFault Opened
  | _, [] => .error .isFolder
  | place, [name] => if slash then .error .isFolder else place.openFile name
  | place, part :: rest => do
    let inner ← place.enter part
    openParts slash inner rest

end Place

/-- What a path opens when the command works in an empty folder. -/
def openInEmptyFolder (path : String) : Except OpenFault Opened :=
  if path = "" then .error .notFound
  else if maxPathBytes < path.utf8ByteSize then .error .nameTooLong
  else
    let start := if path.startsWith "/" then Place.root else Place.above 0
    start.openParts (path.endsWith "/") ((path.splitOn "/").filter (· ≠ ""))

/-- How the command ends that saves a text in an empty folder. -/
def saveInEmptyFolder (path text : String) : Outcome :=
  match openInEmptyFolder path with
  | .error e => openFailure path e.message
  | .ok (.file ..) | .ok (.device .null) => {}
  | .ok (.device .full) => writeFailure path "No space left on device (os error 28)"
  | .ok (.device .stdout) => { stdout := text }
  | .ok (.device .stderr) => { stderr := text }

/-- What can be read under `name` after a text was saved to `path` in an empty folder. -/
def contentAfterSave (path text name : String) : Option String :=
  match openInEmptyFolder path, openInEmptyFolder name with
  | .ok (.file place file), .ok (.file place' file') =>
    if place = place' ∧ file = file' then some text else none
  | _, _ => none

end Oberon.Command
