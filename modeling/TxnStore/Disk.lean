import TxnStore.Bytes.Text
import TxnStore.Device
import TxnStore.Disk.Path
import TxnStore.Table

/-!
# Disks

A disk is a tree of directories and files around one directory in which the work is done. Each
directory and file has one place: the names that lead to it from the top, with a slash before each.
A path leads to a place name by name, and what lies before a name must be a directory that is there.
The directory of the work can be removed with all that it holds, and made again.
-/

namespace TxnStore

/-- What lies at a path. -/
inductive DiskItem where
  | missing (fault : PathFault)
  /-- A directory, or something else that cannot be read. -/
  | directory
  | file (bytes : List UInt8)
  /-- What takes all bytes and gives none back. -/
  | void
deriving DecidableEq, Repr

namespace DiskItem

/-- The bytes to be read. -/
def bytes? : DiskItem → Option (List UInt8)
  | file bs => some bs
  | void => some []
  | _ => none

/-- The text to be read. -/
def text : DiskItem → Except FileFault String
  | missing fault => .error (.path fault)
  | directory => .error .directory
  | file bs =>
    match Text.ofBytes? bs with
    | some s => .ok s
    | none => .error .notUtf8
  | void => .ok ""

end DiskItem

/-- A tree of directories and files. -/
structure Disk where
  /-- The place of the directory in which the work is done. -/
  root : String
  /-- The places of the directories. The top is one without being named. -/
  directories : List String
  /-- The files by their places. -/
  files : Table String (List UInt8)

namespace Disk

/-! ## Places -/

/-- The directories right below the top. -/
def topDirectories : List String :=
  ["/bin", "/boot", "/dev", "/etc", "/home", "/lib", "/media", "/mnt", "/opt", "/proc", "/root",
    "/run", "/sbin", "/srv", "/sys", "/tmp", "/usr", "/var"]

/-- The place of what takes all bytes. -/
def voidPlace : String := "/dev/null"

/-- Where the path of a command starts that does not start at the top. No files are there. -/
def commandPlace : String := "/home"

/-- Whether a directory is at a place; the empty place is the top. -/
def hasDirectory (d : Disk) (place : String) : Bool :=
  place == "" || d.directories.contains place

/-- What lies at a place. -/
def itemAt (d : Disk) (place : String) : DiskItem :=
  match d.files.get? place with
  | some bs => .file bs
  | none =>
    if d.hasDirectory place then .directory
    else if place = voidPlace then .void
    else .missing .absent

/-- The place to which names lead from another place. They lead nowhere behind what is no directory,
or behind a name that is too long. The way up from the top ends at the top. -/
def follow (d : Disk) (place : String) : List String → Except PathFault String
  | [] => .ok place
  | name :: rest =>
    match d.itemAt place with
    | .missing fault => .error fault
    | .directory =>
      if Path.stays name then follow d place rest
      else if name = ".." then follow d (Path.parent place) rest
      else if name.utf8ByteSize ≤ Path.maxNameBytes then follow d (place ++ "/" ++ name) rest
      else .error .tooLong
    | _ => .error .notDirectory

/-- The place to which a path leads that starts at a directory or at the top. Nothing need lie
there. -/
def placeFrom (d : Disk) (directory path : String) : Except PathFault String :=
  if path = "" then .error .absent
  else if Path.maxBytes < path.utf8ByteSize then .error .tooLong
  else d.follow (if Path.isAbsolute path then "" else directory) (Path.names path)

/-- What lies at a path that starts at a directory or at the top. -/
def itemFrom (d : Disk) (directory path : String) : DiskItem :=
  match d.placeFrom directory path with
  | .ok place => d.itemAt place
  | .error fault => .missing fault

/-- What lies at the path of a command. -/
def look (d : Disk) (path : String) : DiskItem := d.itemFrom commandPlace path

/-- The full path of a path of the work. -/
def fullPath (d : Disk) (path : String) : String :=
  if Path.isAbsolute path then path else d.root ++ "/" ++ path

/-- The place to which a path of the work leads. -/
def place (d : Disk) (path : String) : Except PathFault String := d.placeFrom "" (d.fullPath path)

/-- What lies at a path of the work. -/
def item (d : Disk) (path : String) : DiskItem := d.itemFrom "" (d.fullPath path)

/-! ## Files -/

def file? (d : Disk) (path : String) : Option (List UInt8) := (d.item path).bytes?

/-- The place for a file at a path: its directory must be there, and it must be no directory. -/
def filePlace? (d : Disk) (path : String) : Option String :=
  (d.place path).toOption.filter (!d.hasDirectory ·)

def put (d : Disk) (place : String) (bs : List UInt8) : Disk :=
  if place = voidPlace then d else { d with files := d.files.insert place bs }

def write (d : Disk) (path : String) (bs : List UInt8) : Except StoreError Disk :=
  if path.contains '\x00' then .error (.device .nulInPath)
  else
    match d.filePlace? path with
    | some place => .ok (d.put place bs)
    | none => .error (.device .host)

/-- The device of a file, which is made if it is missing. -/
def device (d : Disk) (path : String) : Except StoreError Device :=
  match d.filePlace? path with
  | some place => .ok (Device.ofHost ((d.files.get? place).getD []))
  | none => .error (.device .host)

/-! ## Directories -/

/-- Removes the directory of the work with all that it holds. -/
def remove (d : Disk) : Disk :=
  { d with
    directories := d.directories.filter (!Path.isWithin d.root ·)
    files := ⟨d.files.toList.filter (!Path.isWithin d.root ·.1)⟩ }

/-- Makes the directory to which a name leads from a place, if it is missing, and gives its place.
The directory around it must be there. -/
def makeStep (place name : String) : Action Disk String := do
  let d ← get
  match d.follow place [name] with
  | .error _ => throw (.device .host)
  | .ok place =>
    match d.itemAt place with
    | .directory => return place
    | .missing _ =>
      set { d with directories := d.directories ++ [place] }
      return place
    | _ => throw (.device .host)

/-- Makes the directories to which names lead one after the other. -/
def makeSteps (place : String) : List String → Action Disk Unit
  | [] => return
  | name :: rest => do makeSteps (← makeStep place name) rest

/-- Makes the directory of the work, if it is missing. -/
def restore (d : Disk) : Disk := ((makeSteps "" (Path.steps d.root)).runOn d).2

/-- Makes the directory of a path and those on the way to it, where they are missing. The directory
before a dot at the end of the path is one that has to be there. -/
def makeDirectory (path : String) : Action Disk Unit := do
  if path.contains '\x00' then throw (.device .nulInPath)
  let d ← get
  if Path.maxBytes < (d.fullPath path).utf8ByteSize then throw (.device .host)
  let steps := Path.steps path
  let steps := if Path.endsInDot path then steps.dropLast else steps
  if Path.isAbsolute path then makeSteps "" steps
  else
    if !Path.endsInDot path || !(Path.steps path).isEmpty then modify restore
    makeSteps d.root steps
  if (← get).item path ≠ .directory then throw (.device .host)

/-! ## Files with their directories -/

/-- Stores files one after the other, up to the first that cannot be stored. The directories on the
way to them are made where they are missing. -/
def writeAll : List (String × List UInt8) → Action Disk Unit
  | [] => return
  | (path, bs) :: rest => do
    makeDirectory (Path.parent path)
    set (← Action.ofExcept ((← get).write path bs))
    writeAll rest

/-- A disk with files in the directory of the work. -/
def ofFiles (root : String) (files : List (String × List UInt8)) : Disk :=
  ((writeAll files).runOn (restore ⟨root, topDirectories, Table.empty⟩)).2

end Disk

end TxnStore
