import VectorScript.Console.Session
import VectorScript.NameMap

/-!
# Disks in memory

A tree of directories and files with a working directory, in which a session can read and write.
Entries are named by their paths from the root. All parts of a path but the last must lead into
directories; two dots lead out of one again, and out of the root nowhere. Files hold bytes; only
UTF-8 can be read as text.
-/

namespace VectorScript

inductive DiskEntry
  | file (bytes : ByteArray)
  | directory
  /-- Reads as empty and swallows what is written. -/
  | sink

/-- A place on a disk: the names that lead to it from the root, the last one first. -/
abbrev Place := List String

/-- The path of a place. -/
def Place.path (p : Place) : String := String.join (p.reverse.map ("/" ++ ·))

structure Disk where
  entries : NameMap DiskEntry
  /-- The working directory. -/
  home : Place

namespace Disk

/-! ## Faults -/

def notFound : FileFault := .notFound "No such file or directory (os error 2)"

def notDirectory : FileFault := .other "Not a directory (os error 20)"

def isDirectory : FileFault := .other "Is a directory (os error 21)"

def nameTooLong : FileFault := .other "File name too long (os error 36)"

def badName : FileFault := .other "file name contained an unexpected NUL byte"

def notText : FileFault := .other "stream did not contain valid UTF-8"

/-! ## Creation -/

/-- The directories that every disk has. -/
def usualDirectories : List String :=
  ["/bin", "/dev", "/etc", "/home", "/lib", "/opt", "/proc", "/root", "/run", "/sbin", "/sys",
    "/tmp", "/usr", "/usr/bin", "/usr/lib", "/var", "/var/tmp"]

/-- A disk whose working directory is empty. -/
def new : Disk :=
  let home : Place := ["session", "tmp"]
  let directories := (home.path :: usualDirectories).foldl (·.insert · .directory) NameMap.empty
  { entries := directories.insert "/dev/null" .sink, home := home }

def entry? (d : Disk) (p : Place) : Option DiskEntry :=
  if p.isEmpty then some .directory else d.entries.get? p.path

/-- Puts an entry at a place, replacing what was there. -/
def put (d : Disk) (p : Place) (e : DiskEntry) : Disk :=
  { d with entries := d.entries.insert p.path e }

/-- Puts an entry into the working directory. -/
def add (d : Disk) (name : String) (e : DiskEntry) : Disk := d.put (name :: d.home) e

/-! ## Paths -/

/-- The most bytes that a name may take. -/
def maxName : Nat := 255

/-- The most bytes that a path may take. -/
def maxPath : Nat := 4095

/-- Where a part of a path leads from a directory. -/
def step (within : Place) (part : String) : Except FileFault Place :=
  if part = "." then .ok within
  else if part = ".." then .ok within.tail
  else if maxName < part.utf8ByteSize then .error nameTooLong
  else .ok (part :: within)

/-- Follows parts of a path from a directory into directories. -/
def walk (d : Disk) (within : Place) : List String → Except FileFault Place
  | [] => .ok within
  | part :: rest => do
    let next ← step within part
    match d.entry? next with
    | some .directory => d.walk next rest
    | some _ => throw notDirectory
    | none => throw notFound

/-- The directory that the last part of a path is sought in, and that part. A path of slashes alone
has no parts. -/
def locate (d : Disk) (path : String) : Except FileFault (Place × Option String) := do
  if path.contains '\x00' then throw badName
  if path.isEmpty then throw notFound
  if maxPath < path.utf8ByteSize then throw nameTooLong
  let parts := (FileName.parts path.toList).map String.ofList
  let start := if path.startsWith "/" then [] else d.home
  return (← d.walk start parts.dropLast, parts.getLast?)

/-! ## Reading and writing -/

/-- The text of a file. A path that ends in a slash must lead to a directory, which has no text. -/
def read (d : Disk) (path : String) : Except FileFault String := do
  let (within, last?) ← d.locate path
  let some last := last? | throw isDirectory
  match d.entry? (← step within last) with
  | none => throw notFound
  | some .directory => throw isDirectory
  | some (.file bytes) =>
    if path.endsWith "/" then throw notDirectory
    match String.fromUTF8? bytes with
    | some text => return text
    | none => throw notText
  | some .sink => if path.endsWith "/" then throw notDirectory else return ""

/-- Puts a text into a file, which is made if it is not there. -/
def write (d : Disk) (path text : String) : Except FileFault Disk := do
  let (within, last?) ← d.locate path
  let some last := last? | throw isDirectory
  if path.endsWith "/" then throw isDirectory
  let place ← step within last
  match d.entry? place with
  | some .directory => throw isDirectory
  | some .sink => return d
  | some (.file _) | none => return d.put place (.file text.toUTF8)

/-- The name of an entry that lies in the working directory itself, given its path. -/
def homeName? (d : Disk) (path : String) : Option String :=
  let front := (d.home.path ++ "/").toList
  let name := path.toList.drop front.length
  if front.isPrefixOf path.toList && !name.contains '/' then some (String.ofList name) else none

/-- The files in the working directory that hold text, by name. -/
def texts (d : Disk) : List (String × String) :=
  d.entries.entries.filterMap fun (path, entry) =>
    match d.homeName? path, entry with
    | some name, .file bytes => (String.fromUTF8? bytes).map fun text => (name, text)
    | _, _ => none

/-! ## Sessions on a disk -/

/-- A terminal that works on a disk. Frames follow each other at the given pace. -/
def terminal (pace : Nat) : Terminal (StateM (Disk × Nat)) where
  read path := return (← get).1.read path
  write path text := do
    let (d, frames) ← get
    match d.write path text with
    | .ok d =>
      set (d, frames)
      return .ok ()
    | .error e => return .error e
  nextFrame := do
    let (d, frames) ← get
    set (d, frames + 1)
    return some (Int32.ofNat (frames * pace))

end Disk

end VectorScript
