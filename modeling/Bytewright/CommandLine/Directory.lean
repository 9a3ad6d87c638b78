import Bytewright.Code.Binary

/-!
# Working directories

A command line can be followed without a file system when the directory in which it works is given
as a value: a list of files, with no directory among them.  Outside of it are the directories that
contain it, of whose entries nothing is known, and the little that every system has: the root, the
directories `/dev` and `/tmp`, and the device `/dev/null`, which is always empty.

A path is followed from left to right, one name at a time, and the first name that leads nowhere
decides what is wrong with the path.
-/

namespace Bytewright

/-! ### Faults -/

/-- What is wrong with a path. -/
inductive PathFault where
  /-- A name on the path is not there. -/
  | noEntry
  /-- The user has no right to the file. -/
  | denied
  /-- A file stands where the path needs a directory. -/
  | notDirectory
  /-- A directory stands where a file is needed. -/
  | isDirectory
  /-- A name, or the path, is longer than the system takes. -/
  | nameTooLong
deriving DecidableEq, Repr

namespace PathFault

def all : List PathFault := [noEntry, denied, notDirectory, isDirectory, nameTooLong]

/-- The number by which the system knows a fault. -/
def number : PathFault → Nat
  | noEntry => 2
  | denied => 13
  | notDirectory => 20
  | isDirectory => 21
  | nameTooLong => 36

def ofNumber? (n : Nat) : Option PathFault := all.find? (·.number == n)

def title : PathFault → String
  | noEntry => "No such file or directory"
  | denied => "Permission denied"
  | notDirectory => "Not a directory"
  | isDirectory => "Is a directory"
  | nameTooLong => "File name too long"

def message (f : PathFault) : String :=
  f.title ++ " (os error " ++ Decimal.digitsOf f.number ++ ")"

end PathFault

def textOf (bytes : Binary.Bytes) : Except String String :=
  match String.fromUTF8? ⟨bytes.toArray⟩ with
  | some s => .ok s
  | none => .error "stream did not contain valid UTF-8"

/-! ### Paths -/

structure Path where
  absolute : Bool
  /-- The names on it, in order; none is empty. -/
  names : List String
  /-- A slash follows the last name. -/
  slashed : Bool
deriving DecidableEq, Repr

namespace Path

/-- The bytes that a name may have. -/
def nameLimit : Nat := 255

/-- The bytes that a path may have. -/
def limit : Nat := 4095

/-- The parts of a path; slashes in a row count as one. -/
def ofString (s : String) : Except PathFault Path :=
  if limit < s.utf8ByteSize then .error .nameTooLong
  else .ok
    { absolute := s.startsWith "/"
      names := (s.splitOn "/").filter (· ≠ "")
      slashed := s.endsWith "/" }

end Path

/-! ### Directories -/

/-- A directory that a path can pass. -/
inductive Folder where
  | working
  /-- A directory that contains the working directory. -/
  | above
  | root
  /-- The directory of devices, `/dev`. -/
  | devices
  /-- The directory for passing files, `/tmp`. -/
  | scratch
deriving DecidableEq, Repr

/-- The directory around a directory; the root is its own. -/
def Folder.parent : Folder → Folder
  | working | above => above
  | root | devices | scratch => root

inductive Place where
  | folder (f : Folder)
  /-- To a file of the working directory. -/
  | file (name : String)
  /-- To the device that is always empty. -/
  | null
deriving DecidableEq, Repr

def Place.asFolder : Place → Except PathFault Folder
  | folder f => .ok f
  | _ => .error .notDirectory

/-- The files of a working directory: of two files of one name, the first counts. -/
structure Directory where
  files : List (String × Binary.Bytes) := []
deriving DecidableEq, Repr

namespace Directory

def file? (d : Directory) (name : String) : Option Binary.Bytes := d.files.lookup name

/-- The working directory with a file, in place of one that had its name. -/
def insert (d : Directory) (name : String) (bytes : Binary.Bytes) : Directory :=
  ⟨(name, bytes) :: d.files⟩

def entry? (d : Directory) : Folder → String → Option Place
  | .working, name => (d.file? name).map fun _ => .file name
  | .root, "dev" => some (.folder .devices)
  | .root, "tmp" => some (.folder .scratch)
  | .devices, "null" => some .null
  | _, _ => none

/-- What a name stands for in a directory: itself, the directory around it, or an entry, which may
be missing. -/
def look (d : Directory) (f : Folder) (name : String) : Except PathFault (Option Place) :=
  if name = "." then .ok (some (.folder f))
  else if name = ".." then .ok (some (.folder f.parent))
  else if Path.nameLimit < name.utf8ByteSize then .error .nameTooLong
  else .ok (d.entry? f name)

def step (d : Directory) (p : Place) (name : String) : Except PathFault Place := do
  match ← d.look (← p.asFolder) name with
  | some q => .ok q
  | none => .error .noEntry

def follow (d : Directory) (p : Path) (names : List String) : Except PathFault Place :=
  names.foldlM d.step (.folder (if p.absolute then .root else .working))

/-- The content of the file at a path.  A slash at the end asks for a directory. -/
def read (d : Directory) (path : String) : Except PathFault Binary.Bytes := do
  let p ← Path.ofString path
  let place ← d.follow p p.names
  if p.slashed then
    let _ ← place.asFolder
  match place with
  | .folder _ => .error .isDirectory
  | .file name => .ok ((d.file? name).getD [])
  | .null => .ok []

/-- The text of the file at a path, or why there is none. -/
def readText (d : Directory) (path : String) : Except String String := do
  textOf (← (d.read path).mapError PathFault.message)

/-- The directory and the name in it that a file to be written gets.  A slash at the end asks for a
directory, and none is made. -/
def target (d : Directory) (path : String) : Except PathFault (Folder × String) := do
  let p ← Path.ofString path
  match p.names.getLast? with
  | none => .error .isDirectory
  | some name =>
    let f ← (← d.follow p p.names.dropLast).asFolder
    if p.slashed then .error .isDirectory
    else match ← d.look f name with
      | some (.folder _) => .error .isDirectory
      | _ => .ok (f, name)

/-- Writes a file.  What is written outside the working directory is not kept. -/
def write (d : Directory) (path : String) (bytes : Binary.Bytes) : Except PathFault Directory := do
  let (f, name) ← d.target path
  return if f = .working then d.insert name bytes else d

end Directory

end Bytewright
