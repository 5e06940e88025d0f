import SciArchive.Fault
import SciArchive.Files.Path

/-! The files that an archive lies in: names, bytes and the times at which they were written. -/
namespace SciArchive

/-- A given time, or the time of a program's own writing, which is later. -/
inductive FileTime where
  | tick (n : Int)
  | now
  deriving DecidableEq, Repr

def FileTime.before : FileTime → FileTime → Bool
  | tick a, tick b => decide (a < b)
  | tick _, now => true
  | now, _ => false

/-- A file keeps its number while it is written anew, and also once its name is gone. -/
structure StoredFile where
  number : Nat
  bytes : List UInt8
  time : FileTime
  deriving DecidableEq, Repr

/-- What a path leads to. -/
inductive DiskEntry where
  | folder (time : FileTime)
  | file (f : StoredFile)
  deriving DecidableEq, Repr

def DiskEntry.time : DiskEntry → FileTime
  | folder time => time
  | file f => f.time

/-- Files and folders by the names that lead to them from the folder at hand, or from the topmost one,
whose name is a slash. Folders were written now, unless they were given another time since a name came or
went in them. Removed files stay for those who hold them open. -/
structure Disk where
  files : List (List String × StoredFile) := []
  folders : List (List String) := []
  folderTimes : List (List String × FileTime) := []
  removed : List StoredFile := []
  issued : Nat := 0
  deriving Repr

namespace Disk

def isFolder (d : Disk) (place : List String) : Bool :=
  Path.isOutward place || place == ["/"] || d.folders.contains place

/-- Why a place that is no folder cannot be used as one. -/
def notFolder (d : Disk) (place : List String) : DiskFailure :=
  if (d.files.lookup place).isSome then .notDirectory else .noEntry

/-- Follow names from a folder; only folders can be passed through. -/
def walk (d : Disk) : List String → List String → Except DiskFailure (List String)
  | place, [] => .ok place
  | place, name :: rest =>
    if !d.isFolder place then .error (d.notFolder place)
    else if Path.nameLimit < name.utf8ByteSize then .error .nameTooLong
    else d.walk (Path.follow place name) rest

/-- Follow a path as far as its names lead. -/
def follow (d : Disk) (path : String) : Except DiskFailure (List String) :=
  if path.toList.contains '\x00' then .error .nameHasNull
  else if path.isEmpty then .error .noEntry
  else if Path.limit < path.utf8ByteSize then .error .nameTooLong
  else d.walk (Path.start path) (Path.steps path)

/-- Whether the path asks for a folder, by ending in a slash or a dot. -/
def wantsFolder (path : String) : Bool :=
  match (Path.parts path).getLast? with
  | some last => Path.isIdle last
  | none => false

/-- Where a path leads, whether or not something is there. -/
def place (d : Disk) (path : String) : Except DiskFailure (List String) :=
  match d.follow path with
  | .error e => .error e
  | .ok place =>
    if wantsFolder path ∧ !d.isFolder place then .error (d.notFolder place) else .ok place

/-- What is at the end of a path. -/
def entry (d : Disk) (path : String) : Except DiskFailure DiskEntry :=
  match d.place path with
  | .error e => .error e
  | .ok place =>
    if d.isFolder place then .ok (.folder ((d.folderTimes.lookup place).getD .now))
    else
      match d.files.lookup place with
      | some f => .ok (.file f)
      | none => .error .noEntry

def find? (d : Disk) (path : String) : Option StoredFile :=
  match d.entry path with
  | .ok (.file f) => some f
  | _ => none

def has (d : Disk) (path : String) : Bool := (d.entry path).isOk

def bytes? (d : Disk) (path : String) : Option (List UInt8) := (d.find? path).map StoredFile.bytes

/-- When the file, or the folder, at the end of a path was written. -/
def time? (d : Disk) (path : String) : Option FileTime := (d.entry path).toOption.map DiskEntry.time

/-- The bytes of a file that is held open. -/
def held? (d : Disk) (number : Nat) : Option (List UInt8) :=
  ((d.files.map Prod.snd ++ d.removed).find? fun f => f.number == number).map StoredFile.bytes

/-- A name comes or goes in the folder that holds a place. -/
def renew (d : Disk) (place : List String) : Disk :=
  { d with folderTimes := d.folderTimes.filter fun f => f.1 ≠ Path.above place }

/-- The file at a place with other bytes, or a new one. -/
def put (d : Disk) (place : List String) (bytes : List UInt8) (time : FileTime) : Disk :=
  let others := d.files.filter fun f => f.1 ≠ place
  match d.files.lookup place with
  | some f => { d with files := (place, { f with bytes, time }) :: others }
  | none =>
    { d.renew place with
      files := (place, ⟨d.issued, bytes, time⟩) :: others, issued := d.issued + 1 }

/-- Write a file in an existing folder, or say why that cannot be. -/
def write (d : Disk) (path : String) (bytes : List UInt8) : Except DiskFailure Disk :=
  match d.follow path with
  | .error e => .error e
  | .ok place =>
    if d.isFolder place ∨ Path.endsInSlash path then .error .isDirectory
    else if wantsFolder path then .error (d.notFolder place)
    else .ok (d.put place bytes .now)

/-- Follow names from a folder, making the folders that are not there. -/
def enter (d : Disk) (place : List String) : List String → Disk × List String
  | [] => (d, place)
  | name :: rest =>
    let next := Path.follow place name
    enter (if d.isFolder next then d else { d.renew next with folders := next :: d.folders }) next rest

/-- Make a folder with those on the way to it. -/
def layFolder (d : Disk) (path : String) : Disk := (d.enter (Path.start path) (Path.steps path)).1

/-- Lay down a file with the folders on the way to it. -/
def lay (d : Disk) (path : String) (bytes : List UInt8) (time : FileTime) : Disk :=
  let steps := Path.steps path
  let r := d.enter (Path.start path) steps.dropLast
  r.1.put (steps.getLast?.elim r.2 (Path.follow r.2)) bytes time

def setTime (d : Disk) (path : String) (time : FileTime) : Disk :=
  match d.place path, d.entry path with
  | .ok place, .ok (.folder _) => { d with folderTimes := (place, time) :: d.folderTimes }
  | .ok place, .ok (.file f) => d.put place f.bytes time
  | _, _ => d

def remove (d : Disk) (path : String) : Disk :=
  match d.place path, d.find? path with
  | .ok place, some f =>
    { d.renew place with
      files := d.files.filter fun f => f.1 ≠ place, removed := f :: d.removed }
  | _, _ => d

/-- The names of all files in the folder at hand in order. -/
def names (d : Disk) : List String :=
  let places := (d.files.map Prod.fst).filter Path.isInside
  (places.map (String.intercalate "/")).mergeSort fun a b => decide (a ≤ b)

end Disk
end SciArchive
