import SciArchive.Files.Disk

/-! Resources: files that records are read from, which can be closed for all readers at once. -/
namespace SciArchive

/-- Handles of the same number share one closed state. -/
structure Resource where
  path : String
  number : Nat
  deriving DecidableEq, Repr, Inhabited

/-- Numbers given out so far, and those of closed resources. -/
structure Ledger where
  issued : Nat := 0
  closed : List Nat := []
  deriving DecidableEq, Repr

namespace Ledger

def issue (l : Ledger) : Nat × Ledger := (l.issued, { l with issued := l.issued + 1 })

def isClosed (l : Ledger) (r : Resource) : Bool := l.closed.contains r.number

def close (l : Ledger) (r : Resource) : Ledger := { l with closed := r.number :: l.closed }

def closeAll (l : Ledger) (rs : List Resource) : Ledger := rs.foldl close l

/-- A closed resource fails every use. -/
def check (l : Ledger) (r : Resource) : Except Fault Unit :=
  if l.isClosed r then .error (.resourceClosed r.path) else .ok ()

end Ledger

/-- The size that a folder itself has. -/
def folderSize : Nat := 4096

def DiskEntry.size : DiskEntry → Nat
  | folder _ => folderSize
  | file f => f.bytes.length

/-- Where the largest file of the disk ends: it has a block of 4096 bytes for every number below the
largest word of four bytes. -/
def offsetLimit : Nat := 4294967295 * 4096

/-- The largest offset that a reader can go to. -/
def DiskEntry.reach (e : DiskEntry) : Nat := max e.size offsetLimit

/-- The bytes of a file. A folder can be opened like one, but not read. -/
def DiskEntry.read : DiskEntry → Except Fault (List UInt8)
  | folder _ => .error (.cannotRead .isDirectory)
  | file f => .ok f.bytes

namespace Resource

/-- What is opened for reading at the end of a path. -/
def entry (d : Disk) (path : String) : Except Fault DiskEntry :=
  (d.entry path).mapError (Fault.cannotOpen path)

/-- The bytes of a file that is opened and read from its start. -/
def read (d : Disk) (path : String) : Except Fault (List UInt8) :=
  (entry d path).bind DiskEntry.read

/-- The number of bytes in the file that the path leads to now. -/
def size (r : Resource) (d : Disk) : Except Fault Nat :=
  (d.entry r.path).mapError Fault.cannotRead |>.map DiskEntry.size

def openAt (d : Disk) (l : Ledger) (path : String) : Except Fault (Resource × Ledger) :=
  (entry d path).map fun _ => (⟨path, l.issue.1⟩, l.issue.2)

/-- What a new reader of the resource opens. -/
def reopen (d : Disk) (l : Ledger) (r : Resource) : Except Fault DiskEntry :=
  (l.check r).bind fun _ => entry d r.path

end Resource
end SciArchive
