import SciArchive.Index.Basic
import SciArchive.Files.Resource

/-! Index files beside the data they describe: reading, writing, and the choice between a file that is
fresh and a new index. -/
namespace SciArchive

inductive IndexPolicy where
  | auto | rebuild | disabled
  deriving DecidableEq, Repr, Inhabited

structure IndexConfig where
  policy : IndexPolicy := .auto
  suffix : String := ".cdmx"
  persist : Bool := true
  deriving DecidableEq, Repr

/-- The suffix goes behind the whole name: `data.dat` has its index in `data.dat.cdmx`. -/
def IndexConfig.indexPath (c : IndexConfig) (primary : String) : String := primary ++ c.suffix

namespace SecondaryIndex

def read (d : Disk) (path : String) : Except Fault SecondaryIndex :=
  match Resource.entry d path with
  | .error e => .error e
  | .ok (.folder _) => .error (.cannotOpen path .isDirectory)
  | .ok (.file f) => (ofBytes f.bytes).mapError .invalidIndex

def write (ix : SecondaryIndex) (d : Disk) (path : String) : Except Fault Disk :=
  (d.write path ix.toBytes).mapError fun cause => .cannotOpen path cause

/-- Some source that is there was written after the file. -/
def isStale (d : Disk) (file : StoredFile) (sources : List String) : Bool :=
  sources.any fun s => (d.time? s).any file.time.before

/-- The index of a file that is there, is not older than its sources, and can be read. -/
def loadFresh? (d : Disk) (path : String) (sources : List String) : Option SecondaryIndex :=
  match d.find? path with
  | none => none
  | some file => if isStale d file sources then none else (read d path).toOption

/-- How an index was come by. -/
inductive Obtained where
  | disabled
  | loaded (ix : SecondaryIndex)
  | built (ix : SecondaryIndex)
  deriving DecidableEq, Repr

def Obtained.index? : Obtained → Option SecondaryIndex
  | disabled => none
  | loaded ix | built ix => some ix

/-- Build an index and keep it in its file, if it is to be kept; that may fail without harm. -/
def buildAndKeep (d : Disk) (path : String) (persist : Bool) (build : Except Fault SecondaryIndex) :
    Except Fault Obtained × Disk :=
  match build with
  | .error e => (.error e, d)
  | .ok ix => (.ok (.built ix), if persist then (ix.write d path).toOption.getD d else d)

/-- The index of `primary`, whose offsets point into it and its companions: none if disabled, from its
file if that is fresh and the policy allows it, and else what `build` gives. -/
def obtain (d : Disk) (primary : String) (companions : List String) (config : IndexConfig)
    (build : Except Fault SecondaryIndex) : Except Fault Obtained × Disk :=
  let path := config.indexPath primary
  match config.policy with
  | .disabled => (.ok .disabled, d)
  | .rebuild => buildAndKeep d path config.persist build
  | .auto =>
    match loadFresh? d path (primary :: companions) with
    | some ix => (.ok (.loaded ix), d)
    | none => buildAndKeep d path config.persist build

end SecondaryIndex
end SciArchive
