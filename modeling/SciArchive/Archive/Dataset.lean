import SciArchive.Archive.Lightning
import SciArchive.Archive.Station

/-! Opened datasets: the tree of a file, its sequences of records, and the resources behind them. -/
namespace SciArchive

/-- The known formats, in the order in which they are tried. -/
inductive Format where
  | nldn | ghcnm
  deriving DecidableEq, Repr, Inhabited

namespace Format

def all : List Format := [nldn, ghcnm]

def id : Format → String
  | nldn => "NLDN"
  | ghcnm => "GHCNM"

def description : Format → String
  | nldn => "National Lightning Detection Network"
  | ghcnm => "Global Historical Climatology Network Monthly"

/-- Case does not matter. -/
def ofId? (text : String) : Option Format := all.find? fun f => Text.equalIgnoringCase f.id text

/-- Whether the file looks like the format. -/
def accepts (d : Disk) (path : String) : Format → Bool
  | nldn => Lightning.accepts d path
  | ghcnm => Station.accepts d path

/-- The first format that accepts the file. -/
def detect (d : Disk) (path : String) : Except Fault Format :=
  if !d.has path then .error (.cannotOpen path .absent)
  else
    match all.find? (accepts d path) with
    | some f => .ok f
    | none => .error (.unsupportedFormat path)

end Format

/-- How the records of a dataset are reached. -/
inductive Access where
  | strikes (resource : Resource)
  | stations (data catalog : Resource) (index : Option SecondaryIndex)
  deriving Repr

structure Dataset where
  path : String
  format : Format
  tree : NamespaceTree
  access : Access
  resources : List Resource
  closed : Bool := false

namespace Access

def sequences : Access → List String
  | strikes _ => [Lightning.sequence]
  | stations .. => [Station.allData, Station.stations, Station.nestedData]

def index? : Access → Option SecondaryIndex
  | strikes _ => none
  | stations _ _ index => index

def stream (d : Disk) (l : Ledger) (sequence : String) : Access → Except Fault Stream
  | strikes r =>
    if sequence = Lightning.sequence then Stream.blocks d l r Lightning.strikes Lightning.framing
    else .error (.notFound sequence)
  | stations data catalog _ =>
    if sequence = Station.allData then Stream.scan d l data (.text Station.dataLayout) fun _ => true
    else if sequence = Station.stations then
      Stream.scan d l catalog (.text Station.catalogLayout) fun _ => true
    else .error (.notFound sequence)

/-- Scan a file for the lines of one station. -/
def scanFor (d : Disk) (l : Ledger) (r : Resource) (layout : TextLayout) (key : String) :
    Except Fault Stream :=
  Stream.scan d l r (.text layout) (Record.hasKey Station.keyField key)

/-- The data lines of a station: where the index says, if they are adjacent. -/
def stationData (d : Disk) (l : Ledger) (data : Resource) (index : Option SecondaryIndex)
    (key : String) : Except Fault Stream :=
  match index with
  | none => scanFor d l data Station.dataLayout key
  | some ix =>
    match ix.get? key with
    | none => Stream.keyed d l data (.text Station.dataLayout) 0 0
    | some e =>
      if e.contiguous then
        Stream.keyed d l data (.text Station.dataLayout) e.offset.toNat e.count.toNat
      else scanFor d l data Station.dataLayout key

/-- The catalog line of a station: where the index says, if it says so. -/
def stationLine (d : Disk) (l : Ledger) (catalog : Resource) (index : Option SecondaryIndex)
    (key : String) : Except Fault Stream :=
  match (index.bind fun ix => ix.get? key).bind IndexEntry.catalogOffset with
  | none => scanFor d l catalog Station.catalogLayout key
  | some offset => Stream.keyed d l catalog (.text Station.catalogLayout) offset.toNat 1

/-- The records of a sequence that belong to a key. Strikes have no keys. -/
def keyedStream (d : Disk) (l : Ledger) (sequence key : String) : Access → Except Fault Stream
  | strikes _ => .error (.notFound s!"keyed access to {sequence}")
  | stations data catalog index =>
    if sequence = Station.stationData ∨ sequence = Station.nestedData ∨ sequence = Station.allData then
      stationData d l data index key
    else if sequence = Station.stations then stationLine d l catalog index key
    else .error (.notFound sequence)

end Access

namespace Dataset

/-- Build the tree of a format's draft. -/
def treeOf (l : Ledger) (draft : ScopeDraft) : Except Fault NamespaceTree × Ledger :=
  ((draft.build l.issue.1).1, l.issue.2)

def openStrikes (d : Disk) (l : Ledger) (path : String) : Except Fault (Dataset × Disk × Ledger) :=
  match Resource.openAt d l path with
  | .error e => .error e
  | .ok (r, l) =>
    match treeOf l (Lightning.draft ⟨path, some Format.nldn.id⟩) with
    | (.error e, _) => .error e
    | (.ok tree, l) =>
      .ok ({ path, format := .nldn, tree, access := .strikes r, resources := [r] }, d, l)

def openStations (d : Disk) (l : Ledger) (path : String) (config : IndexConfig) :
    Except Fault (Dataset × Disk × Ledger) :=
  let pair := Station.companions path
  match Resource.openAt d l pair.1 with
  | .error e => .error e
  | .ok (data, l) =>
    match Resource.openAt d l pair.2 with
    | .error e => .error e
    | .ok (catalog, l) =>
      match treeOf l (Station.draft ⟨pair.1, some Format.ghcnm.id⟩) with
      | (.error e, _) => .error e
      | (.ok tree, l) =>
        match SecondaryIndex.obtain d pair.1 [pair.2] config (Station.buildIndex d pair.1 pair.2) with
        | (.error e, _) => .error e
        | (.ok obtained, d) =>
          .ok ({ path := pair.1, format := .ghcnm, tree
                 access := .stations data catalog obtained.index?, resources := [data, catalog] }, d, l)

/-- Open a file in the first format that accepts it. The index may be written. -/
def openAt (d : Disk) (l : Ledger) (path : String) (config : IndexConfig) :
    Except Fault (Dataset × Disk × Ledger) :=
  match Format.detect d path with
  | .error e => .error e
  | .ok .nldn => openStrikes d l path
  | .ok .ghcnm => openStations d l path config

def sequences (s : Dataset) : List String := s.access.sequences

def index? (s : Dataset) : Option SecondaryIndex := s.access.index?

def whenOpen {α : Type} (s : Dataset) (call : Except Fault α) : Except Fault α :=
  if s.closed then .error (.resourceClosed s.path) else call

def stream (s : Dataset) (d : Disk) (l : Ledger) (sequence : String) : Except Fault Stream :=
  s.whenOpen (s.access.stream d l sequence)

def keyedStream (s : Dataset) (d : Disk) (l : Ledger) (sequence key : String) : Except Fault Stream :=
  s.whenOpen (s.access.keyedStream d l sequence key)

/-- Close the dataset and its resources; streams made before fail from then on. -/
def close (s : Dataset) (l : Ledger) : Dataset × Ledger :=
  if s.closed then (s, l) else ({ s with closed := true }, l.closeAll s.resources)

end Dataset
end SciArchive
