import SciArchive.Archive.Dataset
import SciArchive.Command.Arguments
import SciArchive.Namespace.Outline

/-! What each task prints, and how a run ends. -/
namespace SciArchive.Command

/-- What ended a task early: what was tried, and the causes, outermost first. -/
structure Failure where
  summary : String
  causes : List String := []
  deriving DecidableEq, Repr

namespace Failure

def ofFault (e : Fault) : Failure := ⟨e.message, e.causes⟩

def during (summary : String) (e : Fault) : Failure := ⟨summary, e.message :: e.causes⟩

/-- Lines behind the first begin with `lead`. -/
def hang (lead text : String) : String :=
  String.ofList (text.toList.flatMap fun c => if c = '\n' then '\n' :: lead.toList else [c])

/-- The number of a cause, flush right in five columns. -/
def numeral (n : Nat) : String :=
  String.ofList (List.replicate (5 - (toString n).length) ' ') ++ toString n

/-- A cause alone has no number. -/
def causeLines : List String → List String
  | [cause] => ["    " ++ hang "    " cause]
  | causes => causes.zipIdx.map fun c => numeral c.2 ++ ": " ++ hang "       " c.1

def lines (f : Failure) : List String :=
  let below := if f.causes.isEmpty then [] else "" :: "Caused by:" :: causeLines f.causes
  ("Error: " ++ f.summary) :: below

def render (f : Failure) : String := String.intercalate "\n" f.lines ++ "\n"

end Failure

/-- What a task printed, and what ended it early, if anything did. -/
structure Report where
  output : String := ""
  failure : Option Failure := none
  deriving DecidableEq, Repr

namespace Report

def printed (output : String) : Report := { output }

def failed (f : Failure) : Report := { failure := some f }

def ofLines (lines : List String) : Report := .printed (String.join (lines.map (· ++ "\n")))

/-- One variable, or the whole tree and the sequences. -/
def ofTree (s : Dataset) (file : String) : Option String → Report
  | some path =>
    match s.tree.variableAt? path with
    | some v => .printed v.describe
    | none => .failed ⟨s!"No variable {path} in {file}", []⟩
  | none =>
    let title := (Path.fileName? file).map String.ofList
    let sequences := String.intercalate ", " s.sequences
    .printed (s.tree.render title ++ if sequences = "" then "" else s!"\nSequences: {sequences}\n")

/-- A record a line, up to a failure. -/
def ofRecords (l : Ledger) (limit : Option Nat) (s : Stream) : Report :=
  let r := s.readUpTo l limit
  { ofLines (r.1.map Record.render) with failure := r.2.map Failure.ofFault }

def entryLine (e : IndexEntry) : String :=
  let layout := if e.contiguous then "" else " (scattered)"
  s!"  {e.key} @{e.offset.toNat} x{e.count.toNat}{layout}"

def ofIndex (s : Dataset) (config : IndexConfig) : Report :=
  match s.index? with
  | none => .failed ⟨s!"{s.format.id} format does not use a secondary index", []⟩
  | some ix =>
    .ofLines
      (s!"Index: {config.indexPath s.path}" :: s!"Keys: {ix.entries.length}"
        :: s!"Ordering violations: {ix.violations.toNat}" :: ix.entries.map entryLine)

/-- A format in eight columns or more, and what it is. -/
def formatLine (f : Format) : String :=
  let gap := List.replicate (8 - f.id.length) ' '
  f.id ++ String.ofList gap ++ " " ++ f.description

def ofFormats : Report := .ofLines (Format.all.map formatLine)

end Report

/-- Open the file of a task and go on with it. -/
def withDataset (d : Disk) (file : String) (config : IndexConfig)
    (report : Dataset → Disk → Ledger → Report) : Report × Disk :=
  match Dataset.openAt d {} file config with
  | .error e => (.failed (.during s!"Failed to open {file}" e), d)
  | .ok (s, d, l) => (report s d l, d)

def runTask (d : Disk) (useIndex : Bool) : Task → Report × Disk
  | .tree file path => withDataset d file (config .auto) fun s _ _ => .ofTree s file path
  | .records file sequence key limit =>
    withDataset d file (config .auto) fun s d l =>
      let stream := match key with
        | none => s.stream d l sequence
        | some key => s.keyedStream d l sequence key
      match stream with
      | .error e => .failed (.during s!"Cannot read {sequence} from {file}" e)
      | .ok stream => .ofRecords l limit stream
  | .index file rebuild =>
    if useIndex then
      let config := config (if rebuild then .rebuild else .auto)
      withDataset d file config fun s _ _ => .ofIndex s config
    else (.failed ⟨"--no-index cannot be combined with the index command", []⟩, d)
  | .formats => (.ofFormats, d)
where
  config (policy : IndexPolicy) : IndexConfig :=
    { policy := if useIndex then policy else .disabled }

/-- How a run ends: its exit code, what it printed on either channel, and the files it leaves. -/
structure Outcome where
  code : Nat
  output : String
  diagnosis : String
  disk : Disk
  deriving Repr

def Outcome.ofReport (r : Report) (d : Disk) : Outcome :=
  match r.failure with
  | none => ⟨0, r.output, "", d⟩
  | some f => ⟨1, r.output, f.render, d⟩

def usage : String :=
  String.join
    ["Usage: sciarchive [--log FILE] [--no-index] COMMAND\n\n",
     "  tree FILE [--variable PATH]                     outline of a file, or one variable\n",
     "  records FILE SEQUENCE [--key KEY] [--limit N]   records of a sequence\n",
     "  index FILE [--rebuild]                          summary of the index of a file\n",
     "  formats                                         the known formats\n"]

/-- The log of a run is begun before its task. -/
def startLog (d : Disk) : Option String → Except Failure Disk
  | none => .ok d
  | some path =>
    (d.write path (Utf8.ofString "started\n")).mapError fun cause =>
      ⟨s!"Failed to open log file {path}", [cause.message]⟩

def Invocation.run (d : Disk) (i : Invocation) : Outcome :=
  match startLog d i.log with
  | .error f => .ofReport (.failed f) d
  | .ok d => let r := runTask d i.useIndex i.task; .ofReport r.1 r.2

/-- Run a command line. -/
def run (d : Disk) (args : List String) : Outcome :=
  match Invocation.ofArguments args with
  | .error .help => ⟨0, usage, "", d⟩
  | .error .misuse => ⟨2, "", usage, d⟩
  | .ok i => i.run d

/-- Files that a run may read or write. -/
def Invocation.paths (i : Invocation) : List String :=
  let files := match i.task.file? with
    | none => []
    | some file =>
      let pair := Station.companions file
      [file, pair.1, pair.2, IndexConfig.indexPath {} pair.1]
  files ++ i.log.toList

end SciArchive.Command
