import SciArchive.Files.Resource
import SciArchive.Index.Builder
import SciArchive.Record.Source

/-! Building an index from the records of a file. -/
namespace SciArchive.IndexBuilder

/-- Meet every record that the source still gives. The number of records met, or the first failure;
what was met before it stays met. -/
def scanFrom (key : Record → Except Fault String) (b : IndexBuilder) (met : Nat) (s : Source) :
    Except Fault Nat × IndexBuilder :=
  match _h : s.read.1 with
  | .error e => (.error e, b)
  | .ok none => (.ok met, b)
  | .ok (some (offset, r)) =>
    match key r with
    | .error e => (.error e, b)
    | .ok k => scanFrom key (b.observe k (UInt64.ofNat offset)) (met + 1) s.read.2
termination_by s.left
decreasing_by exact Source.read_left _h

/-- Meet the records of a source from its start. -/
def scan (key : Record → Except Fault String) (b : IndexBuilder) (s : Source) :
    Except Fault Nat × IndexBuilder :=
  b.scanFrom key 0 (s.seek 0)

/-- What the lines of a file tell about the keys in the field `field`. -/
def ofFile (d : Disk) (path : String) (layout : TextLayout) (field : String) :
    Except Fault IndexBuilder :=
  match Resource.read d path with
  | .error e => .error e
  | .ok content =>
    match scan (Record.key field) {} (.lines (.new content layout)) with
    | (.error e, _) => .error e
    | (.ok _, b) => .ok b

/-- Note every line that `s` still gives, under the key in its column `field`. -/
def annotateFrom (field : String) (b : IndexBuilder) (s : LineSource) : Except Fault IndexBuilder :=
  match _h : s.readLine.1 with
  | .error e => .error e
  | .ok none => .ok b
  | .ok (some (offset, line)) =>
    match s.layout.readField line field with
    | .error e => .error e
    | .ok v => annotateFrom field (b.annotate v.render (UInt64.ofNat offset)).2 s.readLine.2
termination_by s.cursor.rest.length
decreasing_by exact LineSource.nextLine_length s.position s.cursor _h

end SciArchive.IndexBuilder
