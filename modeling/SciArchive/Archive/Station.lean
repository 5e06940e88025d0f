import SciArchive.Index.Cache
import SciArchive.Index.Scan
import SciArchive.Namespace.Build
import SciArchive.Stream.Basic

/-! Archives of monthly station data: a data file with a line for each station and year, and a catalog
with a line for each station, told apart by their extensions. -/
namespace SciArchive.Station

def dataExtension : String := "dat"
def catalogExtension : String := "inv"

/-- The names of the sequences: every data line, every station, the data of one station. -/
def allData : String := "all_data"
def stations : String := "station"
def stationData : String := "stn_data"
def nestedData : String := "station/stn_data"

def keyField : String := "stnid"

def missing : Int32 := -9999

/-! ### Lines -/

/-- The beginning of a year. -/
def yearStart (year : Value) : Except Fault Value :=
  match year.toInteger? with
  | some y => .ok (.text (toString y ++ "-01-01T00:00:00Z"))
  | none => .error (.unreadable "time" year.render)

/-- Digits 4 to 8 of a station id are the international number when the rest behind them is zero. -/
def internationalId (id : Value) : Except Fault Value :=
  match id.toInteger? with
  | some n =>
    .ok (.int (if n.tmod 1000 = 0 then Int32.ofInt ((n.tdiv 1000).tmod 100000) else missing))
  | none => .error (.unreadable "wmoId" id.render)

/-- Twelve months, eight characters each. -/
def monthly (name : String) (kind : ColumnKind) (start stop : Nat) : Column :=
  ⟨name, kind, start, stop, some (12, 8)⟩

def dataLayout : TextLayout :=
  { columns :=
      [⟨"stnid", .long, 0, 11, none⟩, ⟨"year", .int, 11, 15, none⟩, ⟨"element", .text, 15, 19, none⟩,
       monthly "value" .int 19 24, monthly "dm" .char 24 25, monthly "qc" .char 25 26,
       monthly "ds" .char 26 27]
    derived := [⟨"time", 1, yearStart⟩] }

def catalogLayout : TextLayout :=
  { columns :=
      [⟨"stnid", .long, 0, 11, none⟩, ⟨"lat", .double, 11, 20, none⟩, ⟨"lon", .double, 20, 30, none⟩,
       ⟨"elevation", .double, 30, 37, none⟩, ⟨"name", .text, 37, 68, none⟩,
       ⟨"grelev", .int, 68, 73, none⟩, ⟨"popClass", .char, 73, 74, none⟩,
       ⟨"popSize", .int, 74, 79, none⟩, ⟨"topoType", .text, 79, 81, none⟩,
       ⟨"vegType", .text, 81, 83, none⟩, ⟨"ocean", .text, 83, 85, none⟩,
       ⟨"oceanDist", .int, 85, 87, none⟩, ⟨"airportId", .char, 87, 88, none⟩,
       ⟨"townDist", .int, 88, 90, none⟩, ⟨"gridVegType", .text, 90, 106, none⟩,
       ⟨"popClassFromLights", .char, 106, 107, none⟩]
    derived := [⟨"wmoId", 0, internationalId⟩] }

/-! ### Tree -/

def member (name : String) (type : DataType) (longName : String) : VariableDraft :=
  (VariableDraft.new name type).withAttribute "long_name" (.text longName)

def withUnits (v : VariableDraft) (units : String) : VariableDraft :=
  v.withAttribute "units" (.text units)

def perMonth (v : VariableDraft) : VariableDraft := v.withShape [.shared "month"]

/-- What each data line tells besides its station. -/
def monthlyMembers : List VariableDraft :=
  [withUnits (member "year" .int "year of the station record") "years since 0000-01-01T00:00",
   ((withUnits (perMonth (member "value" .int "monthly mean temperature")) "Celsius").withAttribute
     "scale_factor" (.float (UInt32.ofNat (FloatFormat.single.ofRatio false 1 100)))).withAttribute
     "missing_value" (.int missing),
   perMonth (member "dm" .char "data management flag"),
   perMonth (member "qc" .char "quality control flag"),
   perMonth (member "ds" .char "data source flag"),
   ((member "time" .string "starting time of the record").withAxis .time).withAttribute
     "missing_value" (.text "missing")]

/-- A member whose unknown value is minus nine. -/
def sparse (name longName units : String) : VariableDraft :=
  (withUnits (member name .int longName) units).withAttribute "missing_value" (.int (-9))

def stationMembers : List VariableDraft :=
  [member "stnid" .long "station id",
   (withUnits (member "lat" .double "latitude") "degrees_north").withAxis .lat,
   (withUnits (member "lon" .double "longitude") "degrees_east").withAxis .lon,
   (withUnits (member "elevation" .double "elevation") "m").withAxis .height,
   member "name" .string "station name",
   withUnits (member "grelev" .int "elevation from gridded terrain data") "m",
   member "popClass" .char "population class",
   sparse "popSize" "population of the nearby town" "thousands of persons",
   member "topoType" .string "surrounding topography",
   member "vegType" .string "surrounding vegetation",
   member "ocean" .string "station is near lake or ocean",
   sparse "oceanDist" "distance to nearest ocean/lake" "km",
   member "airportId" .char "airport station indicator",
   sparse "townDist" "distance from airport to town center" "km",
   member "gridVegType" .string "vegetation at nearest grid point",
   member "popClassFromLights" .char "population class from night lights",
   (member "wmoId" .int "WMO station id").withAttribute "missing_value" (.int missing),
   { VariableDraft.sequence stationData with members := monthlyMembers }]

def draft (context : DatasetContext) : ScopeDraft :=
  { ScopeDraft.root with
    context := some context
    dimensions := [.ofName "month" 12]
    attributes := (AttributeSet.named "").addAll
      [⟨"title", .text "Version 3 of the GHCN-Monthly dataset of land surface mean temperatures"⟩,
       ⟨"Conventions", .text "CDM"⟩, ⟨"CF:featureType", .text "timeSeries"⟩]
    vars :=
      [{ VariableDraft.sequence allData with
         members := member "stnid" .long "station id" :: monthlyMembers },
       { VariableDraft.sequence stations with members := stationMembers }] }

/-! ### Files -/

/-- The data file and the catalog of an archive, from the path of either. -/
def companions (path : String) : String × String :=
  (Path.withExtension path dataExtension, Path.withExtension path catalogExtension)

/-- Index the data lines by station, and note where the catalog lists each station last. -/
def buildIndex (d : Disk) (dataPath catalogPath : String) : Except Fault SecondaryIndex :=
  match IndexBuilder.ofFile d dataPath dataLayout keyField with
  | .error e => .error e
  | .ok b =>
    match Resource.read d catalogPath with
    | .error e => .error e
    | .ok catalog =>
      (b.annotateFrom keyField (.new catalog catalogLayout)).map IndexBuilder.finish

/-- A line without its line feed and one carriage return before it. -/
def chomp (line : List Char) : List Char :=
  match line.reverse with
  | '\n' :: '\r' :: rest => rest.reverse
  | '\n' :: rest => rest.reverse
  | _ => line

/-- The first line of data, if every line up to it is text. -/
def firstDataLine? (bytes : List UInt8) : Option (List Char) :=
  match bytes with
  | [] => none
  | b :: bs =>
    let line := LineSource.firstLine (b :: bs)
    match Utf8.decode? line with
    | none => none
    | some cs =>
      if LineSource.isSkipped (chomp cs) then firstDataLine? ((b :: bs).drop line.length)
      else some (chomp cs)
termination_by bytes.length
decreasing_by
  have := LineSource.firstLine_length_pos b bs
  simp only [List.length_drop, List.length_cons] at *
  omega

/-- At least nineteen bytes, and a station id and a year in digits. -/
def looksLikeData (line : List Char) : Bool :=
  decide (19 ≤ (Utf8.encode line).length) && (line.take 15).all Char.isDigit

/-- The path has the extension of either file, the catalog is there, and the data file begins with a
line of data. -/
def accepts (d : Disk) (path : String) : Bool :=
  let extension := Path.extension? path
  let pair := companions path
  (extension == some dataExtension || extension == some catalogExtension) && d.has pair.2
    && match d.bytes? pair.1 with
      | none => false
      | some bytes => (firstDataLine? bytes).any looksLikeData

end SciArchive.Station
