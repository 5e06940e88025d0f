import SciArchive.Namespace.Build
import SciArchive.Stream.Basic

/-! Files of lightning strikes: blocks with a header of 84 bytes that begins with `NLDN` and holds the
count at byte 8, and strike records of 28 bytes. -/
namespace SciArchive.Lightning

/-- The letters `NLDN`. -/
def mark : List UInt8 := [0x4E, 0x4C, 0x44, 0x4E]

def framing : BlockLayout := ⟨84, 8, some mark⟩

def sequence : String := "record"

def strikes : RecordLayout :=
  { order := .big, recordSize := 28
    fields :=
      [{ name := "tsec", dataType := .int, offset := 0 },
       { name := "nsec", dataType := .int, offset := 4 },
       { name := "lat", dataType := .int, offset := 8 },
       { name := "lon", dataType := .int, offset := 12 },
       { name := "sgnl", dataType := .short, offset := 18 },
       { name := "mult", dataType := .byte, offset := 22 },
       { name := "fill", dataType := .byte, offset := 23 },
       { name := "majorAxis", dataType := .byte, offset := 24 },
       { name := "eccent", dataType := .byte, offset := 25 },
       { name := "ellipseAngle", dataType := .byte, offset := 26 },
       { name := "chisqr", dataType := .byte, offset := 27 }] }

theorem make_strikes : RecordLayout.make .big strikes.fields (some 28) = .ok strikes := by rfl

theorem check_framing : framing.check = .ok () := by rfl

/-- A member described by its long name and its units, if it has any. -/
def member (name : String) (type : DataType) (longName units : String) : VariableDraft :=
  let v := (VariableDraft.new name type).withAttribute "long_name" (.text longName)
  if units = "" then v else v.withAttribute "units" (.text units)

/-- A scale of one part in `n`, as a single word. -/
def scale (n : Nat) : Value := .float (UInt32.ofNat (FloatFormat.single.ofRatio false 1 n))

def draft (context : DatasetContext) : ScopeDraft :=
  { ScopeDraft.root with
    context := some context
    attributes := (AttributeSet.named "").addAll
      [⟨"title", .text "NLDN Lightning Data"⟩, ⟨"Conventions", .text "NLDN-CDM"⟩,
       ⟨"CF:featureType", .text "point"⟩]
    vars :=
      [{ VariableDraft.sequence sequence with
         members :=
          [(member "tsec" .int "time of stroke" "seconds since 1970-01-01 00:00:00").withAxis .time,
           member "nsec" .int "nanoseconds since tsec" "1.0e-9 s",
           ((member "lat" .int "latitude" "degrees_north").withAttribute "scale_factor"
             (scale 1000)).withAxis .lat,
           ((member "lon" .int "longitude" "degrees_east").withAttribute "scale_factor"
             (scale 1000)).withAxis .lon,
           (member "sgnl" .short "signal strength/polarity [150 NLDN measures ~= 30 kAmps]"
             "").withAttribute "scale_factor" (scale 10),
           member "mult" .byte "multiplicity [#strokes per flash]" "",
           .new "fill" .byte,
           member "majorAxis" .byte "error ellipse semi-major axis" "",
           member "eccent" .byte "error ellipse eccentricity" "",
           member "ellipseAngle" .byte "error ellipse axis angle of orientation" "degrees",
           member "chisqr" .byte "chi-squared" ""] }] }

/-- The file begins with the mark. -/
def accepts (d : Disk) (path : String) : Bool :=
  match d.bytes? path with
  | none => false
  | some bytes => mark.isPrefixOf bytes

end SciArchive.Lightning
