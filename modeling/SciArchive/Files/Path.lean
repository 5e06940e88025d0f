/-! Names in paths: the parts between slashes, the last name, its stem and its extension. -/
namespace SciArchive.Path

/-- The parts between slashes, empty ones included. -/
def parts (path : String) : List (List Char) := path.toList.splitOn '/'

/-- Empty parts and single dots lead nowhere. -/
def isIdle (part : List Char) : Bool := part.isEmpty || part == ['.']

def isAbsolute (path : String) : Bool := path.toList.head? == some '/'

def endsInSlash (path : String) : Bool := path.toList.getLast? == some '/'

/-- The names to follow. -/
def steps (path : String) : List String :=
  ((parts path).filter fun p => !isIdle p).map String.ofList

/-- Where the following of names begins: the folder at hand, or the topmost one. -/
def start (path : String) : List String := if isAbsolute path then ["/"] else []

/-- The folder at hand, or one that it lies in. -/
def isOutward (place : List String) : Bool := place.all (· == "..")

/-- The folder that holds a place. The topmost one holds itself. -/
def above (place : List String) : List String :=
  if place = ["/"] then place else if isOutward place then place ++ [".."] else place.dropLast

/-- Where a name leads from a folder. -/
def follow (place : List String) (name : String) : List String :=
  if name = ".." then above place else place ++ [name]

/-- Whether a place lies in the folder at hand. -/
def isInside (place : List String) : Bool := place.head? != some ".." && place.head? != some "/"

/-- How many bytes a name, and a whole path, may have. -/
def nameLimit : Nat := 255
def limit : Nat := 4095

/-- The parts up to the last that leads somewhere. -/
def active (path : String) : List (List Char) := ((parts path).reverse.dropWhile isIdle).reverse

/-- The last name, unless the path ends in the folder above. -/
def fileName? (path : String) : Option (List Char) :=
  match (active path).getLast? with
  | some name => if name = ['.', '.'] then none else some name
  | none => none

/-- A name cut at its last dot: the stem, and the extension behind it. A dot in front begins no
extension. -/
def cut (name : List Char) : List Char × Option (List Char) :=
  let back := name.reverse
  let extension := back.takeWhile (· != '.')
  match back.dropWhile (· != '.') with
  | [] => (name, none)
  | [_] => (name, none)
  | _ :: stem => (stem.reverse, some extension.reverse)

def extension? (path : String) : Option String :=
  ((fileName? path).bind fun name => (cut name).2).map String.ofList

/-- The path without its last characters, as many as the extension has; its dot stays. -/
def withoutExtension (path : String) : String :=
  match extension? path with
  | none => path
  | some e => String.ofList (path.toList.take (path.length - e.length))

/-- The path with another extension of its last name. A path that has no last name, once the old
extension is gone, takes none. -/
def withExtension (path extension : String) : String :=
  let bare := withoutExtension path
  match fileName? bare with
  | none => bare
  | some name =>
    let named := (cut name).1 ++ '.' :: extension.toList
    String.ofList (['/'].intercalate ((active bare).dropLast ++ [named]))

end SciArchive.Path
