import SciArchive.Text.Numeral

/-! Command lines: options and words are read in order, and name a task. -/
namespace SciArchive.Command

/-- Why no task is run: help is asked for, or the line does not make sense. -/
inductive Refusal where
  | help | misuse
  deriving DecidableEq, Repr

/-- What a command takes: options without a value, options with a value that passes a test, and words
that pass the tests of their places. -/
structure Grammar where
  flags : List String := []
  valued : List (String × (String → Bool)) := []
  words : List (String → Bool) := []

/-- What was read. No option is given twice. -/
structure Reading where
  flags : List String := []
  values : List (String × String) := []
  words : List String := []
  deriving DecidableEq, Repr

namespace Reading

def value? (r : Reading) (name : String) : Option String := r.values.lookup name

def addFlag (r : Reading) (name : String) : Except Refusal Reading :=
  if name ∈ r.flags then .error .misuse else .ok { r with flags := name :: r.flags }

def addValue (r : Reading) (name : String) (test : String → Bool) (value : String) :
    Except Refusal Reading :=
  if (r.value? name).isSome ∨ !test value then .error .misuse
  else .ok { r with values := (name, value) :: r.values }

def addWord (g : Grammar) (r : Reading) (word : String) : Except Refusal Reading :=
  match g.words[r.words.length]? with
  | none => .error .misuse
  | some test => if test word then .ok { r with words := r.words ++ [word] } else .error .misuse

end Reading

/-- One argument by its hyphens: an option may have a value joined to it by an equals sign, and two
hyphens alone end the options. -/
inductive Argument where
  | word (text : String)
  | option (name : String) (joined : Option String)
  | help | separator | unknown
  deriving DecidableEq, Repr

def Argument.ofText (text : String) : Argument :=
  match text.toList with
  | ['-'] => word text
  | ['-', '-'] => separator
  | '-' :: '-' :: rest =>
    let name := rest.takeWhile (· != '=')
    let joined := (rest.dropWhile (· != '=')).tail?
    if rest = "help".toList then help else option (String.ofList name) (joined.map String.ofList)
  | '-' :: 'h' :: _ => help
  | '-' :: _ => unknown
  | _ => word text

/-- Read options and words up to the first word that has no place. Behind the separator there are only
words. `pending` is an option that waits for its value, with the test. -/
def Grammar.read (g : Grammar) (r : Reading) :
    (pending : Option (String × (String → Bool))) → List String →
      Except Refusal (Reading × List String)
  | none, [] => .ok (r, [])
  | some _, [] => .error .misuse
  | pending, arg :: rest =>
    match pending, Argument.ofText arg with
    | some (name, test), .word value => (r.addValue name test value).bind fun r => g.read r none rest
    | some _, _ => .error .misuse
    | none, .word text =>
      if r.words.length < g.words.length then (r.addWord g text).bind fun r => g.read r none rest
      else .ok (r, arg :: rest)
    | none, .separator => (rest.foldlM (Reading.addWord g) r).map fun r => (r, [])
    | none, .option name joined =>
      if name ∈ g.flags then
        if joined.isSome then .error .misuse else (r.addFlag name).bind fun r => g.read r none rest
      else
        match g.valued.lookup name, joined with
        | some test, some value => (r.addValue name test value).bind fun r => g.read r none rest
        | some test, none => g.read r (some (name, test)) rest
        | none, _ => .error .misuse
    | none, .help => .error .help
    | none, .unknown => .error .misuse

/-! ### Tasks -/

inductive Task where
  | tree (file : String) (path : Option String)
  | records (file sequence : String) (key : Option String) (limit : Option Nat)
  | index (file : String) (rebuild : Bool)
  | formats
  deriving DecidableEq, Repr

structure Invocation where
  log : Option String
  useIndex : Bool
  task : Task
  deriving DecidableEq, Repr

def isPath (text : String) : Bool := !text.isEmpty

def isText (_ : String) : Bool := true

def isCount (text : String) : Bool := (Text.natural? text.toList).isSome

/-- Options that stand before or behind the name of a command. -/
def common : Grammar := { flags := ["no-index"], valued := [("log", isPath)] }

def commands : List (String × Grammar) :=
  [("tree", { valued := [("variable", isText)], words := [isPath] }),
   ("records", { valued := [("key", isText), ("limit", isCount)], words := [isPath, isText] }),
   ("index", { flags := ["rebuild"], words := [isPath] }),
   ("formats", {})]

def Grammar.withCommon (g : Grammar) : Grammar :=
  { g with flags := common.flags ++ g.flags, valued := common.valued ++ g.valued }

def task? (command : String) (r : Reading) : Option Task :=
  match command, r.words with
  | "tree", [file] => some (.tree file (r.value? "variable"))
  | "records", [file, sequence] =>
    some (.records file sequence (r.value? "key")
      ((r.value? "limit").bind fun text => Text.natural? text.toList))
  | "index", [file] => some (.index file (decide ("rebuild" ∈ r.flags)))
  | "formats", [] => some .formats
  | _, _ => none

/-- Help may be asked for one command. -/
def helpOn : List String → Refusal
  | [] => .help
  | [command] => if command = "help" ∨ (commands.lookup command).isSome then .help else .misuse
  | _ => .misuse

/-- Options behind the command go before those in front of it. -/
def Invocation.ofReadings (outer inner : Reading) (task : Task) : Invocation :=
  { log := (inner.value? "log").or (outer.value? "log")
    useIndex := decide ("no-index" ∉ outer.flags ++ inner.flags)
    task }

def Invocation.ofArguments (args : List String) : Except Refusal Invocation :=
  match common.read {} none args with
  | .error e => .error e
  | .ok (_, []) => .error .misuse
  | .ok (outer, command :: rest) =>
    if command = "help" then .error (helpOn rest)
    else
      match commands.lookup command with
      | none => .error .misuse
      | some g =>
        match g.withCommon.read {} none rest with
        | .error e => .error e
        | .ok (_, _ :: _) => .error .misuse
        | .ok (inner, []) =>
          match task? command inner with
          | none => .error .misuse
          | some task => .ok (.ofReadings outer inner task)

/-- The file that a task is about. -/
def Task.file? : Task → Option String
  | tree file _ | records file _ _ _ | index file _ => some file
  | formats => none

end SciArchive.Command
