import SciArchive.Command.Run

/-! The program. The files of a run are read before it, and those that it changed are written after it.
File times are not looked at: all files are of one age, and an index file that is there is fresh. -/
namespace SciArchive

/-- Add a file as it is, or a folder without what it holds, if either can be read. The code 21 tells that a
path leads to a folder. -/
def loadFile (d : Disk) (path : String) : IO Disk := do
  try
    let bytes ← IO.FS.readBinFile path
    return d.lay path bytes.toList (.tick 0)
  catch
    | .inappropriateType _ 21 _ => return d.layFolder path
    | _ => return d

/-- Make sure of a file, where that is possible. -/
def beginFile (path : String) : IO Unit := do
  try IO.FS.withFile path .append fun _ => pure ()
  catch _ => return ()

/-- Write a file that a run changed; that it cannot be written does no harm. -/
def saveFile (before after : Disk) (path : String) : IO Unit := do
  match after.bytes? path with
  | none => return ()
  | some bytes =>
    if before.bytes? path = some bytes then return ()
    try IO.FS.writeBinFile path ⟨bytes.toArray⟩
    catch _ => return ()

def runProgram (args : List String) : IO UInt32 := do
  let paths ← match Command.Invocation.ofArguments args with
    | .error _ => pure []
    | .ok i => do
      i.log.toList.forM beginFile
      pure i.paths
  let before ← paths.foldlM loadFile {}
  let r := Command.run before args
  paths.forM (saveFile before r.disk)
  (← IO.getStdout).putStr r.output
  (← IO.getStderr).putStr r.diagnosis
  return UInt32.ofNat r.code

end SciArchive

def main (args : List String) : IO UInt32 := SciArchive.runProgram args
