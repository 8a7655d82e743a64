import TileSelect.CommandLine.Run

/-! # The program

Reads the files that the command line names, runs it and prints. -/
namespace TileSelect

/-- The bytes of a file on disk, or why it cannot be read.  A file of the wrong type is a directory if it was
opened, and otherwise there is a file where the path needs a directory. -/
def readDisk (path : String) : IO (Except AccessError (List UInt8)) := do
  try
    let bytes ← IO.FS.readBinFile path
    return .ok bytes.toList
  catch
    | .noFileOrDirectory .. => return .error .missing
    | .inappropriateType none .. => return .error .directory
    | .inappropriateType (some _) .. => return .error .notDirectory
    | _ => return .error .missing

end TileSelect

/-- Runs the command line and prints what it gives. -/
def main (words : List String) : IO UInt32 := do
  let paths := TileSelect.CommandLine.paths words
  let contents ← paths.mapM TileSelect.readDisk
  let files : TileSelect.FileAccess := fun path =>
    ((paths.zip contents).lookup path).getD (.error .missing)
  match TileSelect.CommandLine.run files words with
  | .ok outcome =>
    IO.print outcome.output
    return UInt32.ofNat outcome.exitCode
  | .error fault =>
    IO.eprintln (fault.message?.getD "index out of range")
    return 2
