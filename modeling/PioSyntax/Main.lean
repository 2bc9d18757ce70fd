import PioSyntax.CommandLine.Run

namespace PioSyntax

def problemOf : IO.Error → FileProblem
  | .permissionDenied .. => .denied
  | .inappropriateType _ code _ => if code = 21 then .isDirectory else .notDirectory
  | .invalidArgument _ code _ => if code = 22 then .nullByte else .nameTooLong
  | _ => .notFound

def readPath (p : Path) : IO (Except FileError Bytes) := do
  try
    return .ok (← IO.FS.readBinFile (String.ofList p.toText)).toList
  catch e => return .error ⟨problemOf e, p⟩

def lookUp (known : List (Path × Except FileError Bytes)) : Files :=
  fun p => (known.lookup p).getD (.error ⟨.notFound, p⟩)

end PioSyntax

open PioSyntax

def main (words : List String) : IO UInt32 := do
  let words := words.map String.toList
  let known ← (CommandLine.readPaths words).mapM fun p => return (p, ← readPath p)
  let report := CommandLine.run (lookUp known) words
  (← IO.getStderr).putStr (String.ofList report.stderr)
  (← IO.getStdout).putStr (String.ofList report.stdout)
  if let some (path, text) := report.output then
    IO.FS.writeFile (String.ofList path.toText) (String.ofList text)
  match report.ending with
  | .exit code | .refused code => return code.toUInt32
  | .fault f =>
    (← IO.getStderr).putStrLn (String.ofList f.message)
    return 1
