/-
  The program: reads the files that its arguments name, runs the command and writes what it says.
-/
import LiveLisp.CommandLine

open LiveLisp

/-- Why the system could not read a file. -/
def problemOf : IO.Error → ReadProblem
  | .inappropriateType _ code _ => if code == 21 then .isDirectory else .notDirectory
  | .invalidArgument .. => .nameTooLong
  | .permissionDenied .. => .denied
  | .userError _ => .notText
  | _ => .missing

def readPath (path : String) : IO (String × Except ReadProblem String) := do
  try
    let content ← IO.FS.readFile path
    return (path, .ok content)
  catch e =>
    return (path, .error (problemOf e))

def main (args : List String) : IO UInt32 := do
  let paths := ((CommandLine.parse? args).map (·.paths)).getD []
  let contents ← paths.mapM readPath
  let files : CommandLine.Files := fun path =>
    match contents.find? (·.1 == path) with
    | some (_, content) => content
    | none => .error .missing
  let outcome := CommandLine.run args files
  IO.print outcome.stdout
  IO.eprint outcome.stderr
  return outcome.code.toUInt32
