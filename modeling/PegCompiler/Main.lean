import PegCompiler.Command

/-! The program: reads the files that the command line names, and shows the outcome. -/

namespace PegCompiler.Command

def reasonOf : IO.Error → String
  | .noFileOrDirectory .. => "No such file or directory (os error 2)"
  | .permissionDenied .. => "Permission denied (os error 13)"
  | error => toString error

def fetch (path : String) : IO (String × Except String String) := do
  try
    return (path,.ok (← IO.FS.readFile path))
  catch error =>
    return (path,.error (reasonOf error))

def inputPaths (words : List String) : List String :=
  match Request.ofWords words with
  | .run i => i.input :: i.values .config ++ i.values .source
  | _ => []

def present (outcome : Outcome) : IO UInt32 := do
  IO.print outcome.stdout
  IO.eprint outcome.stderr
  return outcome.exitCode.toUInt32

end PegCompiler.Command

open PegCompiler.Command in
def main (words : List String) : IO UInt32 := do
  let fetched ← (inputPaths words).mapM fetch
  let outcome := run (fun path => (fetched.lookup path).getD (.error "")) words
  match outcome.output with
  | none => present outcome
  | some output =>
    try
      IO.FS.writeFile output.path output.content
      present outcome
    catch error =>
      present (runUnwritten words output.path (reasonOf error))
