import NginxConf.CommandLine

/-!
# The program

Reads the files that a command asks for, lets `CommandLine.run` answer, and writes the answer.
-/

open NginxConf

/-- The text of a file, or why it cannot be read. -/
def readText (path : String) : IO (Except ReadError Text) := do
  try
    return .ok (← IO.FS.readFile path).toList
  catch
    | .noFileOrDirectory _ _ _ => return .error .notFound
    | e => return .error (.other (toString e))

def main (args : List String) : IO UInt32 := do
  let paths :=
    match Command.ofArguments args with
    | .ok command => command.paths
    | .error _ => []
  let texts ← paths.mapM fun path => return (path, ← readText path)
  let output := CommandLine.run (fun path => (texts.lookup path).getD (.error .notFound)) args
  IO.print output.stdout
  IO.eprint output.stderr
  return output.code.toUInt32
