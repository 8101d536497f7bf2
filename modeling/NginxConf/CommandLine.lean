import NginxConf.CommandLine.Command
import NginxConf.CommandLine.Directory
import NginxConf.Diagnostic.Snippet
import NginxConf.Format.Size
import NginxConf.Workspace

/-!
# The command line

`run` answers a command: what is written to the two outputs, and the exit code. It is a function of
the arguments and of the files, so nothing here reads or writes anything.

The exit code is 0 when all is well, 1 when a file has errors, is not formatted or cannot be read,
and 2 when the arguments are no command. A file that cannot be read ends the work; what has been
reported before is kept. So does a result that cannot be stored, with the exit code 101.
-/

namespace NginxConf

/-- What a command leaves behind. -/
structure Output where
  code : Nat
  stdout : String := ""
  stderr : String := ""
deriving DecidableEq, Repr

namespace Output

/-- The output of work given up for a reason. -/
def failure (what path reason : String) : Output :=
  ⟨1, "", "Error: failed to " ++ what ++ " `" ++ path ++ "`\n\nCaused by:\n    " ++ reason ++ "\n"⟩

/-- The output of work given up at a result that does not fit. -/
def aborted (o : Overflow) : Output := ⟨101, "", o.message ++ "\n"⟩

/-- The output of one piece of work and then of another; the code is that of the other. -/
def followedBy (a b : Output) : Output := ⟨b.code, a.stdout ++ b.stdout, a.stderr ++ b.stderr⟩

/-- Two pieces of work of which each may fail. -/
def together (a b : Output) : Output := { a.followedBy b with code := max a.code b.code }

end Output

namespace CommandLine

/-- Works on a file if it can be read. -/
def withFile (files : Files) (path : String) (work : File → Output) : Output :=
  match files path with
  | .ok text => work ⟨path, text⟩
  | .error e => .failure "read" path e.message

/-! ## Checking -/

/-- A report on one line, with its place. Lines and columns are counted from one. -/
def shortLine (path : String) (report : Position × Diagnostic) : String :=
  path ++ ":" ++ toString (report.1.line + 1) ++ ":" ++ toString (report.1.column + 1) ++ ": "
    ++ report.2.severity.label ++ ": " ++ report.2.message ++ "\n"

/-- The reports on a file: one line each on the first output, or drawn on the second one. -/
def checkFile (short : Bool) (f : File) : Except Overflow Output := do
  let code := if f.parse.hasErrors then 1 else 0
  if short then return ⟨code, String.join (f.reports.map (shortLine f.path)), ""⟩
  else
    let drawings ← f.parse.diagnostics.mapM fun d => d.snippet f.path f.text
    return ⟨code, "", String.join (drawings.map (· ++ "\n"))⟩

/-- The reports on files, up to the first that cannot be read or reported on. -/
def checkFiles (files : Files) (short : Bool) : List String → Output
  | [] => ⟨0, "", ""⟩
  | path :: more =>
    match files path with
    | .error e => .failure "read" path e.message
    | .ok text =>
      match checkFile short ⟨path, text⟩ with
      | .error o => .aborted o
      | .ok here => here.together (checkFiles files short more)

/-! ## Formatting -/

/-- The formatted file, or whether it is formatted. -/
def formatFile (checkOnly : Bool) (style : Style) (f : File) : Output :=
  match f.parse.formatStored style with
  | .error o => .aborted o
  | .ok (.error e) => .failure "format" f.path e.message
  | .ok (.ok text) =>
    if !checkOnly then ⟨0, String.ofList text, ""⟩
    else if text = f.text then ⟨0, "", ""⟩
    else ⟨1, "", "`" ++ f.path ++ "` is not formatted\n"⟩

/-! ## Commands -/

/-- The name and the version of the program. -/
def versionText : String := "ngx 0.1.0\n"

/-- Answers a command. -/
def execute (files : Files) : Command → Output
  | .check paths short => checkFiles files short paths
  | .format path checkOnly style => withFile files path (formatFile checkOnly style)
  | .tree path => withFile files path fun f => ⟨0, f.parse.dump, ""⟩
  | .help topic => ⟨0, topic.text, ""⟩
  | .version => ⟨0, versionText, ""⟩

/-- Answers arguments. -/
def run (files : Files) (args : List String) : Output :=
  match Command.ofArguments args with
  | .ok command => execute files command
  | .error e => ⟨2, "", "error: " ++ e.message ++ "\n"⟩

end CommandLine

end NginxConf
