import NginxConf.CommandLine.Help
import NginxConf.Format.Style

/-!
# Commands

What a user asks for on the command line: to check files, to format one, to show the tree of one.

Arguments are read from left to right. An argument with two hyphens in front is an option, with its
value behind a `=` or in the next argument; `--` alone makes all arguments after it paths; a single
hyphen alone is a path. The first fault ends the reading, and so does a request for help, whatever
follows it.

## Termination

Every step takes at least one argument.
-/

namespace NginxConf

/-- What is asked for. -/
inductive Command
  /-- To report what is wrong with files, in full or on one line each. -/
  | check (paths : List String) (short : Bool)
  /-- To print a formatted file, or only to say whether it is formatted. -/
  | format (path : String) (checkOnly : Bool) (style : Style)
  | tree (path : String)
  | help (topic : HelpTopic)
  | version
deriving DecidableEq, Repr

/-- Why arguments are no command. -/
inductive UsageError
  | noCommand
  | unknownCommand (name : String)
  | unexpected (argument : String)
  | repeated (option : String)
  | needsValue (option : String)
  | takesNoValue (option : String)
  | notANumber (option value : String)
  | noPath
deriving DecidableEq, Repr

namespace UsageError

/-- What a fault says to the user. -/
def message : UsageError → String
  | noCommand => "a command is needed"
  | unknownCommand name => "there is no command `" ++ name ++ "`"
  | unexpected argument => "unexpected argument `" ++ argument ++ "`"
  | repeated option => "`--" ++ option ++ "` is given more than once"
  | needsValue option => "`--" ++ option ++ "` needs a value"
  | takesNoValue option => "`--" ++ option ++ "` takes no value"
  | notANumber option value => "`" ++ value ++ "` is no value for `--" ++ option ++ "`"
  | noPath => "a path is needed"

end UsageError

/-- Why the reading of arguments ends early. -/
inductive Interruption
  | fault (error : UsageError)
  | command (command : Command)
deriving DecidableEq, Repr

/-! ## Arguments -/

/-- An argument by its form. -/
inductive Argument
  /-- `--` -/
  | separator
  /-- `--name` or `--name=value` -/
  | long (name : String) (value : Option String)
  /-- `-x`, with more letters or without -/
  | short (letter : Char)
  | plain (text : String)
deriving DecidableEq, Repr

/-- The form of an argument. -/
def Argument.ofString (s : String) : Argument :=
  match s.toList with
  | ['-', '-'] => separator
  | '-' :: '-' :: name =>
    match name.dropWhile (· != '=') with
    | [] => long (String.ofList name) none
    | _ :: value => long (String.ofList (name.takeWhile (· != '='))) (some (String.ofList value))
  | '-' :: letter :: _ => short letter
  | _ => plain s

/-- The greatest number that can be given. -/
def maxNumber : Nat := 18446744073709551615

/-- The number that digits are, with or without a plus sign in front. -/
def number? (s : String) : Option Nat :=
  let digits :=
    match s.toList with
    | '+' :: digits => digits
    | digits => digits
  if digits.isEmpty || !digits.all Char.isDigit then none
  else
    let n := digits.foldl (fun n c => 10 * n + (c.toNat - '0'.toNat)) 0
    if n ≤ maxNumber then some n else none

/-- What a command takes. -/
structure Usage where
  topic : HelpTopic
  flags : List String := []
  /-- The options with a number for a value. -/
  numbers : List String := []
  manyPaths : Bool := false

/-- What has been given to a command. -/
structure Given where
  paths : List String := []
  flags : List String := []
  numbers : List (String × Nat) := []
deriving DecidableEq, Repr

namespace Given

/-- One more path, if there is room for it. -/
def addPath (g : Given) (usage : Usage) (path : String) : Except Interruption Given :=
  if usage.manyPaths || g.paths.isEmpty then .ok { g with paths := g.paths ++ [path] }
  else .error (.fault (.unexpected path))

/-- One more number. -/
def addNumber (g : Given) (name value : String) : Except Interruption Given :=
  match number? value with
  | none => .error (.fault (.notANumber name value))
  | some n => .ok { g with numbers := g.numbers ++ [(name, n)] }

/-- The number given for an option. -/
def number (g : Given) (name : String) (standard : Nat) : Nat :=
  (g.numbers.lookup name).getD standard

/-- Arguments after `--`. -/
def readPaths (usage : Usage) : List String → Given → Except Interruption Given
  | [], g => .ok g
  | path :: rest, g => do readPaths usage rest (← g.addPath usage path)

/-- An option that takes no value. -/
def addFlag (g : Given) (usage : Usage) (argument name : String) (value : Option String) :
    Except Interruption Given :=
  if usage.flags.contains name || name == "help" then
    if value.isSome then .error (.fault (.takesNoValue name))
    else if name == "help" then .error (.command (.help usage.topic))
    else if g.flags.contains name then .error (.fault (.repeated name))
    else .ok { g with flags := name :: g.flags }
  else .error (.fault (.unexpected argument))

/-- The arguments of a command. -/
def read (usage : Usage) : List String → Given → Except Interruption Given
  | [], g => .ok g
  | argument :: rest, g =>
    match Argument.ofString argument with
    | .separator => readPaths usage rest g
    | .plain path => do read usage rest (← g.addPath usage path)
    | .short letter =>
      if letter = 'h' then .error (.command (.help usage.topic))
      else .error (.fault (.unexpected argument))
    | .long name value =>
      if usage.numbers.contains name then
        if (g.numbers.lookup name).isSome then .error (.fault (.repeated name))
        else
          match value, rest with
          | some value, rest => do read usage rest (← g.addNumber name value)
          | none, [] => .error (.fault (.needsValue name))
          | none, next :: rest =>
            match Argument.ofString next with
            | .plain value => do read usage rest (← g.addNumber name value)
            | _ => .error (.fault (.needsValue name))
      else do read usage rest (← g.addFlag usage argument name value)

end Given

/-! ## Commands -/

namespace Command

/-- The first path, which must be there. -/
def firstPath (g : Given) : Except Interruption String :=
  match g.paths with
  | [] => .error (.fault .noPath)
  | path :: _ => .ok path

/-- `check [--short] path*` -/
def readCheck (args : List String) : Except Interruption Command := do
  let g ← Given.read ⟨.check, ["short"], [], true⟩ args ⟨[], [], []⟩
  let _ ← firstPath g
  return .check g.paths (g.flags.contains "short")

/-- `fmt [--check] [--indent-width n] [--use-tabs] [--keep-blank-lines n] path` -/
def readFormat (args : List String) : Except Interruption Command := do
  let g ← Given.read
    ⟨.format, ["check", "use-tabs"], ["indent-width", "keep-blank-lines"], false⟩ args ⟨[], [], []⟩
  let standard : Style := {}
  return .format (← firstPath g) (g.flags.contains "check")
    { standard with
      indentWidth := g.number "indent-width" standard.indentWidth
      useTabs := g.flags.contains "use-tabs"
      keepBlankLines := g.number "keep-blank-lines" standard.keepBlankLines }

/-- `tree path` -/
def readTree (args : List String) : Except Interruption Command := do
  let g ← Given.read ⟨.tree, [], [], false⟩ args ⟨[], [], []⟩
  return .tree (← firstPath g)

/-- `help`, with the name of a command or without. Behind the name of one there is no other. -/
def readHelp : List String → Except Interruption Command
  | [] => .ok (.help .program)
  | [name] =>
    match HelpTopic.ofName? name with
    | some topic => .ok (.help topic)
    | none => .error (.fault (.unknownCommand name))
  | _ :: name :: _ => .error (.fault (.unknownCommand name))

/-- An option in the place of a command. -/
def readOption (argument : String) : Except Interruption Command :=
  match Argument.ofString argument with
  | .long "help" none | .short 'h' => .ok (.help .program)
  | .long "version" none | .short 'V' => .ok .version
  | .plain name => .error (.fault (.unknownCommand name))
  | _ => .error (.fault (.unexpected argument))

/-- A command with its arguments. -/
def read : List String → Except Interruption Command
  | [] => .error (.fault .noCommand)
  | "check" :: args => readCheck args
  | "fmt" :: args => readFormat args
  | "tree" :: args => readTree args
  | "help" :: args => readHelp args
  | argument :: _ => readOption argument

/-- The command that arguments are. -/
def ofArguments (args : List String) : Except UsageError Command :=
  match read args with
  | .ok command | .error (.command command) => .ok command
  | .error (.fault error) => .error error

/-- The files that a command reads, in order. -/
def paths : Command → List String
  | check paths _ => paths
  | format path _ _ | tree path => [path]
  | help _ | version => []

end Command

end NginxConf
