/-!
# Help

What the program says about itself and its commands. A page of help says what a command does and how
it is written, and lists its arguments and options; in each list the texts begin at one column.
-/

namespace NginxConf

/-- What help can be asked for. -/
inductive HelpTopic
  | program
  | check
  | format
  | tree
  | help
deriving DecidableEq, Repr

/-- A list with a title; of each entry the name and what is said about it. -/
structure HelpList where
  title : String
  entries : List (String × String)

/-- A page of help. -/
structure HelpPage where
  about : String
  usage : String
  lists : List HelpList

namespace HelpList

/-- The length of the longest name. -/
def longest (l : HelpList) : Nat := l.entries.foldl (fun n e => max n e.1.length) 0

/-- A name and what is said about it, on one line. -/
def line (longest : Nat) (entry : String × String) : String :=
  "  " ++ entry.1 ++ String.ofList (List.replicate (longest + 2 - entry.1.length) ' ') ++ entry.2
    ++ "\n"

/-- The list with its title. -/
def render (l : HelpList) : String :=
  l.title ++ ":\n" ++ String.join (l.entries.map (line l.longest))

end HelpList

namespace HelpPage

/-- The page as a text. -/
def render (p : HelpPage) : String :=
  p.about ++ "\n\nUsage: " ++ p.usage ++ "\n"
    ++ String.join (p.lists.map fun l => "\n" ++ l.render)

end HelpPage

namespace HelpTopic

/-- The topic that a command is called by. -/
def ofName? : String → Option HelpTopic
  | "check" => some check
  | "fmt" => some format
  | "tree" => some tree
  | "help" => some help
  | _ => none

/-- The option that asks for help. -/
def helpOption : String × String := ("-h, --help", "Print help")

/-- The page on a topic. -/
def page : HelpTopic → HelpPage
  | program =>
    ⟨"Checks and formats nginx configuration files", "ngx <COMMAND>",
      [⟨"Commands",
          [("check", "Reports syntax errors and warnings"), ("fmt", "Prints the formatted file"),
            ("tree", "Prints the syntax tree"),
            ("help", "Print this message or the help of the given subcommand(s)")]⟩,
        ⟨"Options", [helpOption, ("-V, --version", "Print version")]⟩]⟩
  | check =>
    ⟨"Reports syntax errors and warnings", "ngx check [OPTIONS] <PATHS>...",
      [⟨"Arguments", [("<PATHS>...", "")]⟩,
        ⟨"Options",
          [("    --short", "One `path:line:col: severity: message` line per diagnostic"),
            helpOption]⟩]⟩
  | format =>
    ⟨"Prints the formatted file", "ngx fmt [OPTIONS] <PATH>",
      [⟨"Arguments", [("<PATH>", "")]⟩,
        ⟨"Options",
          [("    --check", "Only report whether the file is formatted"),
            ("    --indent-width <INDENT_WIDTH>", "[default: 4]"), ("    --use-tabs", ""),
            ("    --keep-blank-lines <KEEP_BLANK_LINES>", "[default: 2]"), helpOption]⟩]⟩
  | tree =>
    ⟨"Prints the syntax tree", "ngx tree <PATH>",
      [⟨"Arguments", [("<PATH>", "")]⟩, ⟨"Options", [helpOption]⟩]⟩
  | help =>
    ⟨"Print this message or the help of the given subcommand(s)", "ngx help [COMMAND]...",
      [⟨"Arguments", [("[COMMAND]...", "Print help for the subcommand(s)")]⟩]⟩

/-- What is printed about a topic. -/
def text (topic : HelpTopic) : String := topic.page.render

end HelpTopic

end NginxConf
