import NginxConf.Text

/-!
# Directories

The files that a command can read, by their paths from one directory. A path is read from left to
right, name by name: every name but the last must be that of a directory, two dots lead back, and
one dot or none stays. What lies outside the directory is taken to be there, and to hold nothing
else.
-/

namespace NginxConf

/-- Why a file cannot be read. -/
inductive ReadError
  | notFound
  | notDirectory
  | isDirectory
  | nameTooLong
  | other (message : String)
deriving DecidableEq, Repr

/-- What the reason says to the user. -/
def ReadError.message : ReadError → String
  | notFound => "No such file or directory (os error 2)"
  | notDirectory => "Not a directory (os error 20)"
  | isDirectory => "Is a directory (os error 21)"
  | nameTooLong => "File name too long (os error 36)"
  | other message => message

/-- Where files come from. -/
abbrev Files := String → Except ReadError Text

/-- Files, each with the names that lead to it. -/
structure Directory where
  files : List (List String × Text)

namespace Directory

/-- The greatest number of bytes of a name. -/
def maxNameSize : Nat := 255

/-- The number of bytes that a path has to stay below. -/
def maxPathSize : Nat := 4096

/-- Whether a name stays where it stands. -/
def stays (name : String) : Bool := name.isEmpty || name == "."

/-- The directory with files at some paths. -/
def ofPaths (files : List (String × Text)) : Directory :=
  ⟨files.map fun (path, text) => ((path.splitOn "/").filter (!stays ·), text)⟩

/-- What names lead to. -/
inductive Entry
  | file (text : Text)
  | directory
  | nothing

/-- What names lead to from the directory. Files make the directories that they lie in. -/
def entry (d : Directory) (names : List String) : Entry :=
  match d.files.lookup names with
  | some text => .file text
  | none =>
    if names.isEmpty || d.files.any fun (path, _) => names.isPrefixOf path then .directory
    else .nothing

/-- Goes on from a place by a name. There are no names for a place outside. -/
def step (d : Directory) (place : Option (List String)) (name : String) :
    Except ReadError (Option (List String)) :=
  match place with
  | none => if stays name || name == ".." then .ok none else .error .notFound
  | some names =>
    match d.entry names with
    | .nothing => .error .notFound
    | .file _ => .error .notDirectory
    | .directory =>
      if stays name then .ok (some names)
      else if name == ".." then .ok (if names.isEmpty then none else some names.dropLast)
      else if maxNameSize < name.utf8ByteSize then .error .nameTooLong
      else .ok (some (names ++ [name]))

/-- The text of the file at a path. -/
def read (d : Directory) (path : String) : Except ReadError Text :=
  if path.isEmpty then .error .notFound
  else if maxPathSize ≤ path.utf8ByteSize then .error .nameTooLong
  else do
    let start := if path.startsWith "/" then none else some []
    match ← (path.splitOn "/").foldlM d.step start with
    | none => .error .isDirectory
    | some names =>
      match d.entry names with
      | .file text => .ok text
      | .directory => .error .isDirectory
      | .nothing => .error .notFound

end Directory

end NginxConf
