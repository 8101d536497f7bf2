import NginxConf.Parse
import NginxConf.Text.Line

/-!
# Workspaces

The files that an editor has open. A file is known by its number, in the order in which files were
opened; its text may change, its path may not.
-/

namespace NginxConf

/-- An open file. -/
structure File where
  path : String
  text : Text
deriving DecidableEq, Repr

namespace File

def parse (f : File) : Parse := NginxConf.parse f.text

/-- The reports on a file, each with the place where its range begins. -/
def reports (f : File) : List (Position × Diagnostic) :=
  f.parse.diagnostics.map fun d => (Position.ofOffset f.text d.span.start, d)

end File

/-- The open files. -/
structure Workspace where
  files : List File
deriving DecidableEq, Repr

namespace Workspace

/-- No file is open. -/
def empty : Workspace := ⟨[]⟩

/-- Opens a file and gives its number. -/
def add (w : Workspace) (path : String) (text : Text) : Nat × Workspace :=
  (w.files.length, ⟨w.files ++ [⟨path, text⟩]⟩)

/-- The file of a number. -/
def file? (w : Workspace) (number : Nat) : Option File := w.files[number]?

/-- Changes the text of a file. -/
def setText (w : Workspace) (number : Nat) (text : Text) : Workspace :=
  ⟨w.files.modify number fun f => { f with text := text }⟩

/-- A file just opened is found under its number. -/
theorem file?_add (w : Workspace) (path : String) (text : Text) :
    (w.add path text).2.file? (w.add path text).1 = some ⟨path, text⟩ := by
  simp [add, file?]

/-- Changing one file leaves all others as they are. -/
theorem file?_setText_of_ne (w : Workspace) {m n : Nat} (h : m ≠ n) (text : Text) :
    (w.setText m text).file? n = w.file? n := by
  simp [setText, file?, h]

end Workspace

end NginxConf
