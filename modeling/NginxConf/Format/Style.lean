import NginxConf.Text

/-!
# Styles of formatting

What a user may choose about the look of a formatted file: how far a level is indented, how many
blank lines in a row are kept, and how a line ends.
-/

namespace NginxConf

/-- How a line ends. -/
inductive LineEnding
  | lf
  | crlf
deriving DecidableEq, Repr, Inhabited

def LineEnding.text : LineEnding → Text
  | lf => ['\n']
  | crlf => ['\r', '\n']

/-- The look of a formatted file. -/
structure Style where
  /-- The number of spaces for a level, unless it is a tab. -/
  indentWidth : Nat := 4
  useTabs : Bool := false
  /-- The most blank lines in a row. -/
  keepBlankLines : Nat := 2
  lineEnding : LineEnding := .lf
deriving DecidableEq, Repr, Inhabited

namespace Style

/-- The most line breaks in a row. -/
def maxBreaks (s : Style) : Nat := s.keepBlankLines + 1

/-- The blanks in front of a line at a level. -/
def indent (s : Style) (level : Nat) : Text :=
  if s.useTabs then List.replicate level '\t' else List.replicate (level * s.indentWidth) ' '

/-- So many line breaks, but no more than are allowed in a row. -/
def breaks (s : Style) (count : Nat) : Text :=
  (List.replicate (min count s.maxBreaks) s.lineEnding.text).flatten

@[simp]
theorem indent_zero (s : Style) : s.indent 0 = [] := by
  simp [indent]

@[simp]
theorem breaks_zero (s : Style) : s.breaks 0 = [] := by
  simp [breaks]

/-- Breaks beyond the limit are not written. -/
theorem breaks_min (s : Style) (count : Nat) :
    s.breaks (min count s.maxBreaks) = s.breaks count := by
  simp [breaks]

end Style

end NginxConf
