import NginxConf.Text.Blank
import NginxConf.Text.Line
import NginxConf.Text.Width

/-!
# Excerpts

A range of a file is shown with the whole lines that it touches. They are cut out of the file
without the line break at their end, so that a carriage return before that break stays a part of
the last line; between two lines of the excerpt it belongs to the break. A range right behind a
line break touches the line that follows. If that line is empty there is nothing to show, and the
excerpt has no line.
-/

namespace NginxConf

/-- A line of a file, apart from its line break. -/
structure SourceLine where
  /-- Counted from one. -/
  number : Nat
  start : Nat
  text : Text
  /-- How far a range may go that does not leave the line: up to the end of its line break. -/
  reach : Nat
deriving DecidableEq, Repr

namespace SourceLine

/-- A line without the line break that it may end with. -/
def withoutBreak (line : Text) : Text :=
  match line.reverse with
  | '\n' :: '\r' :: r => r.reverse
  | '\n' :: r => r.reverse
  | _ => line

/-- A line of a file with its line break. At the end of the file one byte counts as a line break. -/
def ofLine (number start : Nat) (line : Text) : SourceLine :=
  let text := withoutBreak line
  ⟨number, start, text, start + max (Text.size line) (Text.size text + 1)⟩

/-- Lines that begin at an offset, the first one with the given number. -/
def numberFrom (number start : Nat) : List Text → List SourceLine
  | [] => []
  | line :: more =>
    ofLine number start line :: numberFrom (number + 1) (start + Text.size line) more

/-- The part of the line before an offset of the file, or all of it. -/
def before (l : SourceLine) (offset : Nat) : Text :=
  l.text.slice 0 (min (offset - l.start) (Text.size l.text))

/-- The column of an offset of the file: the width of what stands before it on the line. -/
def column (l : SourceLine) (offset : Nat) : Nat := Text.width 0 (l.before offset)

/-- The line as it is drawn: a tab becomes four blanks, joiners and marks of direction go. -/
def shown (l : SourceLine) : Text :=
  l.text.flatMap fun c =>
    if c = '\t' then List.replicate 4 ' '
    else if c = '\u200D' || ('\u202A' ≤ c && c ≤ '\u202E') || ('\u2066' ≤ c && c ≤ '\u2069') then []
    else [c]

/-- The columns of the blanks that the line begins with, where a tab takes four. -/
def indentWidth : Text → Nat
  | [] => 0
  | c :: s => if isBlank c then (if c = '\t' then 4 else 1) + indentWidth s else 0

/-- The columns of the blanks that the line begins with; none is given for a blank line. -/
def indent? (l : SourceLine) : Option Nat :=
  if Text.isBlankText l.text then none else some (indentWidth l.text)

end SourceLine

/-- The lines of a file that a range touches. -/
structure Excerpt where
  /-- The number of the first line. -/
  number : Nat
  lines : List SourceLine
deriving DecidableEq, Repr

namespace Excerpt

/-- What a text has before its first line feed. -/
def toBreak (s : Text) : Text := s.takeWhile (· != '\n')

/-- What a text has behind its last line feed. -/
def fromBreak (s : Text) : Text := (toBreak s.reverse).reverse

/-- The excerpt for a range of a file. -/
def around (s : Text) (range : Span) : Excerpt :=
  let head := s.slice 0 range.start
  let start := range.start - Text.size (fromBreak head)
  let stop := range.stop + Text.size (toBreak (s.slice range.stop (Text.size s)))
  let number := head.count '\n' + 1
  ⟨number, SourceLine.numberFrom number start (Text.lines (s.slice start stop))⟩

/-- The least indent of a line that is not blank. -/
def indent? (e : Excerpt) : Option Nat := (e.lines.filterMap SourceLine.indent?).min?

/-- The number of bytes of the longest line. -/
def longest (e : Excerpt) : Nat := e.lines.foldl (fun n l => max n (Text.size l.text)) 0

/-- The number of the line after the excerpt. -/
def nextNumber (e : Excerpt) : Nat := e.number + e.lines.length

end Excerpt

end NginxConf
