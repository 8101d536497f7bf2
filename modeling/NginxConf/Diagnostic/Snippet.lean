import NginxConf.Diagnostic
import NginxConf.Diagnostic.Excerpt
import NginxConf.Diagnostic.Window

/-!
# Snippets

A diagnostic can be drawn below the line of the file that it is about: a heading with the place,
the line with its number, and marks under the range. Of a range over several lines only the first
line is drawn. Where there is no line to draw the heading names the first character of the file.

A row of the drawing is a list of characters, and parts are put into it at positions, the later ones
over the earlier ones. Marks under a part of the line that is cut off at the left move to the left
with the rest, up to the first position of the row. Where no window can be found for the lines there
is no drawing.
-/

namespace NginxConf

/-- A text put into a row at a position, over what stands there. -/
def Text.putAt (row : Text) (position : Nat) (s : Text) : Text :=
  if s.isEmpty then row
  else
    row.take position ++ List.replicate (position - row.length) ' ' ++ s
      ++ row.drop (position + s.length)

namespace Diagnostic

/-- The character that marks the range. -/
def mark (d : Diagnostic) : Char :=
  match d.severity with
  | .error => '^'
  | .warning => '-'

/-- The label behind the marks. -/
def label : Text := "here".toList

/-- What stands for the part of a line that is cut off. -/
def points : Text := "...".toList

/-- The width of the screen. -/
def screenWidth : Nat := 140

/-- The column marked on the line where a range over several lines ends. -/
def lastMark (d : Diagnostic) (l : SourceLine) : Nat :=
  l.column d.span.stop - 1 + if l.start + Text.size l.text < d.span.stop then 1 else 0

/--
The columns that are marked: those of the range, at least one; or of a range over several lines the
first one and the last one.
-/
def marked (d : Diagnostic) (e : Excerpt) : List (Nat × Nat) :=
  match e.lines with
  | [] => []
  | l :: more =>
    let first := l.column d.span.start
    if d.span.stop ≤ l.reach then [(first, max (first + 1) (l.column d.span.stop))]
    else
      let last := (more.find? (d.span.stop ≤ ·.reach)).map d.lastMark
      (first, first + 1) :: last.toList.map fun column => (column, column + 1)

/-- What the window of an excerpt has to show. A blank line counts as indented to beyond its end. -/
def extent (d : Diagnostic) (e : Excerpt) : Extent :=
  let marks := d.marked e
  let stop := (marks.map Prod.snd).foldl max 0
  { room := screenWidth - ((toString e.nextNumber).length + 3)
    indent := e.indent?.getD (4 * e.longest + Window.deepIndent + Window.spare + 1)
    longest := e.longest
    markStart := ((marks.map Prod.fst).min?).getD 0
    markStop := stop
    labelStop := stop + label.length + 1 }

/-- The row with the line. The line begins at the position `code`. -/
def lineRow (w : Window) (l : SourceLine) (code : Nat) : Text :=
  let bytes := Text.size l.shown
  let left := w.leftOf bytes
  let seen := Text.fitting 1 (w.rightOf bytes - left) (l.shown.drop left)
  let row := Text.putAt ((toString l.number).toList ++ [' ', '|']) code seen
  let row := if w.cutsLeft then row.putAt code points else row
  if w.cutsRight bytes then row.putAt (code + Text.width 1 seen - points.length) points else row

/-- The row with the marks and the label. -/
def markRow (d : Diagnostic) (w : Window) (l : SourceLine) (code : Nat) (marks : Nat × Nat) :
    Text :=
  let hidden := Text.width 1 (l.shown.take (w.leftOf (Text.size l.shown)))
  let (first, last) := marks
  let row := Text.putAt (List.replicate (code - 2) ' ' ++ ['|']) (code + (last + 1 - hidden)) label
  (List.range' first (last - first)).foldl
    (fun row column => row.putAt (code + column - hidden) [d.mark]) row

/-- The rows with the first line and the marks below it. -/
def lineRows (d : Diagnostic) (e : Excerpt) : Except Overflow (List String) :=
  match e.lines, d.marked e with
  | l :: _, marks :: _ => do
    let window ← Window.fit (d.extent e)
    let code := (toString l.number).length + 3
    return [String.ofList (lineRow window l code), String.ofList (d.markRow window l code marks)]
  | _, _ => .ok []

/-- The severity and the message, if there is one. -/
def title (d : Diagnostic) : String :=
  d.severity.label ++ (if d.message.isEmpty then "" else ": " ++ d.message)

/-- The line and column of the heading. Columns count characters from one. -/
def place (d : Diagnostic) (line : Option SourceLine) : Nat × Nat :=
  match line with
  | some l => (l.number, (l.before d.span.start).length + 1)
  | none => (1, 1)

/-- The heading: the path, if there is one, the line and the column. -/
def heading (path : String) (place : Nat × Nat) : String :=
  "-->" ++ (if path.isEmpty then "" else " " ++ path) ++ ":" ++ toString place.1 ++ ":"
    ++ toString place.2

/-- The report, drawn at its place in a file. -/
def snippet (d : Diagnostic) (path : String) (s : Text) : Except Overflow String := do
  let excerpt := Excerpt.around s d.span
  let line := excerpt.lines.head?
  let gutter := line.elim 0 fun l => (toString l.number).length
  let margin := String.ofList (List.replicate gutter ' ')
  let rows ← d.lineRows excerpt
  return "\n".intercalate (
    [d.title, margin ++ heading path (d.place line), margin ++ " |"] ++ rows ++ [margin ++ " |"])

end Diagnostic

end NginxConf
