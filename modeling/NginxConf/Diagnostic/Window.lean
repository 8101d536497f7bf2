import NginxConf.Overflow

/-!
# The part of long lines that is drawn

A line that does not fit on the screen is drawn in part, and so is a line with a deep indent: the
window is the range of columns that is seen. It is chosen so that the marks and the label below the
line are seen if that can be done, with a little room on both sides of them. Three points stand for
what has been cut off at a side.

The length of a line is its number of bytes here: a line of wide characters is cut before it fills
the screen.
-/

namespace NginxConf

/-- What a window has to show. All but `longest` is measured in columns. -/
structure Extent where
  /-- The width of the screen, less what stands in front of the lines. -/
  room : Nat
  /-- The blanks that every line begins with. -/
  indent : Nat
  /-- The number of bytes of the longest line. -/
  longest : Nat
  markStart : Nat
  markStop : Nat
  /-- Where the label behind the marks ends. -/
  labelStop : Nat
deriving DecidableEq, Repr

/-- A range of columns. -/
structure Window where
  room : Nat
  left : Nat
  right : Nat
  /-- The longest line of which nothing is missing at the right end. -/
  complete : Nat
deriving DecidableEq, Repr

namespace Window

/-- The columns kept free beside what has to be seen, for the points and for blanks. -/
def spare : Nat := 6

/-- An indent beyond which blanks are cut off, even if all fits. -/
def deepIndent : Nat := 20

/-- What is left of a deep indent. -/
def keptIndent : Nat := 16

/--
The columns to be drawn. If the lines fit, only a deep indent is cut. Otherwise the first of these
that leaves room for what it names: the label, behind the indent; the marks with the label, centred;
the marks, a little left of the centre; and the marks alone.

A label that ends before the indent, as under marks in a deep indent, has no distance from it; then
there is no window.
-/
def columns (e : Extent) : Except Overflow (Nat × Nat) :=
  let indent := e.indent - spare
  let first := e.markStart - spare
  let last := e.markStop + spare
  let label := e.labelStop + spare
  let left := if deepIndent < indent then indent - keptIndent else 0
  let right := max e.longest left
  if right - left ≤ e.room then .ok (left, right)
  else if label < indent then .error .subtraction
  else if label - indent ≤ e.room then .ok (indent, indent + e.room)
  else if label - first ≤ e.room then
    let left := first - (e.room - (label - first)) / 2
    .ok (left, left + e.room)
  else if last - first ≤ e.room then
    let left := first - (e.room - (last - first)) / 5 * 2
    .ok (left, left + e.room)
  else .ok (first, last)

/-- The window for what has to be shown. The spare room is no reason to take a line for cut. -/
def fit (e : Extent) : Except Overflow Window := do
  let (left, right) ← columns e
  let spared := right = e.markStop + spare || right = e.labelStop + spare
  return ⟨e.room, left, right, if spared then right - spare else right⟩

/-- Whether lines are cut at their left end. -/
def cutsLeft (w : Window) : Bool := 0 < w.left

/-- Whether a line with so many bytes is cut at its right end. -/
def cutsRight (w : Window) (bytes : Nat) : Bool := w.complete < bytes && w.left + w.room < bytes

/-- Where a line with so many bytes begins to be seen. -/
def leftOf (w : Window) (bytes : Nat) : Nat := min w.left bytes

/-- Where a line with so many bytes ends to be seen. -/
def rightOf (w : Window) (bytes : Nat) : Nat :=
  if bytes - w.left ≤ w.room then bytes else min bytes w.right

theorem columns_le {e : Extent} {c : Nat × Nat} (h : columns e = .ok c) : c.1 ≤ c.2 := by
  simp only [columns] at h
  repeat' split at h
  all_goals cases h
  all_goals simp only [spare, deepIndent, keptIndent] at *
  all_goals omega

/-- **A window never ends before it begins.** -/
theorem left_le_right {e : Extent} {w : Window} (h : fit e = .ok w) : w.left ≤ w.right := by
  rw [fit] at h
  cases hc : columns e with
  | error o => rw [hc] at h; cases h
  | ok c =>
    rw [hc] at h
    cases h
    exact columns_le hc

/-- **Lines that fit have a window.** -/
theorem isOk_fit_of_le {e : Extent} (h : e.longest ≤ e.room) : (fit e).isOk = true := by
  have hfits : max e.longest (if deepIndent < e.indent - spare then e.indent - spare - keptIndent
      else 0) - (if deepIndent < e.indent - spare then e.indent - spare - keptIndent else 0)
      ≤ e.room := by omega
  simp only [fit, columns, if_pos hfits]
  rfl

end Window

end NginxConf
