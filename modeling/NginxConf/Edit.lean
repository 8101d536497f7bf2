import NginxConf.Text

/-!
# Edits

An edit takes a range of bytes out of a text and puts another text in its place. It is refused when
the range leaves the text or cuts a character; of two faults the first one met is reported: the
bound, then the start, then the end of the range.
-/

namespace NginxConf

/-- The replacement of a range of a text. -/
structure Edit where
  removed : Span
  inserted : Text
deriving DecidableEq, Repr, Inhabited

/-- Why an edit does not fit a text. -/
inductive EditError
  | outOfBounds (removed : Span) (size : Nat)
  | notABoundary (offset : Nat)
deriving DecidableEq, Repr

/-- What a refusal says to the user. -/
def EditError.message : EditError → String
  | outOfBounds removed size =>
    "edit range " ++ removed.render ++ " is out of bounds for a text of length " ++ toString size
  | notABoundary offset => "edit offset " ++ toString offset ++ " is not on a char boundary"

namespace Edit

/-- The text after the edit. -/
def apply (e : Edit) (s : Text) : Except EditError Text :=
  if Text.size s < e.removed.stop then .error (.outOfBounds e.removed (Text.size s))
  else
    match Text.splitAt? s e.removed.start, Text.splitAt? s e.removed.stop with
    | none, _ => .error (.notABoundary e.removed.start)
    | some _, none => .error (.notABoundary e.removed.stop)
    | some (before, _), some (_, after) => .ok (before ++ e.inserted ++ after)

/-- Where an offset at or after the end of the removed range is found after the edit. -/
def move (e : Edit) (offset : Nat) : Nat := offset - e.removed.size + Text.size e.inserted

/-- Where a range after the removed one is found after the edit. -/
def moveSpan (e : Edit) (r : Span) : Span := ⟨e.move r.start, e.move r.stop⟩

/-- **What is kept stands around what is put in.** -/
theorem apply_append {before removed after inserted : Text} :
    Edit.apply ⟨⟨Text.size before, Text.size before + Text.size removed⟩, inserted⟩
      (before ++ removed ++ after) = .ok (before ++ inserted ++ after) := by
  have hstart : Text.splitAt? (before ++ removed ++ after) (Text.size before)
      = some (before, removed ++ after) := Text.splitAt?_eq_some.2 ⟨by simp, rfl⟩
  have hstop : Text.splitAt? (before ++ removed ++ after) (Text.size before + Text.size removed)
      = some (before ++ removed, after) := Text.splitAt?_eq_some.2 ⟨by simp, by simp⟩
  have hsize : ¬ Text.size (before ++ removed ++ after) < Text.size before + Text.size removed := by
    simp only [Text.size_append]
    omega
  simp only [apply, if_neg hsize, hstart, hstop]

end Edit

end NginxConf
