import NginxConf.Text

/-!
# Blank characters

The whitespace of Unicode (the property `White_Space`): what separates words in a configuration
file, and what counts as nothing on a line of code.
-/

namespace NginxConf

/-- The ranges of the property `White_Space`, in increasing order. -/
def blankRanges : List (Nat × Nat) :=
  [(0x9, 0xD), (0x20, 0x20), (0x85, 0x85), (0xA0, 0xA0), (0x1680, 0x1680), (0x2000, 0x200A),
   (0x2028, 0x2029), (0x202F, 0x202F), (0x205F, 0x205F), (0x3000, 0x3000)]

/-- Whether a character is whitespace. -/
def isBlank (c : Char) : Bool := inRanges blankRanges c

/-- The whitespace of ASCII is whitespace. -/
theorem isBlank_of_isWhitespace {c : Char} (h : c.isWhitespace = true) : isBlank c = true := by
  simp only [Char.isWhitespace, Bool.or_eq_true, decide_eq_true_eq] at h
  rcases h with ((rfl | rfl) | rfl) | rfl <;> decide

/-- Whether a line of text shows nothing. -/
def Text.isBlankText (s : Text) : Bool := s.all isBlank

end NginxConf
