import NginxConf.Text.Ignorable
import NginxConf.Text.Joining

/-!
# The width of characters

How many columns a character takes on a screen with columns of one width: two for the wide and
full-width characters of East Asian scripts and for most pictures (the property `East_Asian_Width`
in version 18 of Unicode), none for what joins another character or leaves no trace, and one for
all else. Control characters have no width of their own; who measures a text says what they count.
-/

namespace NginxConf

/--
The ranges of the wide characters, in increasing order. The blocks of Tangut, Khitan and Jurchen,
the supplements of Kana and the block of the latest pictures are taken whole, with what is not yet
assigned in them.
-/
def wideRanges : List (Nat × Nat) :=
  [(0x1100, 0x115F), (0x231A, 0x231B), (0x2329, 0x232A), (0x23E9, 0x23EC), (0x23F0, 0x23F0),
   (0x23F3, 0x23F3), (0x25FD, 0x25FE), (0x2614, 0x2615), (0x2630, 0x2637), (0x2648, 0x2653),
   (0x267F, 0x267F), (0x268A, 0x268F), (0x2693, 0x2693), (0x26A1, 0x26A1), (0x26AA, 0x26AB),
   (0x26BD, 0x26BE), (0x26C4, 0x26C5), (0x26CE, 0x26CE), (0x26D4, 0x26D4), (0x26EA, 0x26EA),
   (0x26F2, 0x26F3), (0x26F5, 0x26F5), (0x26FA, 0x26FA), (0x26FD, 0x26FD), (0x2705, 0x2705),
   (0x270A, 0x270B), (0x2728, 0x2728), (0x274C, 0x274C), (0x274E, 0x274E), (0x2753, 0x2755),
   (0x2757, 0x2757), (0x2795, 0x2797), (0x27B0, 0x27B0), (0x27BF, 0x27BF), (0x2B1B, 0x2B1C),
   (0x2B50, 0x2B50), (0x2B55, 0x2B55), (0x2E80, 0x2E99), (0x2E9B, 0x2EF3), (0x2F00, 0x2FD5),
   (0x2FF0, 0x303E), (0x3041, 0x3096), (0x3099, 0x30FF), (0x3105, 0x312F), (0x3131, 0x318E),
   (0x3190, 0x31E5), (0x31EF, 0x321E), (0x3220, 0x3247), (0x3250, 0xA48C), (0xA490, 0xA4C6),
   (0xA960, 0xA97C), (0xAC00, 0xD7A3), (0xF900, 0xFAFF), (0xFE10, 0xFE19), (0xFE30, 0xFE52),
   (0xFE54, 0xFE66), (0xFE68, 0xFE6B), (0xFF01, 0xFF60), (0xFFE0, 0xFFE6), (0x16FE0, 0x191D2),
   (0x1AFF0, 0x1B2FB), (0x1D300, 0x1D356), (0x1D360, 0x1D376), (0x1F004, 0x1F004),
   (0x1F0CF, 0x1F0CF), (0x1F18E, 0x1F18E), (0x1F191, 0x1F19A), (0x1F1AE, 0x1F1AE),
   (0x1F200, 0x1F202), (0x1F210, 0x1F23B), (0x1F240, 0x1F248), (0x1F250, 0x1F251),
   (0x1F260, 0x1F265), (0x1F300, 0x1F320), (0x1F32D, 0x1F335), (0x1F337, 0x1F37C),
   (0x1F37E, 0x1F393), (0x1F3A0, 0x1F3CA), (0x1F3CF, 0x1F3D3), (0x1F3E0, 0x1F3F0),
   (0x1F3F4, 0x1F3F4), (0x1F3F8, 0x1F43E), (0x1F440, 0x1F440), (0x1F442, 0x1F4FC),
   (0x1F4FF, 0x1F53D), (0x1F54B, 0x1F54E), (0x1F550, 0x1F567), (0x1F57A, 0x1F57A),
   (0x1F595, 0x1F596), (0x1F5A4, 0x1F5A4), (0x1F5FB, 0x1F64F), (0x1F680, 0x1F6C5),
   (0x1F6CC, 0x1F6CC), (0x1F6D0, 0x1F6D2), (0x1F6D5, 0x1F6D9), (0x1F6DC, 0x1F6DF),
   (0x1F6EB, 0x1F6EC), (0x1F6F4, 0x1F6FC), (0x1F7DA, 0x1F7EB), (0x1F7F0, 0x1F7F0),
   (0x1F90C, 0x1F93A), (0x1F93C, 0x1F945), (0x1F947, 0x1F9FF), (0x1FA70, 0x1FAFF),
   (0x20000, 0x2FFFD), (0x30000, 0x3FFFD)]

/-- Whether a character is wide. -/
def isWide (c : Char) : Bool := inRanges wideRanges c

/--
The ranges of the characters that are drawn at another one without being marks: the vowels and
finals of Hangul syllables, signs that stand above or below the digits after them, letters that
stand above or below the letter after them, and the caret of Devanagari.
-/
def attachedRanges : List (Nat × Nat) :=
  [(0x605, 0x605), (0x70F, 0x70F), (0x890, 0x891), (0x8E2, 0x8E2), (0xD4E, 0xD4E),
   (0x1160, 0x11FF), (0xA8FA, 0xA8FA), (0xD7B0, 0xD7C6), (0xD7CB, 0xD7FB), (0x111C2, 0x111C3),
   (0x113D1, 0x113D1), (0x1193F, 0x1193F), (0x11941, 0x11941), (0x11A84, 0x11A89),
   (0x11D46, 0x11D46), (0x11F02, 0x11F02)]

/-- Whether a character is drawn at another one or not at all. -/
def isZeroWidth (c : Char) : Bool := isIgnorable c || isJoining c || inRanges attachedRanges c

/--
The characters with a width that their class does not say: the filler of a Hangul initial, a letter
and a sign of Khmer that are drawn as two and three, and the joiner of Tifinagh, which is seen.
-/
def singularWidths : List (Char × Nat) :=
  [('\u115F', 2), ('\u17A4', 2), ('\u17D8', 3), ('\u2D7F', 1)]

/-- Whether a character is a control character. -/
def isControl (c : Char) : Bool := c.toNat < 0x20 || 0x7F ≤ c.toNat && c.toNat < 0xA0

/-- The number of columns that a character takes; a control character takes `control` columns. -/
def charWidth (control : Nat) (c : Char) : Nat :=
  if isControl c then control
  else
    match singularWidths.lookup c with
    | some n => n
    | none => if isZeroWidth c then 0 else if isWide c then 2 else 1

namespace Text

/-- The number of columns that a text takes, if each control character takes `control` columns. -/
def width (control : Nat) : Text → Nat
  | [] => 0
  | c :: s => charWidth control c + width control s

theorem width_append (control : Nat) (s t : Text) :
    width control (s ++ t) = width control s + width control t := by
  induction s with
  | nil => simp [width]
  | cons c s ih => simp [width, ih, Nat.add_assoc]

/-- The longest beginning of a text that does not take more than `room` columns. -/
def fitting (control room : Nat) : Text → Text
  | [] => []
  | c :: s =>
    if charWidth control c ≤ room then c :: fitting control (room - charWidth control c) s else []

/-- **What is taken is a beginning of the text.** -/
theorem exists_fitting_append (control room : Nat) (s : Text) :
    ∃ rest, fitting control room s ++ rest = s := by
  induction s generalizing room with
  | nil => exact ⟨[], rfl⟩
  | cons c s ih =>
    rw [fitting]
    split
    · obtain ⟨rest, h⟩ := ih (room - charWidth control c)
      exact ⟨rest, by rw [List.cons_append, h]⟩
    · exact ⟨c :: s, rfl⟩

/-- **What is taken fits.** -/
theorem width_fitting (control room : Nat) (s : Text) :
    width control (fitting control room s) ≤ room := by
  induction s generalizing room with
  | nil => simp [fitting, width]
  | cons c s ih =>
    rw [fitting]
    split
    · next h => have := ih (room - charWidth control c); simp only [width]; omega
    · simp [width]

end Text

end NginxConf
