import NginxConf.Text

/-!
# Lines and columns

A line ends at a line feed. Lines and columns are counted from zero, and columns count bytes.
-/

namespace NginxConf

/-- A place in a text, by line and by byte within the line. -/
structure Position where
  line : Nat
  column : Nat
deriving DecidableEq, Repr, Inhabited

namespace Position

/-- The place after a character, when `p` is the place before it. -/
def advance (p : Position) (c : Char) : Position :=
  if c = '\n' then ⟨p.line + 1, 0⟩ else ⟨p.line, p.column + c.utf8Size⟩

/-- The place `n` bytes into a text that begins at `p`. -/
def within (p : Position) : Text → Nat → Position
  | _, 0 => p
  | [], _ + 1 => p
  | c :: s, n + 1 => within (p.advance c) s (n + 1 - c.utf8Size)

/-- The place at a byte offset of a text. -/
def ofOffset (s : Text) (offset : Nat) : Position := within ⟨0, 0⟩ s offset

/-- No character before the offset: the place is the first one. -/
theorem ofOffset_zero (s : Text) : ofOffset s 0 = ⟨0, 0⟩ := by
  cases s <;> rfl

end Position

namespace Text

/-- The lines of a text, each with the line feed that ends it; only the last may lack one. -/
def lines : Text → List Text
  | [] => []
  | '\n' :: s => ['\n'] :: lines s
  | c :: s =>
    match lines s with
    | [] => [[c]]
    | l :: ls => (c :: l) :: ls

/-- **Nothing is lost by cutting a text into lines.** -/
theorem flatten_lines (s : Text) : (lines s).flatten = s := by
  fun_induction lines s with
  | case1 => rfl
  | case2 s ih => simp [ih]
  | case3 c s _ h ih => simp [h] at ih; simp [← ih]
  | case4 c s _ l ls h ih => simp [h] at ih; simp [← ih]

end Text

end NginxConf
