/-!
# Texts and spans

A text is a list of characters. Every offset in this library counts the bytes of the UTF-8
encoding, so that positions agree with what editors and files count; lists of characters keep the
definitions free of byte arithmetic, and `Text.size` is the only bridge between the two.

## Termination

All functions here recurse on the list of characters.
-/

namespace NginxConf

/-- Whether a character lies in one of some ranges of code points. -/
def inRanges (ranges : List (Nat × Nat)) (c : Char) : Bool :=
  ranges.any fun (lo, hi) => lo ≤ c.toNat && c.toNat ≤ hi

/-- A text, character by character. -/
abbrev Text := List Char

namespace Text

/-- The number of bytes of the UTF-8 encoding. -/
def size : Text → Nat
  | [] => 0
  | c :: s => c.utf8Size + size s

@[simp]
theorem size_nil : size [] = 0 := rfl

@[simp]
theorem size_cons (c : Char) (s : Text) : size (c :: s) = c.utf8Size + size s := rfl

@[simp]
theorem size_append (s t : Text) : size (s ++ t) = size s + size t := by
  induction s with
  | nil => simp
  | cons c s ih => simp [ih, Nat.add_assoc]

theorem size_replicate (n : Nat) (c : Char) : size (List.replicate n c) = n * c.utf8Size := by
  induction n with
  | zero => simp
  | succ n ih => rw [List.replicate_succ, size_cons, ih, Nat.succ_mul, Nat.add_comm]

/-- Only the empty text has no bytes. -/
theorem size_eq_zero {s : Text} : size s = 0 ↔ s = [] := by
  cases s with
  | nil => simp
  | cons c s =>
    have := c.utf8Size_pos
    simp only [size_cons, reduceCtorEq, iff_false]
    omega

/--
Cuts a text after `n` bytes. There is no answer when `n` lies past the end or inside the encoding
of a character.
-/
def splitAt? : Text → Nat → Option (Text × Text)
  | s, 0 => some ([], s)
  | [], _ + 1 => none
  | c :: s, n + 1 =>
    if c.utf8Size ≤ n + 1 then
      (splitAt? s (n + 1 - c.utf8Size)).map fun (before, after) => (c :: before, after)
    else none

/-- Whether an offset lies between two characters, or at an end of the text. -/
def isBoundary (s : Text) (n : Nat) : Bool := (splitAt? s n).isSome

@[simp]
theorem splitAt?_zero (s : Text) : splitAt? s 0 = some ([], s) := by
  cases s <;> rfl

/-- **The two parts of a cut are the text, and the first one has the bytes asked for.** -/
theorem splitAt?_eq_some {s a b : Text} {n : Nat} :
    splitAt? s n = some (a, b) ↔ s = a ++ b ∧ size a = n := by
  induction s generalizing n a with
  | nil =>
    cases n with
    | zero => cases a <;> simp [splitAt?]
    | succ n => cases a <;> simp [splitAt?]
  | cons c s ih =>
    cases n with
    | zero =>
      have hc := c.utf8Size_pos
      rw [splitAt?_zero]
      cases a with
      | nil => simp [eq_comm]
      | cons d a => simp; intros; have := d.utf8Size_pos; omega
    | succ n =>
      rw [splitAt?]
      split
      · next hle =>
        cases a with
        | nil => simp
        | cons d a =>
          simp only [Option.map_eq_some_iff, Prod.mk.injEq, List.cons.injEq, Prod.exists, size_cons,
            List.cons_append]
          constructor
          · rintro ⟨x, y, hxy, ⟨rfl, rfl⟩, rfl⟩
            obtain ⟨h1, h2⟩ := ih.1 hxy
            exact ⟨⟨rfl, h1⟩, by omega⟩
          · rintro ⟨⟨rfl, hs⟩, hn⟩
            exact ⟨a, b, ih.2 ⟨hs, by omega⟩, ⟨rfl, rfl⟩, rfl⟩
      · next hlt =>
        constructor
        · intro h; cases h
        · rintro ⟨h, hn⟩
          cases a with
          | nil => simp at hn
          | cons d a => simp at h hn; obtain ⟨rfl, _⟩ := h; omega

/-- Of two ways to cut a text, the one that cuts later cuts off more in front. -/
theorem exists_of_append_eq_append {a b c d : Text} (h : a ++ b = c ++ d)
    (hsize : size a ≤ size c) : ∃ middle, c = a ++ middle ∧ b = middle ++ d := by
  rcases List.append_eq_append_iff.1 h with ⟨middle, hc, hb⟩ | ⟨middle, ha, hd⟩
  · exact ⟨middle, hc, hb⟩
  · have hzero : size middle = 0 := by
      rw [ha, size_append] at hsize
      omega
    rw [size_eq_zero] at hzero
    subst hzero
    exact ⟨[], by simpa using ha.symm, by simpa using hd.symm⟩

theorem isBoundary_iff {s : Text} {n : Nat} :
    isBoundary s n = true ↔ ∃ a b, s = a ++ b ∧ size a = n := by
  rw [isBoundary, Option.isSome_iff_exists]
  constructor
  · rintro ⟨⟨a, b⟩, h⟩
    exact ⟨a, b, splitAt?_eq_some.1 h⟩
  · rintro ⟨a, b, h⟩
    exact ⟨(a, b), splitAt?_eq_some.2 h⟩

/-- Behind a part of a text, the boundaries are those of the rest. -/
theorem isBoundary_append_add (a b : Text) (n : Nat) :
    isBoundary (a ++ b) (size a + n) = isBoundary b n := by
  rw [Bool.eq_iff_iff, isBoundary_iff, isBoundary_iff]
  constructor
  · rintro ⟨front, back, h, hsize⟩
    obtain ⟨middle, rfl, hrest⟩ := exists_of_append_eq_append h (by omega)
    rw [size_append] at hsize
    exact ⟨middle, back, hrest, by omega⟩
  · rintro ⟨middle, back, rfl, hsize⟩
    exact ⟨a ++ middle, back, (List.append_assoc _ _ _).symm, by rw [size_append, hsize]⟩

/-- The part of a text between two offsets; empty when they do not cut it. -/
def slice (s : Text) (start stop : Nat) : Text :=
  match splitAt? s start with
  | none => []
  | some (_, rest) =>
    match splitAt? rest (stop - start) with
    | none => []
    | some (part, _) => part

end Text

/-- A range of byte offsets, `start` included and `stop` excluded. -/
structure Span where
  start : Nat
  stop : Nat
deriving DecidableEq, Repr, Inhabited

namespace Span

/-- The empty range at an offset. -/
def point (offset : Nat) : Span := ⟨offset, offset⟩

/-- The number of bytes covered. -/
def size (r : Span) : Nat := r.stop - r.start

def isEmpty (r : Span) : Bool := r.start == r.stop

/-- Whether `inner` lies within `outer`; the ends may coincide. -/
def contains (outer inner : Span) : Bool := outer.start ≤ inner.start && inner.stop ≤ outer.stop

/-- Whether an offset lies within the range or at one of its ends. -/
def touches (r : Span) (offset : Nat) : Bool := r.start ≤ offset && offset ≤ r.stop

/-- The same range `n` bytes further on. -/
def shift (r : Span) (n : Nat) : Span := ⟨r.start + n, r.stop + n⟩

/-- The written form `start..stop`. -/
def render (r : Span) : String := toString r.start ++ ".." ++ toString r.stop

end Span

end NginxConf
