import NginxConf.Lexeme.LuaBytes

/-!
# What a Lua body is

A body of a script is a row of bytes: bodies between braces, short strings, long brackets, comments,
and single bytes that begin none of these (`Body`). Which of them stands somewhere, and how far it
reaches, depends on the bytes that follow, so a row of bytes is a body before others.

A `[` that opens a long bracket opens it whether or not the bracket is closed, and so does one after
the dashes of a comment. One that is never closed is not a piece of a body.

A scanner reads a body from left to right, and counts the braces that are open. What it reads with
some of them open is `Enclosed`; with none open, it is a body (`enclosed_zero_iff`).
-/

namespace NginxConf.Lua

/-- What stands between the quotes of a short string: escape pairs, and bytes that are neither the
quote, nor a backslash, nor a line feed. -/
inductive ShortText (quote : UInt8) : List UInt8 → Prop
  | nil : ShortText quote []
  | escape (b : UInt8) {bytes : List UInt8} (h : ShortText quote bytes) :
      ShortText quote ('\\'.toUInt8 :: b :: bytes)
  | byte {b : UInt8} {bytes : List UInt8} (hquote : b ≠ quote) (hescape : b ≠ '\\'.toUInt8)
      (hline : b ≠ '\n'.toUInt8) (h : ShortText quote bytes) : ShortText quote (b :: bytes)

/-- Half of a long bracket: equal signs between two brackets. -/
def bracketHalf (bracket : Char) (level : Nat) : List UInt8 :=
  bracket.toUInt8 :: (List.replicate level '='.toUInt8 ++ [bracket.toUInt8])

/-- Where a long bracket opens. -/
def OpensLong (bytes : List UInt8) : Prop := ∃ level, bracketHalf '[' level <+: bytes

/-- A long bracket, from its opening half to the first closing half with as many equal signs. -/
def LongBracket (bytes : List UInt8) : Prop :=
  ∃ level inside, bytes = bracketHalf '[' level ++ (inside ++ bracketHalf ']' level) ∧
    ∀ a b, inside ++ bracketHalf ']' level = a ++ (bracketHalf ']' level ++ b) → b = []

/-- Where a line ends, or the text does. -/
def EndsLine (bytes : List UInt8) : Prop := ∀ b ∈ bytes.head?, b = '\n'.toUInt8

/-- A piece of a body that is not in braces, before the bytes that follow it. -/
inductive Piece : List UInt8 → List UInt8 → Prop
  | closedString {quote : UInt8} {text : List UInt8}
      (hquote : quote = '"'.toUInt8 ∨ quote = '\''.toUInt8) (h : ShortText quote text)
      (rest : List UInt8) : Piece (quote :: (text ++ [quote])) rest
  /-- A short string ends with its line. -/
  | openString {quote : UInt8} {text rest : List UInt8}
      (hquote : quote = '"'.toUInt8 ∨ quote = '\''.toUInt8) (h : ShortText quote text)
      (hrest : EndsLine rest) : Piece (quote :: text) rest
  | longBracket {bytes : List UInt8} (h : LongBracket bytes) (rest : List UInt8) : Piece bytes rest
  | longComment {bytes : List UInt8} (h : LongBracket bytes) (rest : List UInt8) :
      Piece ('-'.toUInt8 :: '-'.toUInt8 :: bytes) rest
  /-- A comment goes to the end of its line, unless a long bracket opens right behind the dashes. If
  the bracket is not closed, there is no comment: then the dashes begin no piece at all. -/
  | lineComment {line rest : List UInt8} (hopen : ¬ OpensLong (line ++ rest))
      (hline : '\n'.toUInt8 ∉ line) (hrest : EndsLine rest) :
      Piece ('-'.toUInt8 :: '-'.toUInt8 :: line) rest
  /-- A byte on its own. A `[` that opens a long bracket is none, even if the bracket is not closed:
  then it begins no piece at all. -/
  | byte {b : UInt8} {rest : List UInt8} (hbrace : b ≠ '{'.toUInt8 ∧ b ≠ '}'.toUInt8)
      (hquote : ¬ (b = '"'.toUInt8 ∨ b = '\''.toUInt8)) (hopen : ¬ OpensLong (b :: rest))
      (hcomment : ¬ (b = '-'.toUInt8 ∧ rest.head? = some '-'.toUInt8)) : Piece [b] rest

/-- A body, before the bytes that follow it. -/
inductive Body : List UInt8 → List UInt8 → Prop
  | nil (rest : List UInt8) : Body [] rest
  | braces {inside more rest : List UInt8} (hinside : Body inside ('}'.toUInt8 :: (more ++ rest)))
      (hmore : Body more rest) : Body ('{'.toUInt8 :: (inside ++ '}'.toUInt8 :: more)) rest
  | piece {bytes more rest : List UInt8} (hpiece : Piece bytes (more ++ rest))
      (hmore : Body more rest) : Body (bytes ++ more) rest

/-- A body begins where the bytes do, and ends before the `}` at a position. -/
def EndsBody (bytes : List UInt8) (n : Nat) : Prop :=
  ∃ code rest, bytes = code ++ '}'.toUInt8 :: rest ∧ code.length = n ∧
    Body code ('}'.toUInt8 :: rest)

/-- What is read up to the end of a body where some more braces are open. -/
inductive Enclosed : Nat → List UInt8 → List UInt8 → Prop
  | nil (rest : List UInt8) : Enclosed 0 [] rest
  | opens {d : Nat} {code rest : List UInt8} (h : Enclosed (d + 1) code rest) :
      Enclosed d ('{'.toUInt8 :: code) rest
  | closes {d : Nat} {code rest : List UInt8} (h : Enclosed d code rest) :
      Enclosed (d + 1) ('}'.toUInt8 :: code) rest
  | piece {d : Nat} {bytes code rest : List UInt8} (hpiece : Piece bytes (code ++ rest))
      (h : Enclosed d code rest) : Enclosed d (bytes ++ code) rest

variable {b : UInt8} {bytes code inside more rest : List UInt8} {d e : Nat}

/-! ## Bodies and the braces around them -/

/-- What closes some braces may stand before what closes others. -/
theorem Enclosed.append (h : Enclosed e code (more ++ rest)) (hmore : Enclosed d more rest) :
    Enclosed (d + e) (code ++ more) rest := by
  generalize hfollow : more ++ rest = follow at h
  induction h with
  | nil => exact hmore
  | opens h ih => exact .opens (ih hfollow)
  | closes h ih => exact .closes (ih hfollow)
  | piece hpiece h ih =>
    subst hfollow
    rw [List.append_assoc]
    exact .piece (by rwa [List.append_assoc]) (ih rfl)

theorem Body.enclosed (h : Body code rest) : Enclosed 0 code rest := by
  induction h with
  | nil rest => exact .nil rest
  | @braces inside more rest hinside hmore ihinside ihmore =>
    have hclose : Enclosed 1 ('}'.toUInt8 :: more) rest := .closes ihmore
    have hall : Enclosed (1 + 0) (inside ++ '}'.toUInt8 :: more) rest := ihinside.append hclose
    exact .opens hall
  | piece hpiece hmore ih => exact .piece hpiece ih

/-- Bodies one after the other, each but the last one with the `}` that closes it. -/
def Bodies : Nat → List UInt8 → List UInt8 → Prop
  | 0, code, rest => Body code rest
  | d + 1, code, rest => ∃ inside more, code = inside ++ '}'.toUInt8 :: more ∧
      Body inside ('}'.toUInt8 :: (more ++ rest)) ∧ Bodies d more rest

namespace Bodies

theorem piece (hpiece : Piece bytes (code ++ rest)) (h : Bodies d code rest) :
    Bodies d (bytes ++ code) rest := by
  cases d with
  | zero => exact .piece hpiece h
  | succ d =>
    obtain ⟨inside, more, rfl, hinside, hmore⟩ := h
    refine ⟨bytes ++ inside, more, by rw [List.append_assoc], .piece ?_ hinside, hmore⟩
    rwa [List.append_assoc, List.cons_append] at hpiece

theorem braces (hinside : Body inside ('}'.toUInt8 :: (more ++ rest))) (h : Bodies d more rest) :
    Bodies d ('{'.toUInt8 :: (inside ++ '}'.toUInt8 :: more)) rest := by
  cases d with
  | zero => exact .braces hinside h
  | succ d =>
    obtain ⟨inside', more', rfl, hinside', hmore⟩ := h
    refine ⟨'{'.toUInt8 :: (inside ++ '}'.toUInt8 :: inside'), more', by simp,
      .braces ?_ hinside', hmore⟩
    rwa [List.append_assoc, List.cons_append] at hinside

end Bodies

theorem Enclosed.bodies (h : Enclosed d code rest) : Bodies d code rest := by
  induction h with
  | nil rest => exact Body.nil rest
  | opens h ih =>
    obtain ⟨inside, more, rfl, hinside, hmore⟩ := ih
    exact .braces hinside hmore
  | @closes d code rest h ih => exact ⟨[], code, rfl, .nil _, ih⟩
  | piece hpiece h ih => exact .piece hpiece ih

/-- **A body is what is read with no more braces open.** -/
theorem enclosed_zero_iff : Enclosed 0 code rest ↔ Body code rest :=
  ⟨Enclosed.bodies, Body.enclosed⟩

/-! ## By the first byte -/

theorem LongBracket.exists_cons (h : LongBracket bytes) : ∃ more, bytes = '['.toUInt8 :: more := by
  obtain ⟨level, inside, rfl, -⟩ := h
  exact ⟨_, rfl⟩

/-- No piece begins with a brace. -/
theorem Piece.exists_cons (h : Piece bytes rest) :
    ∃ b more, bytes = b :: more ∧ b ≠ '{'.toUInt8 ∧ b ≠ '}'.toUInt8 := by
  cases h with
  | closedString hquote =>
    refine ⟨_, _, rfl, ?_⟩
    rcases hquote with rfl | rfl <;> decide
  | openString hquote =>
    refine ⟨_, _, rfl, ?_⟩
    rcases hquote with rfl | rfl <;> decide
  | longBracket h =>
    obtain ⟨more, rfl⟩ := h.exists_cons
    exact ⟨_, more, rfl, by decide⟩
  | longComment | lineComment => exact ⟨_, _, rfl, by decide⟩
  | byte hbrace => exact ⟨_, _, rfl, hbrace⟩

namespace Enclosed

/-- Where braces are open, something is read before the end of the body. -/
theorem eq_zero_of_nil (h : Enclosed d [] rest) : d = 0 := by
  generalize hcode : ([] : List UInt8) = bytes at h
  cases h with
  | nil => rfl
  | opens | closes => cases hcode
  | piece hpiece =>
    obtain ⟨b, more, rfl, -⟩ := hpiece.exists_cons
    cases hcode

theorem of_open (h : Enclosed d ('{'.toUInt8 :: code) rest) : Enclosed (d + 1) code rest := by
  generalize hcode : '{'.toUInt8 :: code = bytes at h
  cases h with
  | nil => cases hcode
  | opens h =>
    cases hcode
    exact h
  | closes => exact absurd (List.cons.inj hcode).1 (by decide)
  | piece hpiece =>
    obtain ⟨b, more, rfl, hb, -⟩ := hpiece.exists_cons
    exact absurd (List.cons.inj hcode).1.symm hb

theorem of_close (h : Enclosed d ('}'.toUInt8 :: code) rest) :
    ∃ e, d = e + 1 ∧ Enclosed e code rest := by
  generalize hcode : '}'.toUInt8 :: code = bytes at h
  cases h with
  | nil => cases hcode
  | opens => exact absurd (List.cons.inj hcode).1 (by decide)
  | closes h =>
    cases hcode
    exact ⟨_, rfl, h⟩
  | piece hpiece =>
    obtain ⟨b, more, rfl, -, hb⟩ := hpiece.exists_cons
    exact absurd (List.cons.inj hcode).1.symm hb

theorem of_piece (h : Enclosed d (b :: code) rest) (hb : b ≠ '{'.toUInt8 ∧ b ≠ '}'.toUInt8) :
    ∃ bytes more, b :: code = bytes ++ more ∧ Piece bytes (more ++ rest) ∧
      Enclosed d more rest := by
  generalize hcode : b :: code = bytes at h
  cases h with
  | nil => cases hcode
  | opens => exact absurd (List.cons.inj hcode).1 hb.1
  | closes => exact absurd (List.cons.inj hcode).1 hb.2
  | @piece d bytes more rest hpiece h => exact ⟨bytes, more, rfl, hpiece, h⟩

end Enclosed

/-! ## Bytes that mean nothing -/

/-- A byte of a longer encoding is none that means something. -/
theorem ne_toUInt8_of_wide {c : Char} (hb : 128 ≤ b.toNat) (hc : c.toUInt8.toNat < 128) :
    b ≠ c.toUInt8 := by
  rintro rfl
  omega

theorem Piece.of_wide (hb : 128 ≤ b.toNat) (rest : List UInt8) : Piece [b] rest := by
  refine .byte ⟨ne_toUInt8_of_wide hb (by decide), ne_toUInt8_of_wide hb (by decide)⟩
    (not_or.2 ⟨ne_toUInt8_of_wide hb (by decide), ne_toUInt8_of_wide hb (by decide)⟩) ?_
    fun h => ne_toUInt8_of_wide hb (by decide) h.1
  rintro ⟨level, hopen⟩
  exact ne_toUInt8_of_wide hb (by decide) (List.cons_prefix_cons.1 hopen).1.symm

/-- Such a byte is a piece of its own. -/
theorem Piece.eq_nil_of_wide (h : Piece (b :: bytes) rest) (hb : 128 ≤ b.toNat) : bytes = [] := by
  generalize hall : b :: bytes = all at h
  cases h with
  | closedString hquote | openString hquote =>
    rw [← (List.cons.inj hall).1] at hquote
    rcases hquote with hquote | hquote <;>
      exact absurd hquote (ne_toUInt8_of_wide hb (by decide))
  | longBracket h =>
    obtain ⟨more, rfl⟩ := h.exists_cons
    exact absurd (List.cons.inj hall).1 (ne_toUInt8_of_wide hb (by decide))
  | longComment | lineComment =>
    exact absurd (List.cons.inj hall).1 (ne_toUInt8_of_wide hb (by decide))
  | byte => exact (List.cons.inj hall).2

/-- **Bytes of longer encodings may be left out of a body or put into one.** -/
theorem Enclosed.wide_append_iff (hbytes : ∀ b ∈ bytes, 128 ≤ b.toNat) :
    Enclosed d (bytes ++ code) rest ↔ Enclosed d code rest := by
  induction bytes with
  | nil => exact Iff.rfl
  | cons b bytes ih =>
    rw [List.forall_mem_cons] at hbytes
    rw [← ih hbytes.2]
    constructor
    · intro h
      obtain ⟨piece, more, hcode, hpiece, hmore⟩ := h.of_piece
        ⟨ne_toUInt8_of_wide hbytes.1 (by decide), ne_toUInt8_of_wide hbytes.1 (by decide)⟩
      obtain ⟨b', piece, rfl, -⟩ := hpiece.exists_cons
      obtain ⟨rfl, htail⟩ := List.cons.inj hcode
      obtain rfl := hpiece.eq_nil_of_wide hbytes.1
      rwa [show bytes ++ code = more from htail]
    · exact .piece (.of_wide hbytes.1 _)

theorem ShortText.wide_append_iff {quote : UInt8} (hquote : quote.toNat < 128)
    (hbytes : ∀ b ∈ bytes, 128 ≤ b.toNat) :
    ShortText quote (bytes ++ code) ↔ ShortText quote code := by
  induction bytes with
  | nil => exact Iff.rfl
  | cons b bytes ih =>
    rw [List.forall_mem_cons] at hbytes
    rw [← ih hbytes.2]
    constructor
    · intro h
      generalize hall : b :: bytes ++ code = all at h
      cases h with
      | nil => cases hall
      | escape => exact absurd (List.cons.inj hall).1 (ne_toUInt8_of_wide hbytes.1 (by decide))
      | byte _ _ _ h =>
        cases hall
        exact h
    · refine .byte ?_ (ne_toUInt8_of_wide hbytes.1 (by decide))
        (ne_toUInt8_of_wide hbytes.1 (by decide))
      rintro rfl
      have := hbytes.1
      omega

end NginxConf.Lua
