import Mathlib.Data.List.TakeWhile
import NginxConf.Proofs.Lexeme.Script
import NginxConf.Lexeme.LuaBytes

/-!
# Reading bytes is reading characters

The scan of a script by bytes ends where the body ends by characters, and never halts
(`Lua.bodyEnd_eq`). The invariant of all its loops is `Lua.Ahead`: a position lies between two
characters, and a certain text is still to be read. The loops leave it inside of a character that
is not ASCII, but only to step over bytes that mean nothing to them (`Lua.Ahead.skip_wide`).
-/

namespace NginxConf

/-! ## The bytes of a character -/

@[simp]
theorem Text.bytes_nil : Text.bytes [] = [] := rfl

@[simp]
theorem Text.bytes_cons (c : Char) (s : Text) :
    Text.bytes (c :: s) = String.utf8EncodeChar c ++ Text.bytes s := by
  rw [bytes, List.flatMap_cons]
  rfl

@[simp]
theorem Text.bytes_append (s t : Text) : Text.bytes (s ++ t) = Text.bytes s ++ Text.bytes t :=
  List.flatMap_append

@[simp]
theorem Text.length_bytes (s : Text) : (Text.bytes s).length = Text.size s := by
  induction s with
  | nil => rfl
  | cons c s ih => rw [bytes_cons, List.length_append, String.length_utf8EncodeChar, ih, size_cons]

/-- Whether a character is a single byte. -/
def IsAscii (c : Char) : Prop := c.val.toNat ≤ 127

instance (c : Char) : Decidable (IsAscii c) := inferInstanceAs (Decidable (_ ≤ _))

variable {a c : Char}

theorem IsAscii.utf8Size_eq (h : IsAscii c) : c.utf8Size = 1 := by
  rw [Char.utf8Size_eq_one_iff, UInt32.le_iff_toNat_le]
  exact h

theorem IsAscii.encode_eq (h : IsAscii c) : String.utf8EncodeChar c = [c.toUInt8] :=
  String.utf8EncodeChar_eq_singleton h.utf8Size_eq

/-- Different characters of one byte have different bytes. -/
theorem IsAscii.toUInt8_inj (ha : IsAscii a) (hc : IsAscii c) : a.toUInt8 = c.toUInt8 ↔ a = c := by
  constructor
  · intro h
    have hn := congrArg UInt8.toNat h
    simp only [Char.toUInt8, UInt32.toNat_toUInt8] at hn
    unfold IsAscii at ha hc
    exact Char.ext (UInt32.toNat_inj.1 (by omega))
  · rintro rfl
    rfl

/-- No byte of a longer encoding is an ASCII byte. -/
theorem wide_of_not_isAscii (h : ¬ IsAscii c) : ∀ b ∈ String.utf8EncodeChar c, 128 ≤ b.toNat := by
  unfold IsAscii at h
  intro b hb
  simp only [String.utf8EncodeChar] at hb
  repeat' split at hb
  · omega
  all_goals
    simp only [List.mem_cons, List.not_mem_nil, or_false] at hb
    rcases hb with rfl | rfl | rfl | rfl <;>
    · rw [UInt8.toNat_ofNat']
      omega

theorem IsAscii.toNat_toUInt8_lt (h : IsAscii c) : c.toUInt8.toNat < 128 := by
  unfold IsAscii at h
  simp only [Char.toUInt8, UInt32.toNat_toUInt8]
  omega

/-- A byte of a longer encoding is not the byte of a character. -/
theorem IsAscii.ne_of_wide (h : IsAscii c) {b : UInt8} (hb : 128 ≤ b.toNat) : b ≠ c.toUInt8 := by
  rintro rfl
  have := h.toNat_toUInt8_lt
  omega

/-- A text begins with a character of one byte if its bytes begin with that byte. -/
theorem head?_bytes_eq_iff (ha : IsAscii a) (s : Text) :
    (Text.bytes s).head? = some a.toUInt8 ↔ s.head? = some a := by
  cases s with
  | nil => simp
  | cons c s =>
    by_cases hc : IsAscii c
    · rw [Text.bytes_cons, hc.encode_eq]
      simp only [List.singleton_append, List.head?_cons, Option.some.injEq]
      exact hc.toUInt8_inj ha
    · have hwide := wide_of_not_isAscii hc
      rw [Text.bytes_cons, List.head?_cons, Option.some.injEq]
      cases hbytes : String.utf8EncodeChar c with
      | nil => exact absurd hbytes String.utf8EncodeChar_ne_nil
      | cons b bs =>
        rw [hbytes] at hwide
        simp only [List.cons_append, List.head?_cons, Option.some.injEq]
        constructor
        · exact fun h => absurd h (ha.ne_of_wide (hwide b List.mem_cons_self))
        · rintro rfl
          exact absurd ha hc

namespace Lua

/-! ## A position between two characters -/

/-- At a position among some bytes, those of a text begin, and they go up to the end. -/
def Ahead (bytes : List UInt8) (pos : Nat) (s : Text) : Prop :=
  ∃ before : Text, Text.bytes (before ++ s) = bytes ∧ Text.size before = pos

variable {bytes : List UInt8} {pos : Nat} {s w : Text}

namespace Ahead

theorem start (s : Text) : Ahead (Text.bytes s) 0 s := ⟨[], rfl, rfl⟩

theorem drop_eq (h : Ahead bytes pos s) : bytes.drop pos = Text.bytes s := by
  obtain ⟨before, rfl, rfl⟩ := h
  rw [Text.bytes_append, ← Text.length_bytes, List.drop_left]

theorem length_eq (h : Ahead bytes pos s) : pos + Text.size s = bytes.length := by
  obtain ⟨before, rfl, rfl⟩ := h
  rw [Text.length_bytes, Text.size_append]

theorem append (h : Ahead bytes pos (w ++ s)) : Ahead bytes (pos + Text.size w) s := by
  obtain ⟨before, hbytes, rfl⟩ := h
  exact ⟨before ++ w, by rw [List.append_assoc, hbytes], Text.size_append before w⟩

theorem cons (h : Ahead bytes pos (c :: s)) : Ahead bytes (pos + c.utf8Size) s :=
  append (w := [c]) h

theorem cons_of_isAscii (h : Ahead bytes pos (c :: s)) (hc : IsAscii c) : Ahead bytes (pos + 1) s :=
  hc.utf8Size_eq ▸ h.cons

theorem getElem?_eq (h : Ahead bytes pos s) : bytes[pos]? = (Text.bytes s).head? := by
  rw [← h.drop_eq, List.head?_drop]

theorem getElem?_nil (h : Ahead bytes pos []) : bytes[pos]? = none := h.getElem?_eq

theorem getElem?_of_isAscii (h : Ahead bytes pos (c :: s)) (hc : IsAscii c) :
    bytes[pos]? = some c.toUInt8 :=
  h.getElem?_eq.trans ((head?_bytes_eq_iff hc _).2 rfl)

/-- The character at a position is known by its byte. -/
theorem getElem?_eq_iff (h : Ahead bytes pos s) (ha : IsAscii a) :
    bytes[pos]? = some a.toUInt8 ↔ s.head? = some a := by
  rw [h.getElem?_eq, head?_bytes_eq_iff ha]

/-- A slice can begin at the position. -/
theorem bytesFrom_eq (h : Ahead bytes pos s) : bytesFrom bytes pos = .ok (Text.bytes s) := by
  rw [bytesFrom, if_pos (h.length_eq ▸ Nat.le_add_right _ _), h.drop_eq]

/-- A scan that steps over single bytes, where they are not ASCII. -/
def StepsOverWide {α : Type} (bytes : List UInt8) (f : Nat → α) : Prop :=
  ∀ {pos b}, bytes[pos]? = some b → 128 ≤ b.toNat → f pos = f (pos + 1)

/-- Such a scan steps over any number of these bytes. -/
theorem skip_bytes {α : Type} {f : Nat → α} (hf : StepsOverWide bytes f) {bs bs' : List UInt8}
    (hbs : ∀ b ∈ bs, 128 ≤ b.toNat) (h : bytes.drop pos = bs ++ bs') :
    f pos = f (pos + bs.length) := by
  induction bs generalizing pos with
  | nil => rfl
  | cons b bs ih =>
    have hget : bytes[pos]? = some b := by rw [← List.head?_drop, h]; rfl
    have hdrop : bytes.drop (pos + 1) = bs ++ bs' := by
      rw [← List.tail_drop, h]
      rfl
    rw [hf hget (hbs b List.mem_cons_self), ih (fun b' hb' => hbs b' (List.mem_cons_of_mem _ hb'))
      hdrop, List.length_cons, Nat.add_assoc, Nat.add_comm 1]

/-- **A scan steps over a character that is not ASCII.** -/
theorem skip_wide {α : Type} {f : Nat → α} (h : Ahead bytes pos (c :: s))
    (hf : StepsOverWide bytes f) (hc : ¬ IsAscii c) : f pos = f (pos + c.utf8Size) := by
  have hdrop := h.drop_eq
  rw [Text.bytes_cons] at hdrop
  rw [skip_bytes hf (wide_of_not_isAscii hc) hdrop, String.length_utf8EncodeChar]

/-- A scan that has gone inside of a character goes on behind it. -/
theorem skip_rest {α : Type} {f : Nat → α} (h : Ahead bytes pos (c :: s))
    (hf : StepsOverWide bytes f) : f (pos + 1) = f (pos + c.utf8Size) := by
  by_cases hc : IsAscii c
  · rw [hc.utf8Size_eq]
  · have hdrop := h.drop_eq
    rw [Text.bytes_cons] at hdrop
    have hlength := String.length_utf8EncodeChar c
    have hwide := wide_of_not_isAscii hc
    cases hencode : String.utf8EncodeChar c with
    | nil => exact absurd hencode String.utf8EncodeChar_ne_nil
    | cons b bs =>
      rw [hencode] at hdrop hlength hwide
      have hinside : bytes.drop (pos + 1) = bs ++ Text.bytes s := by
        rw [← List.tail_drop, hdrop]
        rfl
      rw [skip_bytes hf (fun b' hb' => hwide b' (List.mem_cons_of_mem _ hb')) hinside, ← hlength,
        List.length_cons, Nat.add_assoc, Nat.add_comm 1]

end Ahead

/-- A scan ends, at a position from which a text is still to be read. -/
def EndsAhead (bytes : List UInt8) (s : Text) (result : Except ScanHalt Nat) : Prop :=
  ∃ pos, result = .ok pos ∧ Ahead bytes pos s

theorem EndsAhead.of_ok {pos : Nat} (h : Ahead bytes pos s) : EndsAhead bytes s (.ok pos) :=
  ⟨pos, rfl, h⟩

/-! ## Equal signs -/

variable {level : Nat}

/-- A text that begins with a run of equal signs. -/
theorem eq_replicate_append (h : (s.takeWhile (· == '=')).length = level) :
    s = List.replicate level '=' ++ s.dropWhile (· == '=') := by
  have hall : s.takeWhile (· == '=') = List.replicate level '=' := by
    refine List.eq_replicate_iff.2 ⟨h, fun c hc => ?_⟩
    exact beq_iff_eq.1 (List.all_eq_true.1 List.all_takeWhile c hc)
  rw [← hall, List.takeWhile_append_dropWhile]

theorem drop_eq_dropWhile (h : (s.takeWhile (· == '=')).length = level) :
    s.drop level = s.dropWhile (· == '=') := by
  conv => lhs; rw [eq_replicate_append h]
  exact List.drop_left' List.length_replicate

/-- A run of equal signs is as many bytes. -/
theorem Ahead.dropEquals (h : Ahead bytes pos s) (hs : (s.takeWhile (· == '=')).length = level) :
    Ahead bytes (pos + level) (s.drop level) := by
  have hsize : Text.size (List.replicate level '=') = level := by
    rw [Text.size_replicate, IsAscii.utf8Size_eq (by decide), Nat.mul_one]
  rw [eq_replicate_append hs] at h
  rw [drop_eq_dropWhile hs]
  exact hsize ▸ h.append

theorem takeWhile_bytes (s : Text) : ((Text.bytes s).takeWhile (· == '='.toUInt8)).length
    = (s.takeWhile (· == '=')).length := by
  induction s with
  | nil => rfl
  | cons c s ih =>
    by_cases hc : c = '='
    · subst hc
      rw [Text.bytes_cons, IsAscii.encode_eq (by decide), List.singleton_append,
        List.takeWhile_cons_of_pos (by rfl), List.takeWhile_cons_of_pos (by rfl), List.length_cons,
        List.length_cons, ih]
    · rw [List.takeWhile_cons_of_neg (by simpa using hc)]
      have hhead := head?_bytes_eq_iff (a := '=') (by decide) (c :: s)
      cases hbytes : Text.bytes (c :: s) with
      | nil => rfl
      | cons b bs =>
        have hb : ¬ (b == '='.toUInt8) = true := by
          rw [beq_iff_eq]
          rintro rfl
          rw [hbytes] at hhead
          exact hc (by simpa using hhead.1 rfl)
        rw [List.takeWhile_cons, if_neg hb]
        rfl

theorem countEquals_eq (h : Ahead bytes pos s) :
    countEquals bytes pos = .ok (s.takeWhile (· == '=')).length := by
  rw [countEquals, h.bytesFrom_eq, ← takeWhile_bytes]
  rfl

/-! ## Short strings -/

variable {quote : Char}

theorem skipShortString_nil {q : UInt8} (h : bytes[pos]? = none) :
    skipShortString bytes q pos = bytes.length := by
  rw [skipShortString]
  split
  · rfl
  · next heq => rw [h] at heq; cases heq

theorem skipShortString_cons {q b : UInt8} (h : bytes[pos]? = some b) :
    skipShortString bytes q pos
      = if b = '\\'.toUInt8 then skipShortString bytes q (pos + 2)
        else if b = '\n'.toUInt8 then pos
        else if b = q then pos + 1
        else skipShortString bytes q (pos + 1) := by
  rw [skipShortString]
  split
  · next heq => rw [h] at heq; cases heq
  · next heq => rw [h] at heq; cases heq; rfl

theorem stepsOverWide_shortString (hq : IsAscii quote) :
    Ahead.StepsOverWide bytes (skipShortString bytes quote.toUInt8) := by
  intro pos b hb hwide
  rw [skipShortString_cons hb, if_neg (IsAscii.ne_of_wide (by decide) hwide),
    if_neg (IsAscii.ne_of_wide (by decide) hwide), if_neg (hq.ne_of_wide hwide)]

/-- **A short string ends at the same place.** -/
theorem skipShortString_ahead (hq : IsAscii quote) (s : Text) : ∀ {pos}, Ahead bytes pos s →
    Ahead bytes (skipShortString bytes quote.toUInt8 pos) (shortString quote s).2 := by
  fun_induction shortString quote s with
  | case1 =>
    intro pos h
    rw [skipShortString_nil h.getElem?_nil, ← h.length_eq]
    exact h
  | case2 =>
    intro pos h
    -- the jump over the byte after the backslash goes past the end
    have hnext := h.cons_of_isAscii (by decide)
    have hlength := hnext.length_eq
    rw [Text.size_nil] at hlength
    rw [skipShortString_cons (h.getElem?_of_isAscii (by decide)), if_pos rfl,
      skipShortString_nil (List.getElem?_eq_none (by omega)), ← hnext.length_eq]
    exact hnext
  | case3 c rest more =>
    rename_i ih
    intro pos h
    have hnext := h.cons_of_isAscii (by decide)
    rw [skipShortString_cons (h.getElem?_of_isAscii (by decide)), if_pos rfl]
    -- the jump over the byte after the backslash ends inside the character, or behind it
    rw [show pos + 2 = pos + 1 + 1 from rfl, hnext.skip_rest (stepsOverWide_shortString hq)]
    exact ih hnext.cons
  | case4 rest hend hescape =>
    intro pos h
    rw [skipShortString_cons (h.getElem?_of_isAscii (by decide)), if_neg (by decide), if_pos rfl]
    exact h
  | case5 rest hend hescape hfeed =>
    intro pos h
    have hquote : quote.toUInt8 ≠ '\\'.toUInt8 :=
      fun heq => ne_backslash hend hescape ((hq.toUInt8_inj (by decide)).1 heq)
    have hfeed' : quote.toUInt8 ≠ '\n'.toUInt8 :=
      fun heq => hfeed ((hq.toUInt8_inj (by decide)).1 heq)
    rw [skipShortString_cons (h.getElem?_of_isAscii hq), if_neg hquote, if_neg hfeed', if_pos rfl]
    exact h.cons_of_isAscii hq
  | case6 c rest hend hescape hfeed hquote more =>
    rename_i ih
    intro pos h
    by_cases hc : IsAscii c
    · have hescape' : c.toUInt8 ≠ '\\'.toUInt8 :=
        fun heq => ne_backslash hend hescape ((hc.toUInt8_inj (by decide)).1 heq)
      have hfeed' : c.toUInt8 ≠ '\n'.toUInt8 :=
        fun heq => hfeed ((hc.toUInt8_inj (by decide)).1 heq)
      have hquote' : c.toUInt8 ≠ quote.toUInt8 := fun heq => hquote ((hc.toUInt8_inj hq).1 heq)
      rw [skipShortString_cons (h.getElem?_of_isAscii hc), if_neg hescape', if_neg hfeed',
        if_neg hquote']
      exact ih (h.cons_of_isAscii hc)
    · rw [h.skip_wide (stepsOverWide_shortString hq) hc]
      exact ih h.cons

/-! ## Long brackets -/

theorem levelAt_eq (h : Ahead bytes pos s) : levelAt bytes pos = .ok (longBracketLevel s) := by
  have hhead := h.getElem?_eq_iff (a := '[') (by decide)
  by_cases hopen : bytes[pos]? = some '['.toUInt8
  · obtain ⟨rest, rfl⟩ := List.head?_eq_some_iff.1 (hhead.1 hopen)
    have hrest := h.cons_of_isAscii (by decide)
    have hsecond := (hrest.dropEquals rfl).getElem?_eq_iff (a := '[') (by decide)
    rw [drop_eq_dropWhile rfl] at hsecond
    rw [levelAt, if_pos hopen, countEquals_eq hrest, longBracketLevel]
    simp only [bind, Except.bind, pure, Except.pure, hsecond]
    cases hdrop : rest.dropWhile (· == '=') with
    | nil => rfl
    | cons c after =>
      by_cases hc : c = '['
      · subst hc
        rfl
      · rw [if_neg (by simpa using hc)]
        split
        · next heq => exact absurd (List.cons.inj heq).1 hc
        · rfl
  · rw [levelAt, if_neg hopen]
    rw [hhead] at hopen
    cases s with
    | nil => rfl
    | cons c s =>
      rw [longBracketLevel]
      rintro rest heq
      exact hopen (by rw [heq]; rfl)

/-- The opening half of a long bracket is as many bytes. -/
theorem Ahead.dropOpening (h : Ahead bytes pos s) (hlevel : longBracketLevel s = some level) :
    Ahead bytes (pos + level + 2) (s.drop (level + 2)) := by
  unfold longBracketLevel at hlevel
  split at hlevel
  · next rest =>
    split at hlevel
    · next after hafter =>
      have hequals := Option.some.inj hlevel
      have hrest := (h.cons_of_isAscii (by decide)).dropEquals hequals
      have hdrop : rest.drop (level + 1) = after := by
        rw [← List.tail_drop, drop_eq_dropWhile hequals, hafter]
        rfl
      rw [drop_eq_dropWhile hequals, hafter] at hrest
      have hnext := hrest.cons_of_isAscii (by decide)
      rw [List.drop_succ_cons, hdrop, show pos + level + 2 = pos + 1 + level + 1 by omega]
      exact hnext
    · cases hlevel
  · cases hlevel

theorem closeLongBracket_nil (h : bytes[pos]? = none) :
    closeLongBracket bytes level pos = .ok bytes.length := by
  rw [closeLongBracket]
  split
  · rfl
  · next heq => rw [h] at heq; cases heq

theorem closeLongBracket_cons {b : UInt8} (h : bytes[pos]? = some b) (hb : b ≠ ']'.toUInt8) :
    closeLongBracket bytes level pos = closeLongBracket bytes level (pos + 1) := by
  rw [closeLongBracket]
  split
  · next heq => rw [h] at heq; cases heq
  · next heq => rw [h] at heq; cases heq; rw [if_neg hb]

theorem closeLongBracket_closing {n : Nat} (h : bytes[pos]? = some ']'.toUInt8)
    (hn : countEquals bytes (pos + 1) = .ok n) : closeLongBracket bytes level pos
      = if n = level ∧ bytes[pos + 1 + level]? = some ']'.toUInt8 then .ok (pos + level + 2)
        else closeLongBracket bytes level (pos + 1) := by
  rw [closeLongBracket]
  split
  · next heq => rw [h] at heq; cases heq
  · next heq =>
    rw [h] at heq
    cases heq
    rw [if_pos rfl]
    simp only [hn]

theorem stepsOverWide_longBracket : Ahead.StepsOverWide bytes (closeLongBracket bytes level) :=
  fun hb hwide => closeLongBracket_cons hb (IsAscii.ne_of_wide (by decide) hwide)

/-- The closing half of a long bracket is found by bytes. -/
theorem closesLongBracket_iff (h : Ahead bytes pos s) :
    closesLongBracket level s = true ↔
      (s.takeWhile (· == '=')).length = level ∧ bytes[pos + level]? = some ']'.toUInt8 := by
  rw [closesLongBracket, Bool.and_eq_true, beq_iff_eq, beq_iff_eq]
  refine and_congr_right fun hlevel => ?_
  rw [(h.dropEquals hlevel).getElem?_eq_iff (by decide)]

/-- **A long bracket ends at the same place.** -/
theorem closeLongBracket_ahead (level : Nat) (s : Text) : ∀ {pos}, Ahead bytes pos s →
    EndsAhead bytes (longBracket level s).2 (closeLongBracket bytes level pos) := by
  fun_induction longBracket level s with
  | case1 =>
    intro pos h
    rw [closeLongBracket_nil h.getElem?_nil, ← h.length_eq]
    exact .of_ok h
  | case2 c rest hclose =>
    intro pos h
    obtain ⟨rfl, hclose⟩ := hclose
    have hrest := h.cons_of_isAscii (by decide)
    have hclosing := (closesLongBracket_iff hrest).1 hclose
    rw [closeLongBracket_closing (h.getElem?_of_isAscii (by decide)) (countEquals_eq hrest),
      if_pos hclosing]
    have hlast := hrest.dropEquals hclosing.1
    obtain ⟨after, hafter⟩ :=
      List.head?_eq_some_iff.1 ((hlast.getElem?_eq_iff (by decide)).1 hclosing.2)
    rw [hafter] at hlast
    have hdrop : rest.drop (level + 1) = after := by
      rw [← List.tail_drop, hafter]
      rfl
    rw [hdrop, show pos + level + 2 = pos + 1 + level + 1 by omega]
    exact .of_ok (hlast.cons_of_isAscii (by decide))
  | case3 c rest hclose more =>
    rename_i ih
    intro pos h
    by_cases hc : IsAscii c
    · have hrest := h.cons_of_isAscii hc
      by_cases hbracket : c = ']'
      · subst hbracket
        have hopen : ¬ ((rest.takeWhile (· == '=')).length = level
            ∧ bytes[pos + 1 + level]? = some ']'.toUInt8) :=
          fun hclosing => hclose ⟨rfl, (closesLongBracket_iff hrest).2 hclosing⟩
        rw [closeLongBracket_closing (h.getElem?_of_isAscii hc) (countEquals_eq hrest), if_neg hopen]
        exact ih hrest
      · have hne : c.toUInt8 ≠ ']'.toUInt8 :=
          fun heq => hbracket ((hc.toUInt8_inj (by decide)).1 heq)
        rw [closeLongBracket_cons (h.getElem?_of_isAscii hc) hne]
        exact ih hrest
    · rw [h.skip_wide stepsOverWide_longBracket hc]
      exact ih h.cons

theorem skipLongBracket_ahead (h : Ahead bytes pos s) (hlevel : longBracketLevel s = some level) :
    EndsAhead bytes (bracketed level s).2 (skipLongBracket bytes level pos) :=
  closeLongBracket_ahead level _ (h.dropOpening hlevel)

/-! ## Comments -/

/-- The first line feed of a text is found by bytes. -/
theorem findIdx?_bytes (s : Text) : (Text.bytes s).findIdx? (· == '\n'.toUInt8)
    = if '\n' ∈ s then some (Text.size (s.takeWhile (· != '\n'))) else none := by
  induction s with
  | nil => rfl
  | cons c s ih =>
    by_cases hc : c = '\n'
    · subst hc
      rw [Text.bytes_cons, IsAscii.encode_eq (by decide)]
      rfl
    · have hnone : (String.utf8EncodeChar c).findIdx? (· == '\n'.toUInt8) = none := by
        rw [List.findIdx?_eq_none_iff]
        intro b hb
        rw [beq_eq_false_iff_ne]
        by_cases hascii : IsAscii c
        · rw [hascii.encode_eq, List.mem_singleton] at hb
          rw [hb]
          exact fun heq => hc ((hascii.toUInt8_inj (by decide)).1 heq)
        · exact IsAscii.ne_of_wide (by decide) (wide_of_not_isAscii hascii b hb)
      rw [Text.bytes_cons, List.findIdx?_append, hnone, ih, String.length_utf8EncodeChar,
        List.takeWhile_cons_of_pos (by simpa using hc), Text.size_cons]
      by_cases hmem : '\n' ∈ s
      · rw [if_pos hmem, if_pos (List.mem_cons_of_mem _ hmem), Option.none_or, Option.map_some,
          Nat.add_comm]
      · rw [if_neg hmem, if_neg (by simp [hmem, Ne.symm hc])]
        rfl

theorem lineEnd_ahead (h : Ahead bytes pos s) :
    EndsAhead bytes (s.dropWhile (· != '\n')) (lineEnd bytes pos) := by
  have hsplit := List.takeWhile_append_dropWhile (p := (· != '\n')) (l := s)
  rw [lineEnd, h.bytesFrom_eq]
  simp only [bind, Except.bind, pure, Except.pure]
  rw [findIdx?_bytes]
  by_cases hmem : '\n' ∈ s
  · rw [if_pos hmem]
    rw [← hsplit] at h
    exact .of_ok h.append
  · have hall : ∀ c ∈ s, (c != '\n') = true := fun c hc => by
      rw [bne_iff_ne]
      rintro rfl
      exact hmem hc
    have hnil : s.dropWhile (· != '\n') = [] := List.dropWhile_eq_nil_iff.2 hall
    rw [if_neg hmem, hnil, ← h.length_eq]
    exact .of_ok (Ahead.append (by rwa [List.append_nil]))

/-! ## Pieces -/

/-- A piece that begins with a byte of a longer encoding is that byte. -/
theorem pieceEnd_of_wide {b : UInt8} (hb : 128 ≤ b.toNat) :
    pieceEnd bytes pos b = .ok (pos + 1) := by
  have hne : ∀ {c : Char}, IsAscii c → b ≠ c.toUInt8 := fun hc => hc.ne_of_wide hb
  rw [pieceEnd, if_neg (not_or.2 ⟨hne (by decide), hne (by decide)⟩), if_neg (hne (by decide)),
    if_neg (fun h => hne (by decide) h.1)]

/-- **A piece that begins with a character of one byte ends at the same place.** -/
theorem pieceEnd_ahead (hc : IsAscii c) (h : Ahead bytes pos (c :: s)) :
    EndsAhead bytes (piece (c :: s)).2 (pieceEnd bytes pos c.toUInt8) := by
  have hrest := h.cons_of_isAscii hc
  have heq : ∀ {a : Char}, IsAscii a → (c.toUInt8 = a.toUInt8 ↔ c = a) := hc.toUInt8_inj
  have hdash : (c.toUInt8 = '-'.toUInt8 ∧ bytes[pos + 1]? = some '-'.toUInt8)
      ↔ (c = '-' ∧ s.head? = some '-') := by
    rw [heq (by decide), hrest.getElem?_eq_iff (by decide)]
  by_cases hcomment : c = '-' ∧ s.head? = some '-'
  · obtain ⟨rfl, hsecond⟩ := hcomment
    obtain ⟨after, rfl⟩ := List.head?_eq_some_iff.1 hsecond
    have hafter := hrest.cons_of_isAscii (by decide)
    rw [pieceEnd, if_neg (by decide), if_neg (by decide), if_pos (hdash.2 ⟨rfl, rfl⟩),
      levelAt_eq hafter, piece, comment]
    cases hlevel : longBracketLevel after with
    | some level => exact skipLongBracket_ahead hafter hlevel
    | none => exact lineEnd_ahead hafter
  rw [piece_cons hcomment]
  by_cases hquote : c = '"' ∨ c = '\''
  · have hquote' : c.toUInt8 = '"'.toUInt8 ∨ c.toUInt8 = '\''.toUInt8 :=
      hquote.imp (heq (by decide)).2 (heq (by decide)).2
    rw [if_pos hquote, pieceEnd, if_pos hquote']
    exact .of_ok (skipShortString_ahead hc s hrest)
  · have hquote' : ¬ (c.toUInt8 = '"'.toUInt8 ∨ c.toUInt8 = '\''.toUInt8) :=
      fun hq => hquote (hq.imp (heq (by decide)).1 (heq (by decide)).1)
    rw [if_neg hquote, pieceEnd, if_neg hquote']
    by_cases hbracket : c = '['
    · subst hbracket
      rw [if_pos rfl, levelAt_eq h]
      cases hlevel : longBracketLevel ('[' :: s) with
      | some level => exact skipLongBracket_ahead h hlevel
      | none => exact .of_ok hrest
    · have hlevel : longBracketLevel (c :: s) = none := by
        rw [longBracketLevel]
        exact fun _ heq => hbracket (List.cons.inj heq).1
      rw [if_neg (fun hb => hbracket ((heq (by decide)).1 hb)),
        if_neg (fun hd => hcomment (hdash.1 hd)), hlevel]
      exact .of_ok hrest

/-- A piece that begins with a character of one byte is as long in bytes. -/
theorem pieceEnd_eq (hc : IsAscii c) (h : Ahead bytes pos (c :: s)) :
    pieceEnd bytes pos c.toUInt8 = .ok (pos + Text.size (piece (c :: s)).1) ∧
      Ahead bytes (pos + Text.size (piece (c :: s)).1) (piece (c :: s)).2 := by
  obtain ⟨next, hnext, hahead⟩ := pieceEnd_ahead hc h
  have happend := congrArg Text.size (piece_append (c :: s))
  rw [Text.size_append] at happend
  have hpos : next = pos + Text.size (piece (c :: s)).1 := by
    have h1 := h.length_eq
    have h2 := hahead.length_eq
    omega
  exact ⟨hpos ▸ hnext, hpos ▸ hahead⟩

/-- A character that is not ASCII is a piece of its own. -/
theorem piece_of_not_isAscii (hc : ¬ IsAscii c) (s : Text) : piece (c :: s) = ([c], s) := by
  have hne : ∀ {a : Char}, IsAscii a → c ≠ a := fun ha heq => hc (heq ▸ ha)
  have hlevel : longBracketLevel (c :: s) = none := by
    rw [longBracketLevel]
    exact fun _ heq => hne (by decide) (List.cons.inj heq).1
  rw [piece_cons (fun hd => hne (by decide) hd.1),
    if_neg (not_or.2 ⟨hne (by decide), hne (by decide)⟩), hlevel]

theorem size_piece_pos (c : Char) (s : Text) : 0 < Text.size (piece (c :: s)).1 := by
  obtain ⟨a, ha⟩ := exists_piece_eq c s
  have := c.utf8Size_pos
  rw [ha, Text.size_cons]
  omega

/-! ## Whole scripts -/

theorem bodyEnd_nil {depth : Nat} (h : bytes[pos]? = none) : bodyEnd bytes depth pos = .ok none := by
  rw [bodyEnd.eq_def]
  split
  · rfl
  · next heq => rw [h] at heq; cases heq

theorem bodyEnd_cons {depth : Nat} {b : UInt8} (h : bytes[pos]? = some b) :
    bodyEnd bytes depth pos
      = if b = '{'.toUInt8 then
          match ScanHalt.add depth 1 with
          | .error halt => .error halt
          | .ok depth => bodyEnd bytes depth (pos + 1)
        else if b = '}'.toUInt8 then
          match depth with
          | 0 => .ok (some pos)
          | depth + 1 => bodyEnd bytes depth (pos + 1)
        else
          match pieceEnd bytes pos b with
          | .error halt => .error halt
          | .ok next => if pos < next then bodyEnd bytes depth next else .error .endless := by
  rw [bodyEnd.eq_def]
  split
  · next heq => rw [h] at heq; cases heq
  · next heq => rw [h] at heq; cases heq; rfl

theorem stepsOverWide_body {depth : Nat} : Ahead.StepsOverWide bytes (bodyEnd bytes depth) := by
  intro pos b hb hwide
  rw [bodyEnd_cons hb, if_neg (IsAscii.ne_of_wide (by decide) hwide),
    if_neg (IsAscii.ne_of_wide (by decide) hwide), pieceEnd_of_wide hwide]
  exact if_pos (Nat.lt_succ_self pos)

/-- Before the end, the sum of braces that are open and of bytes that are left fits. -/
theorem ScanHalt.add_one {n m : Nat} (h : n + (m + 1) < Overflow.offsetBound) :
    ScanHalt.add n 1 = .ok (n + 1) := if_pos (by omega)

/-- **A script ends at the same place, and no scan of one halts.** -/
theorem bodyEnd_ahead (depth : Nat) (s : Text) : ∀ {pos}, Ahead bytes pos s →
    depth + Text.size s < Overflow.offsetBound →
    bodyEnd bytes depth pos
      = .ok ((body depth s).map fun (code, _) => pos + Text.size code) := by
  fun_induction body depth s with
  | case1 =>
    intro pos h _
    exact bodyEnd_nil h.getElem?_nil
  | case2 depth rest ih =>
    intro pos h hsize
    rw [Text.size_cons, IsAscii.utf8Size_eq (by decide), Nat.add_comm 1] at hsize
    have hmore := ih (h.cons_of_isAscii (by decide)) (by omega)
    rw [bodyEnd_cons (h.getElem?_of_isAscii (by decide)), if_pos rfl, ScanHalt.add_one hsize]
    simp only [hmore, Option.map_map]
    congr 2
    funext cut
    obtain ⟨code, after⟩ := cut
    simp only [Function.comp, Text.size_cons, IsAscii.utf8Size_eq (c := '{') (by decide)]
    omega
  | case3 =>
    intro pos h _
    rw [bodyEnd_cons (h.getElem?_of_isAscii (by decide)), if_neg (by decide), if_pos rfl]
    rfl
  | case4 rest _ depth ih =>
    intro pos h hsize
    rw [Text.size_cons, IsAscii.utf8Size_eq (by decide)] at hsize
    have hmore := ih (h.cons_of_isAscii (by decide)) (by omega)
    rw [bodyEnd_cons (h.getElem?_of_isAscii (by decide)), if_neg (by decide), if_pos rfl]
    simp only [hmore, Option.map_map]
    congr 2
    funext cut
    obtain ⟨code, after⟩ := cut
    simp only [Function.comp, Text.size_cons, IsAscii.utf8Size_eq (c := '}') (by decide)]
    omega
  | case5 depth c rest hopen hclose ih =>
    intro pos h hsize
    have happend := congrArg Text.size (piece_append (c :: rest))
    rw [Text.size_append] at happend
    have hstep : ∀ result : Option (Text × Text),
        (result.map fun (code, _) => pos + Text.size (piece (c :: rest)).1 + Text.size code)
          = (result.map fun (code, after) => ((piece (c :: rest)).1 ++ code, after)).map
            fun (code, _) => pos + Text.size code := by
      intro result
      cases result with
      | none => rfl
      | some cut => simp only [Option.map_some, Text.size_append, Nat.add_assoc]
    by_cases hc : IsAscii c
    · obtain ⟨hend, hahead⟩ := pieceEnd_eq hc h
      have hmoves := size_piece_pos c rest
      have hopen' : c.toUInt8 ≠ '{'.toUInt8 := fun heq => hopen ((hc.toUInt8_inj (by decide)).1 heq)
      have hclose' : c.toUInt8 ≠ '}'.toUInt8 :=
        fun heq => hclose ((hc.toUInt8_inj (by decide)).1 heq)
      rw [bodyEnd_cons (h.getElem?_of_isAscii hc), if_neg hopen', if_neg hclose', hend]
      simp only [if_pos (Nat.lt_add_of_pos_right hmoves)]
      rw [ih hahead (by omega), hstep]
    · have hpiece := piece_of_not_isAscii hc rest
      have hmore := @ih (pos + c.utf8Size) (by rw [hpiece]; exact h.cons) (by omega)
      rw [h.skip_wide stepsOverWide_body hc, hmore, ← hstep, hpiece]
      rfl

/-- **The length of a body in bytes is found by bytes**, in every text that a file can hold. -/
theorem bodyEnd_eq {s : Text} (hs : Text.size s < Overflow.offsetBound) :
    bodyEnd (Text.bytes s) 0 0 = .ok ((body 0 s).map fun (code, _) => Text.size code) := by
  have h := bodyEnd_ahead 0 s (Ahead.start s) (by omega)
  simpa only [Nat.zero_add] using h

end Lua

end NginxConf
