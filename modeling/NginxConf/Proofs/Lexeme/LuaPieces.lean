import NginxConf.Proofs.Lexeme.Adjoin
import NginxConf.Proofs.Lexeme.LuaBytes
import NginxConf.Proofs.Lexeme.LuaLanguage

/-!
# Pieces of scripts are pieces of bodies

What the lexer takes as a piece of a script is, in bytes, a piece of a body, if anything follows it
(`piece_bytes`); and a piece of a body that begins where a character of one byte stands is what the
lexer takes there (`Piece.eq_bytes`).

Everything that ends a piece is ASCII, and no byte of a longer encoding is (`exists_cut`). So the
ends of pieces lie between characters, even though a backslash takes just one byte with it.
-/

namespace NginxConf

variable {a c : Char} {s t u w : Text} {x y : List UInt8}

/-! ## Where bytes cut texts -/

theorem Text.bytes_eq_nil : Text.bytes s = [] ↔ s = [] := by
  cases s with
  | nil => simp
  | cons c s => simp [String.utf8EncodeChar_ne_nil]

theorem Text.bytes_cons_of_isAscii (ha : IsAscii a) (s : Text) :
    Text.bytes (a :: s) = a.toUInt8 :: Text.bytes s := by
  rw [Text.bytes_cons, ha.encode_eq]
  rfl

/-- **The byte of a character is no byte of another one.** -/
theorem exists_cut (ha : IsAscii a) (h : Text.bytes s = x ++ a.toUInt8 :: y) :
    ∃ t u, s = t ++ a :: u ∧ Text.bytes t = x ∧ Text.bytes u = y := by
  induction s generalizing x with
  | nil => simp at h
  | cons c s ih =>
    rw [Text.bytes_cons] at h
    rcases List.append_eq_append_iff.1 h with ⟨z, rfl, hz⟩ | ⟨z, hc, hz⟩
    · obtain ⟨t, u, rfl, rfl, hu⟩ := ih hz
      exact ⟨c :: t, u, rfl, Text.bytes_cons c t, hu⟩
    · cases z with
      | nil =>
        obtain ⟨t, u, rfl, ht, hu⟩ := ih (x := []) hz.symm
        obtain rfl := Text.bytes_eq_nil.1 ht
        exact ⟨[c], u, rfl, by simpa using hc, hu⟩
      | cons b z =>
        obtain ⟨rfl, rfl⟩ := List.cons.inj hz
        by_cases hascii : IsAscii c
        · rw [hascii.encode_eq] at hc
          cases x with
          | nil =>
            obtain ⟨hbyte, rfl⟩ := List.cons.inj hc
            obtain rfl := (hascii.toUInt8_inj ha).1 hbyte
            exact ⟨[], s, rfl, rfl, rfl⟩
          | cons d x => simp at hc
        · have hwide := wide_of_not_isAscii hascii a.toUInt8 (by rw [hc]; simp)
          have := ha.toNat_toUInt8_lt
          omega

/-- Bytes that begin with those of characters of one byte are those of a text that begins with
these characters. -/
theorem exists_append_of_bytes (hw : ∀ c ∈ w, IsAscii c) (h : Text.bytes s = Text.bytes w ++ y) :
    ∃ u, s = w ++ u ∧ Text.bytes u = y := by
  induction w generalizing s with
  | nil => exact ⟨s, rfl, h⟩
  | cons a w ih =>
    rw [List.forall_mem_cons] at hw
    rw [Text.bytes_cons_of_isAscii hw.1] at h
    obtain ⟨t, u, rfl, ht, hu⟩ := exists_cut (x := []) hw.1 h
    obtain rfl := Text.bytes_eq_nil.1 ht
    obtain ⟨v, rfl, hv⟩ := ih hw.2 hu
    exact ⟨v, rfl, hv⟩

theorem exists_cut_append (hw : ∀ c ∈ w, IsAscii c) (hne : w ≠ [])
    (h : Text.bytes s = x ++ (Text.bytes w ++ y)) :
    ∃ t u, s = t ++ (w ++ u) ∧ Text.bytes t = x ∧ Text.bytes u = y := by
  cases w with
  | nil => exact absurd rfl hne
  | cons a w =>
    rw [List.forall_mem_cons] at hw
    rw [Text.bytes_cons_of_isAscii hw.1] at h
    obtain ⟨t, u, rfl, ht, hu⟩ := exists_cut hw.1 h
    obtain ⟨v, rfl, hv⟩ := exists_append_of_bytes hw.2 hu
    exact ⟨t, v, rfl, ht, hv⟩

namespace Lua

theorem endsLine_bytes_iff : EndsLine (Text.bytes s) ↔ ∀ c ∈ s.head?, c = '\n' := by
  have hhead := head?_bytes_eq_iff (a := '\n') (by decide) s
  constructor
  · intro h c hc
    obtain ⟨t, rfl⟩ := List.head?_eq_some_iff.1 hc
    cases hb : (Text.bytes (c :: t)).head? with
    | none => simp [String.utf8EncodeChar_ne_nil] at hb
    | some b =>
      rw [h b hb] at hb
      exact (Option.some.inj (hhead.1 hb)).symm ▸ rfl
  · intro h b hb
    cases s with
    | nil => cases hb
    | cons c t =>
      rw [hhead.2 (by rw [h c rfl]; rfl)] at hb
      exact (Option.some.inj hb).symm

/-- Where a line ends, a text can be cut. -/
theorem exists_cut_of_endsLine (h : Text.bytes s = x ++ y) (hy : EndsLine y) :
    ∃ t u, s = t ++ u ∧ Text.bytes t = x ∧ Text.bytes u = y := by
  cases y with
  | nil => exact ⟨s, [], by simp, by simpa using h, rfl⟩
  | cons b y =>
    obtain rfl := hy b rfl
    obtain ⟨t, u, rfl, ht, rfl⟩ := exists_cut (a := '\n') (by decide) h
    exact ⟨t, '\n' :: u, rfl, ht, Text.bytes_cons_of_isAscii (by decide) u⟩

/-! ## Short strings -/

section ShortString

variable {quote : Char}

/-- The characters that quote short strings. -/
theorem isAscii_quote (hquote : quote = '"' ∨ quote = '\'') : IsAscii quote := by
  rcases hquote with rfl | rfl <;> decide

/-- An escape pair takes the first byte of a character; those left mean nothing. -/
theorem shortText_escape_iff (hquote : quote = '"' ∨ quote = '\'') :
    ShortText quote.toUInt8 (Text.bytes ('\\' :: c :: s))
      ↔ ShortText quote.toUInt8 (Text.bytes s) := by
  have hlt := (isAscii_quote hquote).toNat_toUInt8_lt
  rw [Text.bytes_cons_of_isAscii (by decide), Text.bytes_cons]
  -- the bytes behind the first one are those of a longer encoding
  obtain ⟨b, bs, hc, hbs⟩ :
      ∃ b bs, String.utf8EncodeChar c = b :: bs ∧ ∀ b ∈ bs, 128 ≤ b.toNat := by
    by_cases hc : IsAscii c
    · exact ⟨_, [], hc.encode_eq, by simp⟩
    · cases hbytes : String.utf8EncodeChar c with
      | nil => exact absurd hbytes String.utf8EncodeChar_ne_nil
      | cons b bs =>
        exact ⟨b, bs, rfl, fun d hd => wide_of_not_isAscii hc d (by rw [hbytes]; exact .tail b hd)⟩
  rw [hc]
  refine Iff.trans ?_ (ShortText.wide_append_iff hlt hbs)
  constructor
  · intro h
    generalize hall : '\\'.toUInt8 :: (b :: bs ++ Text.bytes s) = all at h
    cases h with
    | nil => cases hall
    | escape b h =>
      cases hall
      exact h
    | byte _ hescape => exact absurd (List.cons.inj hall).1.symm hescape
  · exact .escape b

theorem shortText_cons_iff (hquote : quote = '"' ∨ quote = '\'') (hescape : c ≠ '\\') :
    ShortText quote.toUInt8 (Text.bytes (c :: s))
      ↔ c ≠ quote ∧ c ≠ '\n' ∧ ShortText quote.toUInt8 (Text.bytes s) := by
  have hq := isAscii_quote hquote
  by_cases hc : IsAscii c
  · have hne : ∀ {a : Char}, IsAscii a → (c.toUInt8 ≠ a.toUInt8 ↔ c ≠ a) :=
      fun ha => not_congr (hc.toUInt8_inj ha)
    rw [Text.bytes_cons_of_isAscii hc, ← hne hq, ← hne (a := '\n') (by decide)]
    constructor
    · intro h
      generalize hall : c.toUInt8 :: Text.bytes s = all at h
      cases h with
      | nil => cases hall
      | escape => exact absurd (List.cons.inj hall).1 ((hne (by decide)).2 hescape)
      | byte hquote _ hline h =>
        cases hall
        exact ⟨hquote, hline, h⟩
    · rintro ⟨hquote, hline, h⟩
      exact .byte hquote ((hne (by decide)).2 hescape) hline h
  · rw [Text.bytes_cons, ShortText.wide_append_iff hq.toNat_toUInt8_lt (wide_of_not_isAscii hc)]
    have hne : ∀ {a : Char}, IsAscii a → c ≠ a := fun ha heq => hc (heq ▸ ha)
    exact ⟨fun h => ⟨hne hq, hne (by decide), h⟩, fun h => h.2.2⟩

/-- A short string goes on over what may stand in one. -/
theorem shortString_of_shortText (hquote : quote = '"' ∨ quote = '\'')
    (h : ShortText quote.toUInt8 (Text.bytes t)) (u : Text) :
    shortString quote (t ++ u) = (t ++ (shortString quote u).1, (shortString quote u).2) := by
  fun_induction shortString quote t with
  | case1 => rfl
  | case2 =>
    generalize hall : Text.bytes ['\\'] = all at h
    rw [Text.bytes_cons_of_isAscii (by decide), Text.bytes_nil] at hall
    cases h with
    | nil => cases hall
    | escape => cases hall
    | byte _ hescape => exact absurd (List.cons.inj hall).1.symm hescape
  | case3 c rest more ih =>
    rw [List.cons_append, List.cons_append, shortString,
      ih ((shortText_escape_iff hquote).1 h)]
    rfl
  | case4 rest hend hescape =>
    exact absurd rfl ((shortText_cons_iff hquote (by decide)).1 h).2.1
  | case5 rest hend hescape hfeed =>
    exact absurd rfl ((shortText_cons_iff hquote (ne_backslash hend hescape)).1 h).1
  | case6 c rest hend hescape hfeed hne more ih =>
    have hc := ne_backslash hend hescape
    rw [List.cons_append, shortString_cons hc, if_neg hfeed, if_neg hne,
      ih ((shortText_cons_iff hquote hc).1 h).2.2]
    rfl

/-- What is taken of a short string before something else may stand in one, and the quote or the end
of the line is next. -/
theorem shortString_cases (hquote : quote = '"' ∨ quote = '\'')
    (hmore : (shortString quote s).2 ≠ []) :
    (∃ t, ShortText quote.toUInt8 (Text.bytes t) ∧ (shortString quote s).1 = t ++ [quote]) ∨
      ShortText quote.toUInt8 (Text.bytes (shortString quote s).1) ∧
        (shortString quote s).2.head? = some '\n' := by
  fun_induction shortString quote s with
  | case1 => exact absurd rfl hmore
  | case2 => exact absurd rfl hmore
  | case3 c rest more ih =>
    rcases ih hmore with ⟨t, ht, heq⟩ | ⟨ht, hline⟩
    · exact .inl ⟨'\\' :: c :: t, (shortText_escape_iff hquote).2 ht, by simp [more, heq]⟩
    · exact .inr ⟨(shortText_escape_iff hquote).2 ht, hline⟩
  | case4 rest hend hescape => exact .inr ⟨.nil, rfl⟩
  | case5 rest hend hescape hfeed => exact .inl ⟨[], .nil, rfl⟩
  | case6 c rest hend hescape hfeed hne more ih =>
    have hc := ne_backslash hend hescape
    rcases ih hmore with ⟨t, ht, heq⟩ | ⟨ht, hline⟩
    · exact .inl ⟨c :: t, (shortText_cons_iff hquote hc).2 ⟨hne, hfeed, ht⟩, by simp [more, heq]⟩
    · exact .inr ⟨(shortText_cons_iff hquote hc).2 ⟨hne, hfeed, ht⟩, hline⟩

end ShortString

/-! ## Long brackets -/

section LongBracket

variable {level : Nat} {bracket : Char}

/-- Half of a long bracket: equal signs between two brackets. -/
def half (bracket : Char) (level : Nat) : Text :=
  bracket :: (List.replicate level '=' ++ [bracket])

theorem length_half : (half bracket level).length = level + 2 := by simp [half]

theorem half_ne_nil : half bracket level ≠ [] := List.cons_ne_nil _ _

theorem isAscii_half (h : IsAscii bracket) : ∀ c ∈ half bracket level, IsAscii c := by
  intro c hc
  simp only [half, List.mem_cons, List.mem_append, List.mem_replicate, List.not_mem_nil,
    or_false] at hc
  rcases hc with rfl | ⟨-, rfl⟩ | rfl
  · exact h
  · decide
  · exact h

theorem bytes_half (h : IsAscii bracket) (level : Nat) :
    Text.bytes (half bracket level) = bracketHalf bracket level := by
  have hequals : Text.bytes (List.replicate level '=') = List.replicate level '='.toUInt8 := by
    induction level with
    | zero => rfl
    | succ level ih =>
      rw [List.replicate_succ, Text.bytes_cons_of_isAscii (by decide), ih, List.replicate_succ]
  rw [half, bracketHalf, Text.bytes_cons_of_isAscii h, Text.bytes_append, hequals,
    Text.bytes_cons_of_isAscii h, Text.bytes_nil]

/-- A run of equal signs ends at any other character. -/
theorem takeWhile_equals (hc : c ≠ '=') (s : Text) :
    (List.replicate level '=' ++ c :: s).takeWhile (· == '=') = List.replicate level '=' ∧
      (List.replicate level '=' ++ c :: s).dropWhile (· == '=') = c :: s :=
  takeWhile_append_stop (by simp) (by simpa using hc)

theorem longBracketLevel_eq_some :
    longBracketLevel s = some level ↔ ∃ u, s = half '[' level ++ u := by
  constructor
  · intro h
    unfold longBracketLevel at h
    split at h
    · next rest =>
      split at h
      · next after hafter =>
        have hrest := eq_replicate_append (Option.some.inj h)
        rw [hafter] at hrest
        exact ⟨after, by rw [hrest]; simp [half]⟩
      · cases h
    · cases h
  · rintro ⟨u, rfl⟩
    obtain ⟨htake, hdrop⟩ := takeWhile_equals (c := '[') (by decide) u
    rw [half, List.cons_append, List.append_assoc, List.singleton_append, longBracketLevel, hdrop,
      htake, List.length_replicate]
    rfl

/-- Where a long bracket of some level is closed. -/
theorem closes_iff : (c = ']' ∧ closesLongBracket level s = true) ↔
    ∃ u, c :: s = half ']' level ++ u := by
  rw [closesLongBracket, Bool.and_eq_true, beq_iff_eq, beq_iff_eq]
  constructor
  · rintro ⟨rfl, hequals, hhead⟩
    have hs := eq_replicate_append hequals
    rw [drop_eq_dropWhile hequals] at hhead
    obtain ⟨u, hu⟩ := List.head?_eq_some_iff.1 hhead
    rw [hu] at hs
    exact ⟨u, by rw [hs]; simp [half]⟩
  · rintro ⟨u, hu⟩
    rw [half, List.cons_append, List.append_assoc, List.singleton_append] at hu
    obtain ⟨rfl, rfl⟩ := List.cons.inj hu
    obtain ⟨htake, hdrop⟩ := takeWhile_equals (c := ']') (by decide) u
    rw [htake, List.drop_left' List.length_replicate]
    exact ⟨rfl, List.length_replicate, rfl⟩

/-- The first closing half in a text is at its end. -/
def EndsFirst (level : Nat) (s : Text) : Prop := ∀ t u, s = t ++ (half ']' level ++ u) → u = []

theorem endsFirst_half : EndsFirst level (half ']' level) := by
  intro t u h
  have := congrArg List.length h
  simp only [List.length_append, length_half] at this
  exact List.eq_nil_of_length_eq_zero (by omega)

/-- What is taken of a long bracket ends with the first closing half. -/
theorem longBracket_cases (hmore : (longBracket level s).2 ≠ []) :
    ∃ t, (longBracket level s).1 = t ++ half ']' level ∧ EndsFirst level (t ++ half ']' level) := by
  fun_induction longBracket level s with
  | case1 => exact absurd rfl hmore
  | case2 c rest hclose =>
    obtain ⟨u, hu⟩ := closes_iff.1 hclose
    refine ⟨[], ?_, endsFirst_half⟩
    have htake := congrArg (List.take (level + 2)) hu
    rw [List.take_left' length_half] at htake
    exact htake
  | case3 c rest hclose more ih =>
    obtain ⟨t, ht, hfirst⟩ := ih hmore
    refine ⟨c :: t, by rw [List.cons_append, ← ht], fun a b hab => ?_⟩
    cases a with
    | nil =>
      refine absurd (closes_iff.2 ⟨b ++ more.2, ?_⟩) hclose
      have hrest := longBracket_append level rest
      rw [ht] at hrest
      rw [← hrest, ← List.append_assoc, ← List.cons_append, ← List.nil_append (half _ _ ++ b),
        ← hab]
      rfl
    | cons d a => exact hfirst a b (List.cons.inj hab).2

/-- A long bracket is taken up to the first closing half. -/
theorem longBracket_of_endsFirst (h : EndsFirst level (t ++ half ']' level)) (u : Text) :
    longBracket level (t ++ (half ']' level ++ u)) = (t ++ half ']' level, u) := by
  induction t with
  | nil =>
    have hlength : (List.replicate level '=' ++ [']']).length = level + 1 := by simp
    have hclose : ']' = ']' ∧
        closesLongBracket level (List.replicate level '=' ++ [']'] ++ u) = true :=
      closes_iff.2 ⟨u, rfl⟩
    rw [List.nil_append, List.nil_append, half, List.cons_append, longBracket, if_pos hclose,
      List.take_left' hlength, List.drop_left' hlength]
  | cons c t ih =>
    have hfirst : EndsFirst level (t ++ half ']' level) := fun a b hab =>
      h (c :: a) b (by rw [List.cons_append, hab]; rfl)
    -- a half that closes here ends before the last one does
    have hclose : ¬ (c = ']' ∧ closesLongBracket level (t ++ (half ']' level ++ u)) = true) := by
      intro hclose
      obtain ⟨v, hv⟩ := closes_iff.1 hclose
      have hall : c :: t ++ half ']' level <+: c :: (t ++ (half ']' level ++ u)) := ⟨u, by simp⟩
      obtain ⟨b, hb⟩ := List.prefix_of_prefix_length_le ⟨v, hv.symm⟩ hall (by simp; omega)
      have hlength := congrArg List.length hb
      rw [h [] b hb.symm, List.append_nil, List.length_append, List.length_cons] at hlength
      omega
    rw [List.cons_append, longBracket, if_neg hclose, ih hfirst]
    rfl

theorem opensLong_bytes_iff : OpensLong (Text.bytes s) ↔ (longBracketLevel s).isSome = true := by
  constructor
  · rintro ⟨level, y, hy⟩
    rw [← bytes_half (by decide)] at hy
    obtain ⟨u, hu, -⟩ := exists_append_of_bytes (isAscii_half (by decide)) hy.symm
    rw [longBracketLevel_eq_some.2 ⟨u, hu⟩]
    rfl
  · intro h
    obtain ⟨level, hlevel⟩ := Option.isSome_iff_exists.1 h
    obtain ⟨u, rfl⟩ := longBracketLevel_eq_some.1 hlevel
    exact ⟨level, Text.bytes u, by rw [Text.bytes_append, bytes_half (by decide)]⟩

/-- A long bracket that the lexer takes is one. -/
theorem longBracket_bytes (hlevel : longBracketLevel s = some level)
    (hmore : (bracketed level s).2 ≠ []) : LongBracket (Text.bytes (bracketed level s).1) := by
  obtain ⟨u, rfl⟩ := longBracketLevel_eq_some.1 hlevel
  rw [bracketed, List.take_left' length_half, List.drop_left' length_half] at hmore ⊢
  obtain ⟨t, ht, hfirst⟩ := longBracket_cases hmore
  refine ⟨level, Text.bytes t, ?_, fun a b hab => ?_⟩
  · simp only [ht, Text.bytes_append, bytes_half (show IsAscii '[' by decide),
      bytes_half (show IsAscii ']' by decide)]
  · rw [← bytes_half (by decide), ← Text.bytes_append] at hab
    obtain ⟨a, b, hcut, rfl, rfl⟩ := exists_cut_append (isAscii_half (by decide)) half_ne_nil hab
    rw [hfirst a b hcut]
    rfl

/-- A long bracket is what the lexer takes. -/
theorem LongBracket.eq_bytes (h : LongBracket x) (hs : x ++ y = Text.bytes s) :
    ∃ level, longBracketLevel s = some level ∧ x = Text.bytes (bracketed level s).1 := by
  obtain ⟨level, inside, rfl, hfirst⟩ := h
  rw [← bytes_half (by decide), ← bytes_half (by decide), List.append_assoc,
    List.append_assoc] at hs
  obtain ⟨v, rfl, hv⟩ := exists_append_of_bytes (isAscii_half (by decide)) hs.symm
  obtain ⟨t, u, rfl, rfl, rfl⟩ := exists_cut_append (isAscii_half (by decide)) half_ne_nil hv
  have hends : EndsFirst level (t ++ half ']' level) := by
    intro a b hab
    have hbytes := congrArg Text.bytes hab
    simp only [Text.bytes_append, bytes_half (show IsAscii ']' by decide)] at hbytes
    exact Text.bytes_eq_nil.1 (hfirst _ _ hbytes)
  refine ⟨level, longBracketLevel_eq_some.2 ⟨_, rfl⟩, ?_⟩
  rw [bracketed, List.take_left' length_half, List.drop_left' length_half,
    longBracket_of_endsFirst hends]
  simp only [Text.bytes_append, bytes_half (show IsAscii '[' by decide),
    bytes_half (show IsAscii ']' by decide)]

end LongBracket

/-! ## Comments -/

theorem mem_bytes_iff (ha : IsAscii a) : a.toUInt8 ∈ Text.bytes s ↔ a ∈ s := by
  constructor
  · intro h
    obtain ⟨x, y, hxy⟩ := List.append_of_mem h
    obtain ⟨t, u, rfl, -, -⟩ := exists_cut ha hxy
    simp
  · intro h
    obtain ⟨t, u, rfl⟩ := List.append_of_mem h
    rw [Text.bytes_append, Text.bytes_cons_of_isAscii ha]
    simp

/-- A comment up to the end of its line. -/
theorem comment_of_none (hlevel : longBracketLevel s = none) :
    '\n'.toUInt8 ∉ Text.bytes (comment s).1 ∧ EndsLine (Text.bytes (comment s).2) := by
  simp only [comment, hlevel]
  rw [mem_bytes_iff (by decide), endsLine_bytes_iff]
  constructor
  · intro hmem
    have := List.all_eq_true.1 List.all_takeWhile '\n' hmem
    simp at this
  · intro c hc
    have hhead := List.head?_dropWhile_not (· != '\n') s
    rw [show (s.dropWhile (· != '\n')).head? = some c from hc] at hhead
    simpa using hhead

theorem comment_bytes (hmore : (comment s).2 ≠ []) :
    Piece ('-'.toUInt8 :: '-'.toUInt8 :: Text.bytes (comment s).1) (Text.bytes (comment s).2) := by
  cases hlevel : longBracketLevel s with
  | some level =>
    have hcomment : comment s = bracketed level s := by rw [comment, hlevel]
    rw [hcomment] at hmore ⊢
    exact .longComment (longBracket_bytes hlevel hmore) _
  | none =>
    obtain ⟨hline, hends⟩ := comment_of_none hlevel
    refine .lineComment ?_ hline hends
    rw [← Text.bytes_append, comment_append, opensLong_bytes_iff, hlevel]
    simp

/-! ## Pieces -/

theorem quote_bytes_iff (hc : IsAscii c) :
    (c.toUInt8 = '"'.toUInt8 ∨ c.toUInt8 = '\''.toUInt8) ↔ (c = '"' ∨ c = '\'') := by
  rw [hc.toUInt8_inj (by decide), hc.toUInt8_inj (by decide)]

theorem shortString_bytes (hquote : c = '"' ∨ c = '\'') (hmore : (shortString c s).2 ≠ []) :
    Piece (Text.bytes (c :: (shortString c s).1)) (Text.bytes (shortString c s).2) := by
  have hc := isAscii_quote hquote
  rw [Text.bytes_cons_of_isAscii hc]
  rcases shortString_cases hquote hmore with ⟨t, ht, heq⟩ | ⟨ht, hline⟩
  · rw [heq, Text.bytes_append, Text.bytes_cons_of_isAscii hc, Text.bytes_nil]
    exact .closedString ((quote_bytes_iff hc).2 hquote) ht _
  · refine .openString ((quote_bytes_iff hc).2 hquote) ht (endsLine_bytes_iff.2 fun d hd => ?_)
    rw [hline] at hd
    exact (Option.some.inj hd).symm

/-- **A piece that the lexer takes is one**, if anything follows it. -/
theorem piece_bytes (hc : IsAscii c) (hopen : c ≠ '{') (hclose : c ≠ '}')
    (hmore : (piece (c :: s)).2 ≠ []) :
    Piece (Text.bytes (piece (c :: s)).1) (Text.bytes (piece (c :: s)).2) := by
  by_cases hdash : c = '-' ∧ s.head? = some '-'
  · obtain ⟨rfl, hdash⟩ := hdash
    obtain ⟨s, rfl⟩ := List.head?_eq_some_iff.1 hdash
    exact comment_bytes hmore
  rw [piece_cons hdash] at hmore ⊢
  by_cases hquote : c = '"' ∨ c = '\''
  · rw [if_pos hquote] at hmore ⊢
    exact shortString_bytes hquote hmore
  rw [if_neg hquote] at hmore ⊢
  cases hlevel : longBracketLevel (c :: s) with
  | some level =>
    rw [hlevel] at hmore
    exact .longBracket (longBracket_bytes hlevel hmore) _
  | none =>
    have hne : ∀ {a : Char}, IsAscii a → c ≠ a → c.toUInt8 ≠ a.toUInt8 :=
      fun ha hca => mt (hc.toUInt8_inj ha).1 hca
    simp only [Text.bytes_cons_of_isAscii hc, Text.bytes_nil]
    refine .byte ⟨hne (by decide) hopen, hne (by decide) hclose⟩
      (mt (quote_bytes_iff hc).1 hquote) ?_ ?_
    · rw [← Text.bytes_cons_of_isAscii hc, opensLong_bytes_iff, hlevel]
      simp
    · rwa [hc.toUInt8_inj (by decide), head?_bytes_eq_iff (by decide)]

/-- What stands in a short string, the lexer takes with the quote before it. -/
theorem piece_of_shortText (hquote : c = '"' ∨ c = '\'')
    (h : ShortText c.toUInt8 (Text.bytes t)) (u : Text) :
    (piece (c :: (t ++ u))).1 = c :: (t ++ (shortString c u).1) := by
  have hdash : ¬ (c = '-' ∧ (t ++ u).head? = some '-') := by
    rintro ⟨rfl, -⟩
    revert hquote
    decide
  rw [piece_cons hdash, if_pos hquote, shortString_of_shortText hquote h]

theorem shortString_quote (hquote : c = '"' ∨ c = '\'') (u : Text) :
    shortString c (c :: u) = ([c], u) := by
  rcases hquote with rfl | rfl <;> rfl

theorem shortString_of_head (h : ∀ d ∈ u.head?, d = '\n') : (shortString c u).1 = [] := by
  cases u with
  | nil => rfl
  | cons d u =>
    obtain rfl := h d rfl
    rw [shortString_cons (by decide), if_pos rfl]

theorem exists_dashes (h : '-'.toUInt8 :: '-'.toUInt8 :: x ++ y = Text.bytes s) :
    ∃ u, s = '-' :: '-' :: u ∧ Text.bytes u = x ++ y :=
  exists_append_of_bytes (w := ['-', '-'])
    (List.forall_mem_cons.2 ⟨by decide, List.forall_mem_singleton.2 (by decide)⟩) h.symm

theorem bytes_piece_dashes (u : Text) : Text.bytes (piece ('-' :: '-' :: u)).1
    = '-'.toUInt8 :: '-'.toUInt8 :: Text.bytes (comment u).1 := rfl

/-- **A piece is what the lexer takes** where it begins. -/
theorem Piece.eq_bytes (h : Piece x y) (hc : IsAscii c) (hs : x ++ y = Text.bytes (c :: s)) :
    x = Text.bytes (piece (c :: s)).1 := by
  have hhead := hs
  rw [Text.bytes_cons_of_isAscii hc] at hhead
  cases h with
  | @closedString quote text hquote htext rest =>
    obtain ⟨rfl, hmore⟩ := List.cons.inj hhead
    rw [quote_bytes_iff hc] at hquote
    obtain ⟨t, u, rfl, rfl, -⟩ := exists_cut hc (hmore.symm.trans (List.append_assoc _ _ _))
    rw [piece_of_shortText hquote htext, shortString_quote hquote, Text.bytes_cons_of_isAscii hc,
      Text.bytes_append, Text.bytes_cons_of_isAscii hc]
    rfl
  | @openString quote text rest hquote htext hrest =>
    obtain ⟨rfl, hmore⟩ := List.cons.inj hhead
    rw [quote_bytes_iff hc] at hquote
    obtain ⟨t, u, rfl, rfl, rfl⟩ := exists_cut_of_endsLine hmore.symm hrest
    rw [piece_of_shortText hquote htext, shortString_of_head (endsLine_bytes_iff.1 hrest),
      List.append_nil, Text.bytes_cons_of_isAscii hc]
  | longBracket h rest =>
    obtain ⟨level, hlevel, hx⟩ := h.eq_bytes hs
    -- a long bracket begins with no dash and no quote
    obtain ⟨u, hu⟩ := longBracketLevel_eq_some.1 hlevel
    obtain ⟨rfl, -⟩ := List.cons.inj hu
    rw [piece_cons (by simp), if_neg (by decide), hlevel, hx]
  | @longComment bytes h rest =>
    obtain ⟨u, hu, hbytes⟩ := exists_dashes hs
    obtain ⟨rfl, rfl⟩ := List.cons.inj hu
    obtain ⟨level, hlevel, hx⟩ := h.eq_bytes hbytes.symm
    have hcomment : comment u = bracketed level u := by rw [comment, hlevel]
    rw [bytes_piece_dashes, hcomment, hx]
  | @lineComment line rest hopen hline hrest =>
    obtain ⟨u, hu, hbytes⟩ := exists_dashes hs
    obtain ⟨rfl, rfl⟩ := List.cons.inj hu
    rw [← hbytes, opensLong_bytes_iff, Bool.not_eq_true, Option.isSome_eq_false_iff,
      Option.isNone_iff_eq_none] at hopen
    obtain ⟨t, v, rfl, rfl, rfl⟩ := exists_cut_of_endsLine hbytes hrest
    rw [mem_bytes_iff (by decide)] at hline
    rw [endsLine_bytes_iff] at hrest
    have hcomment : (comment (t ++ v)).1 = t := by
      rw [comment, hopen]
      refine (takeWhile_append_stop (fun d hd => bne_iff_ne.2 ?_) fun d hd => ?_).1
      · rintro rfl
        exact hline hd
      · simpa using hrest d hd
    rw [bytes_piece_dashes, hcomment]
  | @byte b rest hbrace hquote hopen hcomment =>
    obtain ⟨rfl, hmore⟩ := List.cons.inj hhead
    rw [quote_bytes_iff hc] at hquote
    rw [hc.toUInt8_inj (by decide), show y = Text.bytes s from hmore,
      head?_bytes_eq_iff (by decide)] at hcomment
    rw [show y = Text.bytes s from hmore, ← Text.bytes_cons_of_isAscii hc, opensLong_bytes_iff,
      Bool.not_eq_true, Option.isSome_eq_false_iff, Option.isNone_iff_eq_none] at hopen
    rw [piece_cons hcomment, if_neg hquote, hopen, Text.bytes_cons_of_isAscii hc, Text.bytes_nil]

end Lua

end NginxConf
