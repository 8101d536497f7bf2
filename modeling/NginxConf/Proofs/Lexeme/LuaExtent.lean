import NginxConf.Proofs.Lexeme.LuaPieces

/-!
# How far scripts reach

The script that the lexer takes is the body that stands there, if one does: no other body ends
before a `}` (`bodyLength?_extent`). The lexer takes it character by character, and counts the
braces that are open; in bytes, what it takes with some of them open is `Enclosed`, and nothing else
is (`enclosed_of_body`, `exists_body_of_enclosed`).
-/

namespace NginxConf.Lua

variable {c : Char} {s a b : Text} {d n : Nat} {bytes code rest : List UInt8}

/-- The length in bytes of the script that a text begins with, up to the `}` that closes it. -/
def bodyLength? (s : Text) : Option Nat := (body 0 s).map fun (code, _) => Text.size code

/-- **What the lexer takes of a script is enclosed by the braces that are open.** -/
theorem enclosed_of_body (h : body d s = some (a, b)) :
    Enclosed d (Text.bytes a) (Text.bytes b) := by
  fun_induction body d s generalizing a with
  | case1 => cases h
  | case2 d rest ih =>
    simp only [Option.map_eq_some_iff, Prod.mk.injEq, Prod.exists] at h
    obtain ⟨x, y, hxy, rfl, rfl⟩ := h
    exact .opens (ih hxy)
  | case3 =>
    cases h
    exact .nil _
  | case4 rest _ d ih =>
    simp only [Option.map_eq_some_iff, Prod.mk.injEq, Prod.exists] at h
    obtain ⟨x, y, hxy, rfl, rfl⟩ := h
    exact .closes (ih hxy)
  | case5 d c rest hopen hclose ih =>
    simp only [Option.map_eq_some_iff, Prod.mk.injEq, Prod.exists] at h
    obtain ⟨x, y, hxy, rfl, rfl⟩ := h
    have hmore := body_append hxy
    rw [Text.bytes_append]
    by_cases hc : IsAscii c
    · have hne : (piece (c :: rest)).2 ≠ [] := by
        intro hnil
        rw [hnil, body] at hxy
        cases hxy
      refine .piece ?_ (ih hxy)
      rw [← Text.bytes_append, hmore]
      exact piece_bytes hc hopen hclose hne
    · -- each byte of a longer encoding is a piece of its own
      rw [piece_of_not_isAscii hc, Text.bytes_cons, Text.bytes_nil, List.append_nil,
        Enclosed.wide_append_iff (wide_of_not_isAscii hc)]
      exact ih hxy

/-- A byte that is no brace is not where a body ends. -/
theorem exists_append_of_wide {x y : List UInt8} (hx : ∀ b ∈ x, 128 ≤ b.toNat)
    (h : code ++ '}'.toUInt8 :: rest = x ++ y) :
    ∃ more, code = x ++ more ∧ more ++ '}'.toUInt8 :: rest = y := by
  rcases List.append_eq_append_iff.1 h with ⟨z, rfl, hz⟩ | ⟨z, rfl, hz⟩
  · cases z with
    | nil => exact ⟨[], by simp, hz⟩
    | cons b z =>
      obtain ⟨rfl, -⟩ := List.cons.inj hz
      have := hx '}'.toUInt8 (by simp)
      exact absurd this (by decide)
  · exact ⟨z, rfl, hz.symm⟩

/-- **What is enclosed by the braces that are open is what the lexer takes.** -/
theorem exists_body_of_enclosed (h : Enclosed d code ('}'.toUInt8 :: rest))
    (hs : code ++ '}'.toUInt8 :: rest = Text.bytes s) :
    ∃ a b, body d s = some (a, b) ∧ Text.bytes a = code := by
  fun_induction body d s generalizing code with
  | case1 => simp at hs
  | case2 d s ih =>
    rw [Text.bytes_cons_of_isAscii (by decide)] at hs
    cases code with
    | nil => exact absurd (List.cons.inj hs).1 (by decide)
    | cons b code =>
      obtain ⟨rfl, hmore⟩ := List.cons.inj hs
      obtain ⟨a, b, hbody, rfl⟩ := ih h.of_open hmore
      exact ⟨'{' :: a, b, by rw [hbody]; rfl, Text.bytes_cons_of_isAscii (by decide) a⟩
  | case3 s =>
    rw [Text.bytes_cons_of_isAscii (by decide)] at hs
    cases code with
    | nil => exact ⟨[], _, rfl, rfl⟩
    | cons b code =>
      obtain ⟨rfl, -⟩ := List.cons.inj hs
      obtain ⟨e, he, -⟩ := h.of_close
      cases he
  | case4 s _ d ih =>
    rw [Text.bytes_cons_of_isAscii (by decide)] at hs
    cases code with
    | nil => cases h.eq_zero_of_nil
    | cons b code =>
      obtain ⟨rfl, hmore⟩ := List.cons.inj hs
      obtain ⟨e, he, h⟩ := h.of_close
      cases he
      obtain ⟨a, b, hbody, rfl⟩ := ih h hmore
      exact ⟨'}' :: a, b, by rw [hbody]; rfl, Text.bytes_cons_of_isAscii (by decide) a⟩
  | case5 d c s hopen hclose ih =>
    by_cases hc : IsAscii c
    · have hne : ∀ {a : Char}, IsAscii a → c ≠ a → c.toUInt8 ≠ a.toUInt8 :=
        fun ha hca => mt (hc.toUInt8_inj ha).1 hca
      cases code with
      | nil =>
        rw [Text.bytes_cons_of_isAscii hc] at hs
        exact absurd (List.cons.inj hs).1.symm (hne (by decide) hclose)
      | cons b code =>
        have hb : b = c.toUInt8 := by
          rw [Text.bytes_cons_of_isAscii hc] at hs
          exact (List.cons.inj hs).1
        obtain ⟨x, more, hcode, hpiece, hmore⟩ :=
          h.of_piece (hb ▸ ⟨hne (by decide) hopen, hne (by decide) hclose⟩)
        rw [hcode, List.append_assoc] at hs
        obtain rfl := hpiece.eq_bytes hc hs
        have hfollow : more ++ '}'.toUInt8 :: rest = Text.bytes (piece (c :: s)).2 :=
          List.append_cancel_left (hs.trans (by rw [← Text.bytes_append, piece_append]))
        obtain ⟨a, b, hbody, rfl⟩ := ih hmore hfollow
        exact ⟨_, b, by rw [hbody]; rfl, by rw [Text.bytes_append, hcode]⟩
    · have hwide := wide_of_not_isAscii hc
      obtain ⟨more, rfl, hmore⟩ := exists_append_of_wide hwide (hs.trans (Text.bytes_cons c s))
      rw [piece_of_not_isAscii hc] at ih ⊢
      obtain ⟨a, b, hbody, rfl⟩ := ih ((Enclosed.wide_append_iff hwide).1 h) hmore
      exact ⟨c :: a, b, by rw [hbody]; rfl, Text.bytes_cons c a⟩

/-- **A body that a text begins with is the script that the lexer takes.** -/
theorem bodyLength?_eq_some : bodyLength? s = some n ↔ EndsBody (Text.bytes s) n := by
  constructor
  · intro h
    obtain ⟨⟨a, b⟩, hbody, rfl⟩ := Option.map_eq_some_iff.1 h
    obtain ⟨t, rfl⟩ := List.head?_eq_some_iff.1 (body_snd hbody)
    have hall := enclosed_of_body hbody
    rw [Text.bytes_cons_of_isAscii (by decide)] at hall
    refine ⟨Text.bytes a, Text.bytes t, ?_, Text.length_bytes a, enclosed_zero_iff.1 hall⟩
    rw [← body_append hbody, Text.bytes_append, Text.bytes_cons_of_isAscii (by decide)]
  · rintro ⟨code, rest, hs, rfl, hbody⟩
    obtain ⟨a, b, h, rfl⟩ := exists_body_of_enclosed hbody.enclosed hs.symm
    rw [bodyLength?, h, Option.map_some, Text.length_bytes]

/--
**How far a script reaches.** Its length is where a body ends that begins where the text does, if
there is one. It lies between two characters, and does not depend on what follows the `}` there. In
a text that a file can hold, reading bytes gives the same.
-/
theorem bodyLength?_extent (s : Text) :
    (∀ n, bodyLength? s = some n ↔ EndsBody (Text.bytes s) n) ∧
      (bodyLength? s = none ↔ ¬ ∃ n, EndsBody (Text.bytes s) n) ∧
      (∀ n, bodyLength? s = some n → Text.isBoundary s n = true ∧
        ∃ code rest, s = code ++ '}' :: rest ∧ Text.size code = n ∧
          ∀ rest', bodyLength? (code ++ '}' :: rest') = some n) ∧
      (Text.size s < Overflow.offsetBound → bodyEnd (Text.bytes s) 0 0 = .ok (bodyLength? s)) := by
  refine ⟨fun n => bodyLength?_eq_some, ?_, fun n h => ?_, fun hs => bodyEnd_eq hs⟩
  · simp only [← bodyLength?_eq_some, not_exists]
    exact Option.eq_none_iff_forall_ne_some
  · obtain ⟨⟨a, b⟩, hbody, rfl⟩ := Option.map_eq_some_iff.1 h
    obtain ⟨t, rfl⟩ := List.head?_eq_some_iff.1 (body_snd hbody)
    obtain rfl := body_append hbody
    refine ⟨Text.isBoundary_iff.2 ⟨a, _, rfl, rfl⟩, a, t, rfl, rfl, fun r => ?_⟩
    rw [bodyLength?, body_lookahead hbody r, Option.map_some]

/-- A `}` in a string with an escaped quote, one in a comment over a long bracket, and one that
closes a `{`. -/
theorem bodyLength?_extent_nested :
    let s := "\x7b\"\\\"\x7d\" --[=[ \x7d ]] ]=] é \x7d\x7d;".toList
    Text.size s < Overflow.offsetBound ∧ bodyLength? s = some 26 ∧
      EndsBody (Text.bytes s) 26 ∧ bodyEnd (Text.bytes s) 0 0 = .ok (bodyLength? s) := by
  have hsize : Text.size "\x7b\"\\\"\x7d\" --[=[ \x7d ]] ]=] é \x7d\x7d;".toList
      < Overflow.offsetBound := by decide +kernel
  have hlength : bodyLength? "\x7b\"\\\"\x7d\" --[=[ \x7d ]] ]=] é \x7d\x7d;".toList
      = some 26 := by decide +kernel
  obtain ⟨hends, -, -, hbytes⟩ :=
    bodyLength?_extent "\x7b\"\\\"\x7d\" --[=[ \x7d ]] ]=] é \x7d\x7d;".toList
  exact ⟨hsize, hlength, (hends 26).1 hlength, hbytes hsize⟩

end NginxConf.Lua
