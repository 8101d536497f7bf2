import NginxConf.Proofs.Lexeme.Splice

/-!
# Where lexing can start again

After a `;`, a `{` or a `}` that is a lexeme of its own, the lexer goes on as it began: in the
normal mode. What stands before such a piece and what stands behind it are therefore lexed
independently (`lex_append`), and the two parts stand at the offsets that one would expect
(`placeLexemes_restart`).

The one mode that could stand in the way is that of a script. It is ruled out by the end of the
text: a script that begins there gives a lexeme of its own, so that its `{` is not the last one.
-/

namespace NginxConf

variable {mode : Mode} {p s : Text} {l : Lexeme}

/-- The tokens that end a statement or open or close a block. -/
def Lexeme.isStructural (l : Lexeme) : Bool :=
  [LeafKind.token .semicolon, .token .leftBrace, .token .rightBrace].contains l.kind

/-! ## After punctuation -/

/-- A `;` is a lexeme of its own unless it stands in a script. -/
theorem lexFrom_semicolon (hbody : mode ≠ .luaBody) (s : Text) :
    lexFrom mode (';' :: s) = .token .semicolon [';'] :: lexFrom .normal s := by
  have hstep : lexStep mode (';' :: s) = some ⟨.token .semicolon [';'], .normal, s⟩ := by
    cases mode with
    | luaBody => exact absurd rfl hbody
    | _ => rfl
  rw [lexFrom_of_some hstep]

/-- A script that a text ends too early, or begins with: its lexeme is malformed. -/
theorem lexFrom_luaBody_of_none (h : Lua.body 0 s = none) :
    lexFrom .luaBody s = [.malformed .unterminatedLua s] := by
  have hstep : lexStep .luaBody s = some (.ofLexeme .normal (.malformed .unterminatedLua s) []) := by
    rw [lexStep, if_pos rfl, h]
  have hnil : lexStep .normal [] = none := rfl
  rw [lexFrom_of_some hstep]
  exact congrArg _ (lexFrom_of_none hnil)

/-- A structural token is its character. -/
theorem Lexeme.Shaped.text_of_isStructural (h : l.Shaped) (hl : l.isStructural) :
    l.text = [';'] ∨ l.text = ['{'] ∨ l.text = ['}'] := by
  simp only [isStructural, List.contains_cons, List.contains_nil, Bool.or_false, Bool.or_eq_true,
    beq_iff_eq] at hl
  rcases hl with hl | hl | hl
  · exact .inl (h.semicolon hl)
  · exact .inr (.inl (h.leftBrace hl))
  · exact .inr (.inr (h.rightBrace hl))

/-- **A structural token that ends a text leaves the lexer in the normal mode**, whatever is
appended. -/
theorem lexFrom_cons_of_structural {c : Char} (h : lexFrom mode [c] = [l]) (hl : l.isStructural)
    (s : Text) : lexFrom mode (c :: s) = l :: lexFrom .normal s := by
  have htext : l.text = [c] := by
    have hflat := flatMap_text_lexFrom mode [c]
    rwa [h, List.flatMap_cons, List.flatMap_nil, List.append_nil] at hflat
  have hshaped : l.Shaped := lexFrom_shaped (h ▸ List.mem_singleton_self l)
  rcases hshaped.text_of_isStructural hl with hc | hc | hc <;> rw [htext] at hc <;> cases hc
  · -- a script that begins with `;` is not closed here
    have hbody : mode ≠ .luaBody := by
      rintro rfl
      rw [lexFrom_luaBody_of_none (by decide +kernel)] at h
      cases h
      cases hl
    rw [lexFrom_semicolon hbody] at h ⊢
    rw [(List.cons.inj h).1]
  · have hbody : mode ≠ .luaBody := by
      rintro rfl
      rw [lexFrom_luaBody_of_none (by decide +kernel)] at h
      cases h
      cases hl
    have hscript : mode ≠ .afterLuaKeyword := by
      -- the script behind the brace would be a second lexeme
      rintro rfl
      have hstep : lexStep .afterLuaKeyword ['{'] = some ⟨.token .leftBrace ['{'], .luaBody, []⟩ :=
        rfl
      rw [lexFrom_of_some hstep, lexFrom_luaBody_of_none (by decide +kernel)] at h
      cases h
    rw [lexFrom_leftBrace hbody hscript] at h ⊢
    rw [(List.cons.inj h).1]
  · rw [lexFrom_rightBrace] at h ⊢
    rw [(List.cons.inj h).1]

/-- **What stands before a structural token and what stands behind it are lexed independently.** -/
theorem lex_append (hlast : (lex p).getLast? = some l) (hl : l.isStructural) (s : Text) :
    lex (p ++ s) = lex p ++ lex s := by
  obtain ⟨before, hp⟩ := List.getLast?_eq_some_iff.1 hlast
  have htext : before.flatMap Lexeme.text ++ l.text = p := by
    have hflat := flatMap_text_lexFrom .normal p
    rwa [show lexFrom .normal p = before ++ [l] from hp, List.flatMap_append, List.flatMap_cons,
      List.flatMap_nil, List.append_nil] at hflat
  have hshaped : l.Shaped := lexFrom_shaped (s := p) (by rw [← lex, hp]; simp)
  obtain ⟨c, hc⟩ : ∃ c, l.text = [c] := by
    rcases hshaped.text_of_isStructural hl with h | h | h <;> exact ⟨_, h⟩
  rw [hc] at htext
  have hlex : lexFrom .normal (before.flatMap Lexeme.text ++ [c]) = before ++ [l] := by
    rw [htext]
    exact hp
  -- all before the token is lexed up to the token's character, whatever follows
  obtain ⟨mode', hafter, -, hmore⟩ := lexFrom_lookahead hlex
  have hrestart := hmore s
  rw [lexFrom_cons_of_structural hafter hl s] at hrestart
  calc lex (p ++ s)
      = lexFrom .normal (before.flatMap Lexeme.text ++ c :: s) := by
        rw [← htext, List.append_assoc]
        rfl
    _ = (before ++ [l]) ++ lex s := by rw [hrestart, List.append_assoc]; rfl
    _ = lex p ++ lex s := by rw [hp]

/-! ## Where the pieces stand -/

theorem placeLexemes_append (offset : Nat) (ls ms : List Lexeme) :
    placeLexemes offset (ls ++ ms) = placeLexemes offset ls
      ++ placeLexemes (offset + Text.size (ls.flatMap Lexeme.text)) ms := by
  induction ls generalizing offset with
  | nil => rfl
  | cons l ls ih =>
    rw [List.cons_append, placeLexemes, placeLexemes, ih, List.flatMap_cons, Text.size_append,
      List.cons_append, Nat.add_assoc]
    rfl

/-- Lexemes that begin further on stand further on. -/
theorem placeLexemes_add (offset n : Nat) (ls : List Lexeme) :
    placeLexemes (offset + n) ls
      = (placeLexemes offset ls).map fun (l, span) => (l, span.shift n) := by
  induction ls generalizing offset with
  | nil => rfl
  | cons l ls ih =>
    rw [placeLexemes, placeLexemes, List.map_cons, Nat.add_right_comm, ih]
    rfl

/-- Lexing again after a first part gives the lexemes of the rest. -/
theorem lexAfter?_append (p s : Text) : lexAfter? (p ++ s) (Text.size p) = some (lex s) := by
  rw [lexAfter?, Text.splitAt?_eq_some.2 ⟨rfl, rfl⟩]
  rfl

/--
**Lexing restarts exactly at structural punctuation.** Where the last lexeme of a text is a `;`, a
`{` or a `}`, a longer text has the lexemes of that text and then those of what was appended,
further on by the size of the text; and lexing from there gives just these.
-/
theorem placeLexemes_restart (hlast : (lex p).getLast? = some l) (hl : l.isStructural) (s : Text) :
    placeLexemes 0 (lex (p ++ s)) = placeLexemes 0 (lex p)
        ++ (placeLexemes 0 (lex s)).map (fun (l, span) => (l, span.shift (Text.size p))) ∧
      (lexAfter? (p ++ s) (Text.size p)).map (placeLexemes (Text.size p))
        = some ((placeLexemes 0 (lex s)).map fun (l, span) => (l, span.shift (Text.size p))) := by
  have hshift := placeLexemes_add 0 (Text.size p) (lex s)
  rw [Nat.zero_add] at hshift
  constructor
  · rw [lex_append hlast hl, placeLexemes_append, Nat.zero_add]
    rw [show (lex p).flatMap Lexeme.text = p from flatMap_text_lexFrom .normal p, hshift]
  · rw [lexAfter?_append, Option.map_some, hshift]

/-- A directive, and a string that is not closed. -/
theorem placeLexemes_restart_directive :
    (lex "a;".toList).getLast? = some (.token .semicolon [';']) ∧
      (Lexeme.token .semicolon [';']).isStructural ∧
      placeLexemes 0 (lex ("a;".toList ++ "\"b".toList)) = placeLexemes 0 (lex "a;".toList)
        ++ (placeLexemes 0 (lex "\"b".toList)).map
          (fun (l, span) => (l, span.shift (Text.size "a;".toList))) ∧
      (lexAfter? ("a;".toList ++ "\"b".toList) (Text.size "a;".toList)).map
          (placeLexemes (Text.size "a;".toList))
        = some ((placeLexemes 0 (lex "\"b".toList)).map
          fun (l, span) => (l, span.shift (Text.size "a;".toList))) := by
  have hlast : (lex "a;".toList).getLast? = some (.token .semicolon [';']) := by decide +kernel
  exact ⟨hlast, rfl, placeLexemes_restart hlast rfl _⟩

end NginxConf
