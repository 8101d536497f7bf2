import NginxConf.Proofs.Lexeme.Script

/-!
# Lexing around a block

What lies between the braces of a block has no say in how the text outside is lexed. Before the
block, pieces depend on no more than the next character (`lexFrom_lookahead`); after a `}` the mode
is always the same (`lexFrom_rightBrace`); and after a `{` it is, unless the brace opens a script.
Lexing a block alone therefore gives the pieces that it has in the whole text (`lex_splice`).
-/

namespace NginxConf

variable {mode : Mode} {s r : Text} {c : Char} {step : LexStep}

/-! ## One piece -/

theorem lexPlain_text_ne_nil (h : lexPlain mode s = some step) : step.lexeme.text ≠ [] := by
  cases s with
  | nil => cases h
  | cons d s =>
    cases h
    exact LexStep.plain_text_ne_nil mode d s

theorem lexPlain_lookahead (h : lexPlain mode s = some step) (hrest : step.rest = c :: r)
    (r' : Text) :
    lexPlain mode (step.lexeme.text ++ c :: r') = some { step with rest := c :: r' } := by
  cases s with
  | nil => cases h
  | cons d s =>
    cases h
    have happend := LexStep.plain_append mode d s
    cases hx : (LexStep.plain mode d s).lexeme.text with
    | nil => exact absurd hx (LexStep.plain_text_ne_nil mode d s)
    | cons d' x =>
      rw [hx, List.cons_append] at happend
      obtain rfl := (List.cons.inj happend).1
      rw [List.cons_append, lexPlain, LexStep.plain_lookahead hrest hx r']

/-- **A piece does not depend on more than the character after it.** -/
theorem lexStep_lookahead (h : lexStep mode s = some step) (hrest : step.rest = c :: r)
    (r' : Text) :
    lexStep mode (step.lexeme.text ++ c :: r') = some { step with rest := c :: r' } := by
  have happend := lexStep_append h
  unfold lexStep at h ⊢
  by_cases hmode : mode = .luaBody
  · rw [if_pos hmode] at h ⊢
    cases hbody : Lua.body 0 s with
    | none =>
      rw [hbody] at h
      cases h
      cases hrest
    | some cut =>
      obtain ⟨code, after⟩ := cut
      have hbrace := Lua.body_snd hbody
      rw [hbody] at h
      cases code with
      | nil =>
        -- the script is empty: its closing brace is the piece
        have hs := Lua.body_append hbody
        obtain ⟨t, rfl⟩ := List.head?_eq_some_iff.1 hbrace
        rw [List.nil_append] at hs
        obtain ⟨y, hy⟩ : ∃ y, step.lexeme.text ++ c :: r' = '}' :: y := by
          cases hx : step.lexeme.text with
          | nil => exact absurd hx (lexPlain_text_ne_nil h)
          | cons d x =>
            rw [hx, ← hs, List.cons_append] at happend
            exact ⟨x ++ c :: r', by rw [(List.cons.inj happend).1, List.cons_append]⟩
        have hplain := lexPlain_lookahead h hrest r'
        rw [hy] at hplain ⊢
        rw [Lua.body_end]
        exact hplain
      | cons d code =>
        cases h
        cases hrest
        cases hbrace
        have hbody' := Lua.body_lookahead hbody r'
        simp only [LexStep.ofLexeme, Lexeme.token]
        rw [hbody']
  · rw [if_neg hmode] at h ⊢
    exact lexPlain_lookahead h hrest r'

/-! ## Which braces open scripts -/

/-- The kind of a piece that is a token. -/
def Lexeme.tokenKind? (l : Lexeme) : Option TokenKind :=
  match l.kind with
  | .token kind => some kind
  | .trivia _ => none

/-- Whether a `{` after tokens of these kinds opens a script: a keyword with a script stands after
the last `;`, `{` or `}` among them. -/
def opensScript (kinds : List TokenKind) : Bool :=
  (kinds.reverse.takeWhile fun kind => !([.semicolon, .leftBrace, .rightBrace].contains kind)).contains
    .luaKeyword

/-- Whether a `{` would open a script after a token, by whether it would have before it. -/
def scriptAhead (ahead : Bool) (kind : TokenKind) : Bool :=
  !([.semicolon, .leftBrace, .rightBrace].contains kind) && (kind == .luaKeyword || ahead)

theorem opensScript_eq (kinds : List TokenKind) : opensScript kinds = kinds.foldl scriptAhead false := by
  rw [opensScript, ← List.foldr_reverse]
  induction kinds.reverse with
  | nil => rfl
  | cons kind kinds ih =>
    rw [List.foldr_cons, ← ih, List.takeWhile_cons, scriptAhead]
    by_cases hkind : [.semicolon, .leftBrace, .rightBrace].contains kind = true
    · rw [hkind]
      rfl
    · rw [Bool.not_eq_true] at hkind
      rw [hkind]
      simp only [Bool.not_false, if_true, List.contains_cons, Bool.true_and]
      rw [Bool.beq_comm]

theorem foldl_scriptAhead_mono {ahead ahead' : Bool} (h : ahead = true → ahead' = true)
    (kinds : List TokenKind) (hf : kinds.foldl scriptAhead ahead = true) :
    kinds.foldl scriptAhead ahead' = true := by
  induction kinds generalizing ahead ahead' with
  | nil => exact h hf
  | cons kind kinds ih =>
    refine ih (fun hs => ?_) hf
    rw [scriptAhead, Bool.and_eq_true, Bool.or_eq_true] at hs ⊢
    exact ⟨hs.1, hs.2.imp id h⟩

theorem Mode.withDepth_none (mode : Mode) : mode.withDepth none = mode := by
  cases mode <;> rfl

/-- The mode after a piece follows from its kind, and from the mode before with other parentheses. -/
theorem LexStep.exists_mode_plain (mode : Mode) (c : Char) (rest : Text) :
    ∃ depth, (plain mode c rest).mode
      = (mode.withDepth depth).after (plain mode c rest).lexeme.kind := by
  have hsame : ∀ l rest, (ofLexeme mode l rest).mode
      = (mode.withDepth none).after (ofLexeme mode l rest).lexeme.kind := by
    intro l rest
    rw [Mode.withDepth_none]
    rfl
  unfold plain
  split
  · exact ⟨none, hsame _ _⟩
  · split
    · exact ⟨none, hsame _ _⟩
    · split
      · exact ⟨none, hsame _ _⟩
      · split
        · exact ⟨none, hsame _ _⟩
        · unfold significant
          split
          · split <;> exact ⟨none, hsame _ _⟩
          · split
            · exact ⟨none, hsame _ _⟩
            · exact ⟨_, rfl⟩

/-- The mode after a piece follows from its kind and a mode that is no nearer to a script. -/
theorem exists_mode_eq (h : lexStep mode s = some step) :
    ∃ before : Mode, step.mode = before.after step.lexeme.kind ∧
      (before = .afterLuaKeyword → mode = .afterLuaKeyword) := by
  have hplain : ∀ {m : Mode}, (m = .afterLuaKeyword → mode = .afterLuaKeyword) →
      lexPlain m s = some step → ∃ before : Mode, step.mode = before.after step.lexeme.kind ∧
        (before = .afterLuaKeyword → mode = .afterLuaKeyword) := by
    intro m hm hp
    cases s with
    | nil => cases hp
    | cons c s =>
      cases hp
      obtain ⟨depth, hmode⟩ := LexStep.exists_mode_plain m c s
      refine ⟨_, hmode, fun hbefore => hm ?_⟩
      cases m <;> cases depth <;> first | rfl | cases hbefore
  unfold lexStep at h
  split at h
  · split at h
    · cases h
      exact ⟨.normal, rfl, fun hm => by cases hm⟩
    · exact hplain (fun hm => by cases hm) h
    · cases h
      exact ⟨.normal, rfl, fun hm => by cases hm⟩
  · exact hplain id h

/-- Only a keyword makes the lexer look for a script, and punctuation makes it stop. -/
theorem Mode.afterToken_eq {mode : Mode} {kind : TokenKind}
    (h : mode.afterToken kind = .afterLuaKeyword) :
    [.semicolon, .leftBrace, .rightBrace].contains kind = false ∧
      (kind = .luaKeyword ∨ mode = .afterLuaKeyword) := by
  unfold afterToken at h
  split at h
  · cases h
  · split at h <;> cases h
  · split at h
    · cases h
    · next hbrace =>
      split at h
      · cases h
      · next hend => exact ⟨by simp_all, .inr rfl⟩
  · cases h
  · exact ⟨rfl, .inl rfl⟩
  · cases h

/-- After a piece the lexer looks for a script only where a `{` would open one. -/
theorem scriptAhead_of_step (h : lexStep mode s = some step) (hm : step.mode = .afterLuaKeyword) :
    step.lexeme.tokenKind?.toList.foldl scriptAhead (mode == .afterLuaKeyword) = true := by
  obtain ⟨before, hmode, himp⟩ := exists_mode_eq h
  rw [hmode] at hm
  rw [Lexeme.tokenKind?]
  cases hkind : step.lexeme.kind with
  | trivia kind =>
    rw [hkind] at hm
    exact beq_iff_eq.2 (himp hm)
  | token kind =>
    rw [hkind] at hm
    obtain ⟨hend, hopens⟩ := Mode.afterToken_eq hm
    show scriptAhead (mode == .afterLuaKeyword) kind = true
    rw [scriptAhead, hend, Bool.not_false, Bool.true_and, Bool.or_eq_true, beq_iff_eq, beq_iff_eq]
    exact hopens.imp id himp

/-! ## All pieces up to a character -/

/-- **Up to a character, the pieces are the same whatever follows that character.** -/
theorem lexFrom_lookahead {before after : List Lexeme}
    (h : lexFrom mode (before.flatMap Lexeme.text ++ c :: r) = before ++ after) :
    ∃ mode', lexFrom mode' (c :: r) = after ∧
      (mode' = .afterLuaKeyword → (before.filterMap Lexeme.tokenKind?).foldl scriptAhead
        (mode == .afterLuaKeyword) = true) ∧
      ∀ r', lexFrom mode (before.flatMap Lexeme.text ++ c :: r')
        = before ++ lexFrom mode' (c :: r') := by
  induction before generalizing mode with
  | nil => exact ⟨mode, h, fun hm => by rw [hm]; rfl, fun _ => rfl⟩
  | cons l before ih =>
    cases hstep : lexStep mode ((l :: before).flatMap Lexeme.text ++ c :: r) with
    | none =>
      rw [lexFrom_of_none hstep] at h
      cases h
    | some step =>
      rw [lexFrom_of_some hstep, List.cons_append] at h
      obtain ⟨rfl, hrest⟩ := List.cons.inj h
      have htext : step.rest = before.flatMap Lexeme.text ++ c :: r := by
        have happend := lexStep_append hstep
        rw [List.flatMap_cons, List.append_assoc] at happend
        exact List.append_cancel_left happend
      rw [htext] at hrest
      obtain ⟨mode', hafter, hscript, hmore⟩ := ih hrest
      refine ⟨mode', hafter, fun hm => ?_, fun r' => ?_⟩
      · have hhead := foldl_scriptAhead_mono
          (fun hahead => scriptAhead_of_step hstep (beq_iff_eq.1 hahead)) _ (hscript hm)
        rw [← List.foldl_append] at hhead
        rw [List.filterMap_cons]
        cases hk : step.lexeme.tokenKind? <;> simpa [hk] using hhead
      obtain ⟨d, t, t', ht, ht'⟩ := exists_append_cons_eq (before.flatMap Lexeme.text) c r r'
      have hstep' := lexStep_lookahead hstep (htext.trans ht) t'
      rw [← ht', ← List.append_assoc, ← List.flatMap_cons] at hstep'
      rw [lexFrom_of_some hstep', List.cons_append]
      exact congrArg _ (hmore r')

/-! ## Braces -/

/-- After a `}` the mode is always the same. -/
theorem lexFrom_rightBrace (mode : Mode) (s : Text) :
    lexFrom mode ('}' :: s) = .token .rightBrace ['}'] :: lexFrom .normal s := by
  have hstep : lexStep mode ('}' :: s) = some ⟨.token .rightBrace ['}'], .normal, s⟩ := by
    cases mode with
    | luaBody =>
      rw [lexStep, Lua.body_end]
      rfl
    | _ => rfl
  rw [lexFrom_of_some hstep]

/-- A `{` is a brace unless it stands in a script, and opens one only after a keyword. -/
theorem lexFrom_leftBrace (hbody : mode ≠ .luaBody) (hscript : mode ≠ .afterLuaKeyword) (s : Text) :
    lexFrom mode ('{' :: s) = .token .leftBrace ['{'] :: lexFrom .normal s := by
  have hstep : lexStep mode ('{' :: s) = some ⟨.token .leftBrace ['{'], .normal, s⟩ := by
    cases mode with
    | luaBody => exact absurd rfl hbody
    | afterLuaKeyword => exact absurd rfl hscript
    | _ => rfl
  rw [lexFrom_of_some hstep]

/-- In a script, a `{` is not a brace. -/
theorem kind_luaBody_ne {l : Lexeme} {ls : List Lexeme} (h : lexFrom .luaBody ('{' :: s) = l :: ls) :
    l.kind ≠ .token .leftBrace := by
  have hstep : ∀ step, lexStep .luaBody ('{' :: s) = some step →
      step.lexeme.kind ≠ .token .leftBrace := by
    intro step hstep
    rw [lexStep, if_pos rfl, Lua.body_open] at hstep
    cases hbody : Lua.body (0 + 1) s <;>
    · rw [hbody] at hstep
      cases hstep
      simp [LexStep.ofLexeme, Lexeme.malformed, Lexeme.token]
  cases hs : lexStep .luaBody ('{' :: s) with
  | none =>
    rw [lexFrom_of_none hs] at h
    cases h
  | some step =>
    rw [lexFrom_of_some hs] at h
    rw [← (List.cons.inj h).1]
    exact hstep step hs

/-- The first piece of a text that begins with a `{` is the `{`. -/
theorem lex_leftBrace (s : Text) : lex ('{' :: s) = .token .leftBrace ['{'] :: lexFrom .normal s :=
  lexFrom_leftBrace (by decide) (by decide) s

/-- **Lexing a block alone gives the pieces that it has in the whole text**, unless its brace opens
a script. -/
theorem lex_splice {before inside inside' after : List Lexeme} {z : Text}
    (h : lex (before.flatMap Lexeme.text ++ '{' :: (inside.flatMap Lexeme.text ++ '}' :: z))
      = before ++ .token .leftBrace ['{'] :: (inside ++ .token .rightBrace ['}'] :: after))
    (hscript : opensScript (before.filterMap Lexeme.tokenKind?) = false)
    (halone : lex ('{' :: (inside'.flatMap Lexeme.text ++ ['}']))
      = .token .leftBrace ['{'] :: (inside' ++ [.token .rightBrace ['}']])) :
    lex (before.flatMap Lexeme.text ++ '{' :: (inside'.flatMap Lexeme.text ++ '}' :: z))
      = before ++ .token .leftBrace ['{'] :: (inside' ++ .token .rightBrace ['}'] :: after) := by
  obtain ⟨mode, hafter, hmode, hbefore⟩ := lexFrom_lookahead h
  have hbody : mode ≠ .luaBody := by
    rintro rfl
    exact kind_luaBody_ne hafter rfl
  have hkeyword : mode ≠ .afterLuaKeyword := by
    intro hm
    rw [opensScript_eq] at hscript
    exact Bool.false_ne_true (hscript.symm.trans (hmode hm))
  rw [lexFrom_leftBrace hbody hkeyword] at hafter
  obtain ⟨mode₁, hclose, -, -⟩ := lexFrom_lookahead (List.cons.inj hafter).2
  rw [lexFrom_rightBrace] at hclose
  rw [lex_leftBrace] at halone
  obtain ⟨mode₂, -, -, hinside⟩ := lexFrom_lookahead (List.cons.inj halone).2
  rw [lex, hbefore, lexFrom_leftBrace hbody hkeyword, hinside, lexFrom_rightBrace,
    (List.cons.inj hclose).2]

end NginxConf
