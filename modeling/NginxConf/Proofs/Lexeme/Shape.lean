import NginxConf.Lexeme.Lexer

/-!
# What lexemes look like

What holds of the lexeme of every step holds of all lexemes of a text (`forall_mem_lexFrom`). The
steps are gone through once: each gives a lexeme that has the shape of its kind (`Lexeme.Shaped`).
Where a step has to be seen with the mode in which it is taken, a lexeme of a text is traced back to
its step (`exists_step_of_lexFrom`).
-/

namespace NginxConf

/-- The text of a lexeme fits its kind, and it is faulty only if it is malformed. -/
structure Lexeme.Shaped (l : Lexeme) : Prop where
  isFaulty_iff : l.fault.isSome ↔ l.kind = .token .malformed
  not_endOfFile : l.kind ≠ .token .endOfFile
  leftBrace : l.kind = .token .leftBrace → l.text = ['{']
  rightBrace : l.kind = .token .rightBrace → l.text = ['}']
  semicolon : l.kind = .token .semicolon → l.text = [';']
  /-- Only a script that begins where the text ends is empty. -/
  text_ne_nil : l.fault = none → l.text ≠ []

namespace Lexeme.Shaped

theorem trivia {kind : TriviaKind} {text : Text} (h : text ≠ []) :
    (Lexeme.trivia kind text).Shaped := by
  constructor <;> simp [Lexeme.trivia, h]

theorem malformed {fault : LexFault} {text : Text} : (Lexeme.malformed fault text).Shaped := by
  constructor <;> simp [Lexeme.malformed]

/-- A token of a kind that is neither punctuation nor the end nor malformed. -/
theorem token {kind : TokenKind} {text : Text} (h : text ≠ [])
    (hk : kind ∉ [.malformed, .endOfFile, .leftBrace, .rightBrace, .semicolon]) :
    (Lexeme.token kind text).Shaped := by
  simp only [List.mem_cons, List.not_mem_nil, or_false, not_or] at hk
  constructor <;> simp [Lexeme.token, h, hk]

end Lexeme.Shaped

/-- A word is never read as punctuation, as the end, or as malformed. -/
theorem classifyWord_not_mem (inCondition : Bool) (word : Text) :
    classifyWord inCondition word
      ∉ [.malformed, .endOfFile, .leftBrace, .rightBrace, .semicolon] := by
  unfold classifyWord
  repeat' split
  all_goals decide

theorem punctuation?_shaped {mode : Mode} {c : Char} {kind : TokenKind}
    (h : punctuation? mode c = some kind) : (Lexeme.token kind [c]).Shaped := by
  unfold punctuation? at h
  split at h
  · cases h; constructor <;> simp_all [Lexeme.token]
  · split at h
    · cases h; constructor <;> simp_all [Lexeme.token]
    · split at h
      · cases h; constructor <;> simp_all [Lexeme.token]
      · split at h
        · cases h; exact .token (by simp) (by decide)
        · split at h
          · cases h; exact .token (by simp) (by decide)
          · cases h

theorem LexStep.significant_shaped (mode : Mode) (c : Char) (rest : Text) :
    (significant mode c rest).lexeme.Shaped := by
  unfold significant
  split
  · split
    · exact .token (by simp) (by decide)
    · exact .malformed
  · split
    · next hkind => exact punctuation?_shaped hkind
    · exact .token (scanWord_word_ne_nil _ (by simp)) (classifyWord_not_mem _ _)

theorem LexStep.plain_shaped (mode : Mode) (c : Char) (rest : Text) :
    (plain mode c rest).lexeme.Shaped := by
  unfold plain
  split
  · exact .trivia (by simp)
  · split
    · exact .trivia (by simp)
    · split
      · exact .trivia (by simp)
      · split
        · exact .trivia (by simp)
        · exact significant_shaped mode c rest

theorem lexStep_shaped {mode : Mode} {s : Text} {step : LexStep}
    (h : lexStep mode s = some step) : step.lexeme.Shaped := by
  have plain : ∀ {m}, lexPlain m s = some step → step.lexeme.Shaped := by
    intro m hm
    cases s with
    | nil => cases hm
    | cons c rest => cases hm; exact LexStep.plain_shaped m c rest
  unfold lexStep at h
  split at h
  · split at h
    · cases h; exact .malformed
    · exact plain h
    · next code rest hne hbody => cases h; exact .token hne (by decide)
  · exact plain h

/-! ## All lexemes of a text -/

/-- What holds of the lexeme of every step holds of all lexemes. -/
theorem forall_mem_lexFrom {P : Lexeme → Prop}
    (hstep : ∀ {mode s step}, lexStep mode s = some step → P step.lexeme) (mode : Mode) (s : Text) :
    ∀ l ∈ lexFrom mode s, P l := by
  fun_induction lexFrom mode s with
  | case1 => simp
  | case2 mode s step h ih =>
    intro l hl
    rcases List.mem_cons.1 hl with rfl | hl
    · exact hstep h
    · exact ih l hl

theorem lexFrom_shaped {mode : Mode} {s : Text} {l : Lexeme} (h : l ∈ lexFrom mode s) :
    l.Shaped :=
  forall_mem_lexFrom lexStep_shaped mode s l h

/-- **The lexemes, written one after the other, are the text.** -/
theorem flatMap_text_lexFrom (mode : Mode) (s : Text) :
    (lexFrom mode s).flatMap Lexeme.text = s := by
  fun_induction lexFrom mode s with
  | case1 mode s h =>
    cases s with
    | nil => rfl
    | cons c rest =>
      unfold lexStep at h
      split at h
      · split at h <;> simp [lexPlain] at h
      · simp [lexPlain] at h
  | case2 mode s step h ih => rw [List.flatMap_cons, ih, lexStep_append h]

/-! ## Steps of a text -/

/-- From a mode and a text, the lexer reads these lexemes and comes to another mode and text. -/
inductive LexRun : Mode → Text → List Lexeme → Mode → Text → Prop
  | done {mode s} : LexRun mode s [] mode s
  | step {mode s step ls mode' s'} (hstep : lexStep mode s = some step)
      (hmore : LexRun step.mode step.rest ls mode' s') : LexRun mode s (step.lexeme :: ls) mode' s'

section LexRun

variable {mode mode' : Mode} {s s' : Text} {before after : List Lexeme} {l : Lexeme}

/-- Wherever the lexemes of a text are cut, the lexer has come to a mode and a text. -/
theorem exists_lexRun (h : lexFrom mode s = before ++ after) :
    ∃ mode' s', LexRun mode s before mode' s' ∧ lexFrom mode' s' = after := by
  induction before generalizing mode s with
  | nil => exact ⟨mode, s, .done, h⟩
  | cons l before ih =>
    cases hstep : lexStep mode s with
    | none =>
      rw [lexFrom_of_none hstep] at h
      cases h
    | some step =>
      rw [lexFrom_of_some hstep] at h
      obtain ⟨rfl, hrest⟩ := List.cons.inj h
      obtain ⟨mode', s', hrun, hafter⟩ := ih hrest
      exact ⟨mode', s', .step hstep hrun, hafter⟩

/-- **Each lexeme of a text is that of a step**, and those after it come from where the step ends. -/
theorem exists_step_of_lexFrom (h : lexFrom mode s = before ++ l :: after) :
    ∃ mode' s' step, LexRun mode s before mode' s' ∧ lexStep mode' s' = some step ∧
      step.lexeme = l ∧ lexFrom step.mode step.rest = after := by
  obtain ⟨mode', s', hrun, hmore⟩ := exists_lexRun h
  cases hstep : lexStep mode' s' with
  | none =>
    rw [lexFrom_of_none hstep] at hmore
    cases hmore
  | some step =>
    rw [lexFrom_of_some hstep] at hmore
    obtain ⟨hl, hafter⟩ := List.cons.inj hmore
    exact ⟨mode', s', step, hrun, hstep, hl, hafter⟩

end LexRun

end NginxConf
