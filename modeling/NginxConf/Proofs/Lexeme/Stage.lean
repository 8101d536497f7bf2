import NginxConf.Proofs.Lexeme.Splice

/-!
# Which lexeme may follow which

The mode of the lexer depends on nothing but the kinds of the lexemes before. A `Stage` is what is
left of a mode when the parentheses inside of a condition are not counted, together with two places
that have no mode of their own: after the code of a script, where only its `}` can come, and after a
malformed token, where nothing can.

The lexemes of a text go from stage to stage (`accepts_lex`), so whatever is to be known about their
order, and about why one of them is malformed, can be read off the stages.
-/

namespace NginxConf

/-- Where a row of lexemes has got to, as far as their kinds tell. -/
inductive Stage
  | normal
  /-- Right after `if`. -/
  | afterIf
  /-- Between the parentheses of a condition. -/
  | condition
  /-- Between a `*_by_lua_block` keyword and its `{`. -/
  | afterLuaKeyword
  /-- Right after the `{` that opens a script. -/
  | luaBody
  /-- Right after the code of a script. -/
  | luaEnd
  /-- After a malformed token. -/
  | finished
deriving DecidableEq, Repr

/-- Whether a token can stand in a condition, its end apart. -/
def TokenKind.staysInCondition (kind : TokenKind) : Bool := kind.isValue || kind == .operator

namespace Stage

/-- The stage after a token, if a token of this kind may come. -/
def next : Stage → TokenKind → Option Stage
  | condition, kind =>
    if kind.staysInCondition then some condition
    else if kind ∈ [.rightParen, .leftBrace, .rightBrace, .semicolon] then some normal
    else if kind = .malformed then some finished
    else none
  | luaBody, .luaCode => some luaEnd
  | luaBody, .rightBrace | luaEnd, .rightBrace => some normal
  | luaBody, .malformed => some finished
  | luaBody, _ | luaEnd, _ | finished, _ => none
  | afterIf, .leftParen => some condition
  | _, .leftParen | _, .rightParen | _, .operator | _, .luaCode | _, .endOfFile => none
  | _, .malformed => some finished
  | afterLuaKeyword, .leftBrace => some luaBody
  | afterLuaKeyword, .rightBrace | afterLuaKeyword, .semicolon => some normal
  | afterLuaKeyword, _ => some afterLuaKeyword
  | _, .ifKeyword => some afterIf
  | _, .luaKeyword => some afterLuaKeyword
  | _, _ => some normal

/-- Whether trivia may come, and whether the text may end. In a script neither is so. -/
def isOpen : Stage → Bool
  | luaBody | luaEnd => false
  | _ => true

/-- The stage after a lexeme, if one of this kind may come. -/
def after (stage : Stage) : LeafKind → Option Stage
  | .token kind => stage.next kind
  | .trivia _ => if stage.isOpen ∧ stage ≠ finished then some stage else none

/-- Why a token of this kind is malformed, if it is. -/
def fault (stage : Stage) (kind : TokenKind) : Option LexFault :=
  if kind = .malformed then
    some (if stage = luaBody then .unterminatedLua else .unterminatedString)
  else none

/-- Why a lexeme of this kind is malformed, if it is. -/
def faultAfter (stage : Stage) : LeafKind → Option LexFault
  | .token kind => stage.fault kind
  | .trivia _ => none

/-- These lexemes may come one after the other, up to the end of a text. -/
def Accepts : Stage → List Lexeme → Prop
  | stage, [] => stage.isOpen = true
  | stage, l :: ls =>
    l.fault = stage.faultAfter l.kind ∧ ∃ stage', stage.after l.kind = some stage' ∧ stage'.Accepts ls

theorem fault_of_ne {stage : Stage} {kind : TokenKind} (h : kind ≠ .malformed) :
    stage.fault kind = none := if_neg h

end Stage

/-! ## The stages of the lexer -/

/-- What a word can be, inside and outside of a condition. -/
def wordKinds : Bool → List TokenKind
  | true => [.operator, .variableName, .word]
  | false => [.ifKeyword, .setKeyword, .includeKeyword, .geoKeyword, .luaKeyword, .variableName, .word]

theorem classifyWord_mem (inCondition : Bool) (word : Text) :
    classifyWord inCondition word ∈ wordKinds inCondition := by
  cases inCondition with
  | true =>
    simp only [classifyWord, if_true]
    repeat' split
    all_goals decide
  | false =>
    simp only [classifyWord, Bool.false_eq_true, if_false]
    repeat' split
    all_goals decide

namespace Mode

/-- The stage that a mode is. -/
def stage : Mode → Stage
  | normal => .normal
  | afterIf => .afterIf
  | condition _ => .condition
  | afterLuaKeyword => .afterLuaKeyword
  | luaBody => .luaBody

@[simp]
theorem stage_withDepth (mode : Mode) (depth : Option Nat) :
    (mode.withDepth depth).stage = mode.stage := by
  cases mode <;> cases depth <;> rfl

theorem withDepth_ne_luaBody {mode : Mode} (h : mode ≠ .luaBody) (depth : Option Nat) :
    mode.withDepth depth ≠ .luaBody := by
  cases mode <;> cases depth <;> first | exact h | simp [withDepth]

/-- A word takes the lexer from stage to stage. -/
theorem stage_next_of_word {mode : Mode} {kind : TokenKind} (hbody : mode ≠ .luaBody)
    (hkind : kind ∈ wordKinds mode.depth?.isSome) :
    mode.stage.next kind = some (mode.afterToken kind).stage := by
  cases mode with
  | luaBody => exact absurd rfl hbody
  | condition depth =>
    simp only [depth?, Option.isSome_some, wordKinds, List.mem_cons, List.not_mem_nil,
      or_false] at hkind
    rcases hkind with rfl | rfl | rfl <;> rfl
  | _ =>
    simp only [depth?, Option.isSome_none, wordKinds, List.mem_cons, List.not_mem_nil,
      or_false] at hkind
    rcases hkind with rfl | rfl | rfl | rfl | rfl | rfl | rfl <;> rfl

/-- A malformed token opens no script. -/
theorem afterToken_malformed_ne (mode : Mode) : mode.afterToken .malformed ≠ .luaBody := by
  cases mode <;> simp [afterToken]

theorem stage_next_malformed (mode : Mode) : mode.stage.next .malformed = some .finished := by
  cases mode <;> rfl

end Mode

theorem stage_next_punctuation {mode : Mode} {c : Char} {kind : TokenKind}
    (hbody : mode ≠ .luaBody) (h : punctuation? mode c = some kind) :
    mode.stage.next kind = some (mode.afterToken kind).stage := by
  unfold punctuation? at h
  split at h
  · cases h
    cases mode <;> first | exact absurd rfl hbody | rfl
  split at h
  · cases h
    cases mode <;> first | exact absurd rfl hbody | rfl
  split at h
  · cases h
    cases mode <;> rfl
  split at h
  · next hopen =>
    cases h
    rw [hopen.2]
    rfl
  split at h
  · next hclose =>
    cases h
    rw [hclose.2]
    rfl
  · cases h

/-- What a step of the lexer does to the stage: it becomes that of the new mode, unless a script ends
or a token is malformed. -/
structure LexStep.Advances (stage : Stage) (step : LexStep) (stage' : Stage) : Prop where
  after_eq : stage.after step.lexeme.kind = some stage'
  stage_eq : stage' = step.mode.stage ∨
    stage' = .luaEnd ∧ step.mode = .normal ∧ step.rest.head? = some '}' ∨
    stage' = .finished ∧ step.mode ≠ .luaBody ∧ step.rest = []

namespace LexStep

variable {mode : Mode} {c : Char} {rest : Text}

theorem significant_advances (hbody : mode ≠ .luaBody) :
    ∃ stage', Advances mode.stage (significant mode c rest) stage' := by
  unfold significant
  split
  · split
    · refine ⟨(mode.afterToken .string).stage, ?_, .inl rfl⟩
      cases mode <;> first | exact absurd rfl hbody | rfl
    · exact ⟨.finished, mode.stage_next_malformed,
        .inr (.inr ⟨rfl, mode.afterToken_malformed_ne, rfl⟩)⟩
  · split
    · next kind hkind =>
      exact ⟨(mode.afterToken kind).stage, stage_next_punctuation hbody hkind, .inl rfl⟩
    · -- the word may change how many parentheses are open, which no stage tells
      refine ⟨_, ?_, .inl rfl⟩
      have hdepth : (mode.withDepth (scanWord mode.depth? (c :: rest)).depth).depth?.isSome
          = mode.depth?.isSome := by
        cases mode <;> cases (scanWord _ (c :: rest)).depth <;> rfl
      rw [← mode.stage_withDepth (scanWord mode.depth? (c :: rest)).depth]
      refine Mode.stage_next_of_word (Mode.withDepth_ne_luaBody hbody _) ?_
      rw [hdepth]
      exact classifyWord_mem _ _

theorem plain_advances (hbody : mode ≠ .luaBody) :
    ∃ stage', Advances mode.stage (plain mode c rest) stage' := by
  have trivia : ∀ (kind : TriviaKind) (text rest : Text),
      ∃ stage', Advances mode.stage (ofLexeme mode (.trivia kind text) rest) stage' := by
    intro kind text rest
    refine ⟨mode.stage, ?_, .inl rfl⟩
    cases mode <;> first | exact absurd rfl hbody | rfl
  unfold plain
  split
  · exact trivia _ _ _
  split
  · exact trivia _ _ _
  split
  · exact trivia _ _ _
  split
  · exact trivia _ _ _
  · exact significant_advances hbody

end LexStep

/-- **Each step of the lexer goes on to a stage.** -/
theorem lexStep_advances {mode : Mode} {s : Text} {step : LexStep}
    (h : lexStep mode s = some step) : ∃ stage', LexStep.Advances mode.stage step stage' := by
  unfold lexStep at h
  by_cases hmode : mode = .luaBody
  · rw [if_pos hmode] at h
    subst hmode
    cases hbody : Lua.body 0 s with
    | none =>
      rw [hbody] at h
      cases h
      exact ⟨.finished, rfl, .inr (.inr ⟨rfl, by simp [LexStep.ofLexeme, Mode.after, Mode.afterToken,
        Lexeme.malformed], rfl⟩)⟩
    | some cut =>
      obtain ⟨code, after⟩ := cut
      have hbrace := Lua.body_snd hbody
      rw [hbody] at h
      cases code with
      | nil =>
        -- the script is empty: its closing brace is the lexeme
        obtain ⟨t, rfl⟩ := List.head?_eq_some_iff.1 hbrace
        rw [← Lua.body_append hbody] at h
        cases h
        exact ⟨.normal, rfl, .inl rfl⟩
      | cons c code =>
        cases h
        exact ⟨.luaEnd, rfl, .inr (.inl ⟨rfl, rfl, hbrace⟩)⟩
  · rw [if_neg hmode] at h
    cases s with
    | nil => cases h
    | cons c rest =>
      cases h
      exact LexStep.plain_advances hmode

/-! ## Why a lexeme is malformed -/

/-- A lexeme of the shape of its kind that is not malformed. -/
theorem Lexeme.Shaped.faultAfter_eq {l : Lexeme} (h : l.Shaped) (hfault : l.fault = none)
    (stage : Stage) : stage.faultAfter l.kind = none := by
  have hkind : l.kind ≠ .token .malformed := fun hkind => by
    have := h.isFaulty_iff.2 hkind
    rw [hfault] at this
    cases this
  cases hk : l.kind with
  | trivia => rfl
  | token kind => exact Stage.fault_of_ne fun h => hkind (hk.trans (congrArg _ h))

/-- Where no script begins, only a string can be malformed. -/
theorem LexStep.plain_fault (mode : Mode) (c : Char) (rest : Text) :
    (plain mode c rest).lexeme.fault = none ∨
      (plain mode c rest).lexeme = .malformed .unterminatedString (c :: rest) := by
  unfold plain
  split
  · exact .inl rfl
  split
  · exact .inl rfl
  split
  · exact .inl rfl
  split
  · exact .inl rfl
  unfold significant
  split
  · split
    · exact .inl rfl
    · exact .inr rfl
  · split <;> exact .inl rfl

/-- **The stage tells why a lexeme is malformed.** -/
theorem lexStep_fault {mode : Mode} {s : Text} {step : LexStep} (h : lexStep mode s = some step) :
    step.lexeme.fault = mode.stage.faultAfter step.lexeme.kind := by
  cases hfault : step.lexeme.fault with
  | none => exact ((lexStep_shaped h).faultAfter_eq hfault _).symm
  | some fault =>
    unfold lexStep at h
    by_cases hmode : mode = .luaBody
    · rw [if_pos hmode] at h
      subst hmode
      split at h
      · cases h
        cases hfault
        rfl
      · next hbody =>
        -- an empty script is followed by its closing brace
        obtain ⟨t, ht⟩ := List.head?_eq_some_iff.1 (Lua.body_snd hbody)
        rw [← Lua.body_append hbody, ht] at h
        cases h
        cases hfault
      · cases h
        cases hfault
    · rw [if_neg hmode] at h
      cases s with
      | nil => cases h
      | cons c rest =>
        cases h
        rcases LexStep.plain_fault mode c rest with hplain | hplain
        · rw [hplain] at hfault
          cases hfault
        · rw [hplain] at hfault ⊢
          cases hfault
          cases mode <;> first | exact absurd rfl hmode | rfl

/-! ## The lexemes of a text -/

/-- The text does not end in a script. -/
theorem isOpen_of_lexStep_eq_none {mode : Mode} {s : Text} (h : lexStep mode s = none) :
    mode.stage.isOpen = true := by
  cases mode with
  | luaBody =>
    simp only [lexStep, if_true] at h
    cases hbody : Lua.body 0 s with
    | none => rw [hbody] at h; cases h
    | some cut =>
      obtain ⟨code, after⟩ := cut
      obtain ⟨t, rfl⟩ := List.head?_eq_some_iff.1 (Lua.body_snd hbody)
      rw [hbody] at h
      cases code with
      | nil => rw [← Lua.body_append hbody] at h; cases h
      | cons c code => cases h
  | _ => rfl

/-- **The lexemes of a text go from stage to stage.** -/
theorem accepts_lexFrom (mode : Mode) (s : Text) : mode.stage.Accepts (lexFrom mode s) := by
  fun_induction lexFrom mode s with
  | case1 mode s h => exact isOpen_of_lexStep_eq_none h
  | case2 mode s step h ih =>
    obtain ⟨stage', hafter, hstage⟩ := lexStep_advances h
    refine ⟨lexStep_fault h, stage', hafter, ?_⟩
    rcases hstage with rfl | ⟨rfl, hmode, hrest⟩ | ⟨rfl, hmode, hrest⟩
    · exact ih
    · -- the code of a script is followed by its closing brace
      obtain ⟨t, ht⟩ := List.head?_eq_some_iff.1 hrest
      rw [ht, lexFrom_rightBrace] at ih ⊢
      rw [hmode] at ih
      obtain ⟨hfault, stage'', hnext, hmore⟩ := ih
      cases hnext
      exact ⟨rfl, .normal, rfl, hmore⟩
    · -- a malformed token reaches to the end
      have hnone : lexStep step.mode [] = none := by
        rw [lexStep, if_neg hmode]
        rfl
      rw [hrest, lexFrom_of_none hnone]
      rfl

theorem accepts_lex (s : Text) : Stage.normal.Accepts (lex s) := accepts_lexFrom .normal s

end NginxConf
