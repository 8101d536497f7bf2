import NginxConf.Proofs.Lexeme.Partition
import NginxConf.Proofs.Lexeme.Restart
import NginxConf.Proofs.Lexeme.Stage

/-!
# What stands before a lexeme

The lexer decides by its mode what a parenthesis, an operator or a script is. What the mode stands
for is a fact about the lexemes before (`Stage.Holds`): a condition has been opened and not closed,
or a keyword of a script stands before its `{`. Each lexeme that may come keeps this fact
(`Stage.Holds.after`), so it is known at every lexeme of a text, and with it what must stand before
parentheses, operators and scripts (`disciplined_lex`).
-/

namespace NginxConf

/-- In the row there is a token of this kind, and only lexemes of such kinds stand behind it. -/
def Since (kind : TokenKind) (between : LeafKind → Prop) (row : List LeafKind) : Prop :=
  ∃ earlier middle, row = earlier ++ .token kind :: middle ∧ ∀ k ∈ middle, between k

section Since

variable {kind : TokenKind} {between : LeafKind → Prop} {row : List LeafKind} {k : LeafKind}

theorem Since.here : Since kind between (row ++ [.token kind]) := ⟨row, [], rfl, by simp⟩

theorem Since.after (h : Since kind between row) (hk : between k) :
    Since kind between (row ++ [k]) := by
  obtain ⟨earlier, middle, rfl, hmiddle⟩ := h
  refine ⟨earlier, middle ++ [k], by simp, fun k' hk' => ?_⟩
  rcases List.mem_append.1 hk' with hk' | hk'
  · exact hmiddle k' hk'
  · exact List.mem_singleton.1 hk' ▸ hk

end Since

namespace LeafKind

/-- The lexeme is trivia. -/
def IsTrivia : LeafKind → Prop
  | .trivia _ => True
  | .token _ => False

/-- The lexeme can stand between the parentheses of a condition. -/
def InCondition : LeafKind → Prop
  | .trivia _ => True
  | .token kind => kind ∈ [.word, .variableName, .string, .operator]

/-- The lexeme neither ends a statement nor opens or closes a block. -/
def NotStructural (kind : LeafKind) : Prop :=
  kind ∉ [.token .semicolon, .token .leftBrace, .token .rightBrace]

end LeafKind

/-! ## What the stages stand for -/

namespace Stage

/-- What stands before, where such a stage has been reached. -/
def Holds (row : List LeafKind) : Stage → Prop
  | afterIf => Since .ifKeyword LeafKind.IsTrivia row
  | condition => Since .leftParen LeafKind.InCondition row
  | afterLuaKeyword => Since .luaKeyword LeafKind.NotStructural row
  | luaBody => ∃ earlier, row = earlier ++ [.token .leftBrace] ∧
      Since .luaKeyword LeafKind.NotStructural earlier
  | normal | luaEnd | finished => True

variable {row : List LeafKind} {stage stage' : Stage} {kind : LeafKind}

/-- A condition goes on with what can stand in one. -/
theorem inCondition_of_next {kind : TokenKind} (h : condition.next kind = some condition) :
    LeafKind.InCondition (.token kind) := by
  cases kind <;> first | (simp [LeafKind.InCondition]; done) | cases h

/-- A keyword of a script is waiting for its `{` until the statement or the block ends. -/
theorem notStructural_of_next {kind : TokenKind}
    (h : afterLuaKeyword.next kind = some afterLuaKeyword) :
    LeafKind.NotStructural (.token kind) := by
  cases kind <;> first | (simp [LeafKind.NotStructural]; done) | cases h

/-- **What a stage stands for is kept by each lexeme.** -/
theorem Holds.after (h : Holds row stage) (hnext : stage.after kind = some stage') :
    Holds (row ++ [kind]) stage' := by
  cases kind with
  | trivia k =>
    rw [Stage.after] at hnext
    split at hnext
    · cases hnext
      cases stage with
      | afterIf => exact Since.after h trivial
      | condition => exact Since.after h trivial
      | afterLuaKeyword => exact Since.after h (by simp [LeafKind.NotStructural])
      | luaBody => simp_all [isOpen]
      | normal | luaEnd | finished => trivial
    · cases hnext
  | token k =>
    rw [Stage.after] at hnext
    cases stage' with
    | normal | luaEnd | finished => trivial
    | afterIf =>
      have hk : k = .ifKeyword := by
        cases stage <;> cases k <;> first | rfl | cases hnext
      exact hk ▸ Since.here
    | condition =>
      by_cases hstage : stage = .condition
      · subst hstage
        exact Since.after h (inCondition_of_next hnext)
      · have hk : k = .leftParen := by
          cases stage <;> cases k <;> first | rfl | exact absurd rfl hstage | cases hnext
        exact hk ▸ Since.here
    | afterLuaKeyword =>
      by_cases hstage : stage = .afterLuaKeyword
      · subst hstage
        exact Since.after h (notStructural_of_next hnext)
      · have hk : k = .luaKeyword := by
          cases stage <;> cases k <;> first | rfl | exact absurd rfl hstage | cases hnext
        exact hk ▸ Since.here
    | luaBody =>
      have hk : stage = .afterLuaKeyword ∧ k = .leftBrace := by
        cases stage <;> cases k <;> first | exact ⟨rfl, rfl⟩ | cases hnext
      obtain ⟨rfl, rfl⟩ := hk
      exact ⟨row, rfl, h⟩

/-- **At each lexeme of a row, a stage has been reached that the lexeme may follow.** -/
theorem Accepts.exists_at {before after : List Lexeme} {l : Lexeme}
    (h : stage.Accepts (before ++ l :: after)) (hrow : Holds row stage) :
    ∃ here there, Holds (row ++ before.map Lexeme.kind) here ∧ here.after l.kind = some there ∧
      there.Accepts after := by
  induction before generalizing stage row with
  | nil =>
    obtain ⟨-, there, hthere, hmore⟩ := h
    exact ⟨stage, there, (List.append_nil row).symm ▸ hrow, hthere, hmore⟩
  | cons k before ih =>
    obtain ⟨-, next, hnext, hmore⟩ := h
    obtain ⟨here, there, hhere, hthere⟩ := ih hmore (hrow.after hnext)
    rw [List.append_assoc, List.singleton_append] at hhere
    exact ⟨here, there, hhere, hthere⟩

/-- Nothing comes after a malformed token. -/
theorem Accepts.eq_nil_of_finished {ls : List Lexeme} (h : finished.Accepts ls) : ls = [] := by
  cases ls with
  | nil => rfl
  | cons l ls =>
    obtain ⟨-, next, hnext, -⟩ := h
    cases hkind : l.kind <;> rw [hkind] at hnext <;> cases hnext

/-- The closing brace comes after the code of a script. -/
theorem Accepts.exists_of_luaEnd {ls : List Lexeme} (h : luaEnd.Accepts ls) :
    ∃ more, ls.map Lexeme.kind = .token .rightBrace :: more := by
  cases ls with
  | nil => cases h
  | cons l ls =>
    obtain ⟨-, next, hnext, -⟩ := h
    cases hkind : l.kind with
    | trivia => rw [hkind] at hnext; cases hnext
    | token kind =>
      rw [hkind] at hnext
      have hbrace : kind = .rightBrace := by
        cases kind <;> first | rfl | cases hnext
      exact ⟨ls.map Lexeme.kind, by rw [List.map_cons, hkind, hbrace]⟩

end Stage

/-! ## The lexemes of a text -/

/-- What is known of the lexemes of a text with their ranges, of each one by those around it. -/
structure Disciplined (s : Text) (row : List (Lexeme × Span)) : Prop where
  isFaulty_iff : ∀ p ∈ row, p.1.fault.isSome ↔ p.1.kind = .token .malformed
  /-- A malformed token is the last lexeme and ends where the text does. -/
  malformed : ∀ before l span after, row = before ++ (l, span) :: after →
    l.kind = .token .malformed → after = [] ∧ span.stop = Text.size s
  /-- A condition is opened right after `if`. -/
  leftParen : ∀ before l span after, row = before ++ (l, span) :: after →
    l.kind = .token .leftParen →
    Since .ifKeyword LeafKind.IsTrivia (before.map fun p => p.1.kind)
  /-- Operators and the end of a condition come behind its beginning, and nothing in between opens
  another one, is a keyword, or ends a statement. -/
  inCondition : ∀ before l span after, row = before ++ (l, span) :: after →
    l.kind = .token .rightParen ∨ l.kind = .token .operator →
    Since .leftParen LeafKind.InCondition (before.map fun p => p.1.kind)
  /-- A script stands right between two braces, and its keyword before them in the statement. -/
  luaCode : ∀ before l span after, row = before ++ (l, span) :: after →
    l.kind = .token .luaCode →
    l.text ≠ [] ∧
    (∃ earlier, before.map (fun p => p.1.kind) = earlier ++ [.token .leftBrace] ∧
      Since .luaKeyword LeafKind.NotStructural earlier) ∧
    ∃ more, after.map (fun p => p.1.kind) = .token .rightBrace :: more

theorem map_fst_placeLexemes (offset : Nat) (ls : List Lexeme) :
    (placeLexemes offset ls).map Prod.fst = ls := by
  induction ls generalizing offset with
  | nil => rfl
  | cons l ls ih => rw [placeLexemes, List.map_cons, ih]

/-- The last lexeme ends where the text does. -/
theorem stop_of_placeLexemes {offset : Nat} {ls : List Lexeme} {before : List (Lexeme × Span)}
    {p : Lexeme × Span} (h : placeLexemes offset ls = before ++ [p]) :
    p.2.stop = offset + Text.size (ls.flatMap Lexeme.text) := by
  have hadjoin := adjoin_placeLexemes offset ls
  rw [h, List.map_append] at hadjoin
  generalize offset + Text.size (ls.flatMap Lexeme.text) = stop at hadjoin ⊢
  clear h
  induction before generalizing offset with
  | nil => exact hadjoin.2
  | cons q before ih => exact ih hadjoin.2

/-- **The lexemes of a text are disciplined**: which of them may stand where is settled by those
before. -/
theorem disciplined_lex (s : Text) : Disciplined s (placeLexemes 0 (lex s)) := by
  have hshaped : ∀ p ∈ placeLexemes 0 (lex s), p.1.Shaped := fun p hp =>
    lexFrom_shaped (show p.1 ∈ lex s from map_fst_placeLexemes 0 (lex s) ▸ List.mem_map_of_mem hp)
  -- the stage at a lexeme, with what stands before and what comes behind
  have hstage : ∀ before l span after, placeLexemes 0 (lex s) = before ++ (l, span) :: after →
      ∃ here there : Stage, here.Holds (before.map fun p => p.1.kind) ∧
        here.after l.kind = some there ∧ there.Accepts (after.map Prod.fst) := by
    intro before l span after hrow
    have haccepts := accepts_lex s
    rw [← map_fst_placeLexemes 0 (lex s), hrow, List.map_append, List.map_cons] at haccepts
    obtain ⟨here, there, hhere, hnext, hafter⟩ :=
      haccepts.exists_at (show Stage.normal.Holds [] from trivial)
    rw [List.map_map] at hhere
    exact ⟨here, there, hhere, hnext, hafter⟩
  constructor
  · exact fun p hp => (hshaped p hp).isFaulty_iff
  · intro before l span after hrow hkind
    obtain ⟨here, there, -, hnext, hafter⟩ := hstage before l span after hrow
    rw [hkind] at hnext
    have hthere : there = .finished := by
      cases here <;> cases hnext <;> rfl
    rw [hthere] at hafter
    have hnil : after = [] := List.map_eq_nil_iff.1 hafter.eq_nil_of_finished
    subst hnil
    refine ⟨rfl, ?_⟩
    rw [show span.stop = (l, span).2.stop from rfl, stop_of_placeLexemes hrow, Nat.zero_add, lex,
      flatMap_text_lexFrom]
  · intro before l span after hrow hkind
    obtain ⟨here, there, hhere, hnext, -⟩ := hstage before l span after hrow
    rw [hkind] at hnext
    cases here with
    | afterIf => exact hhere
    | _ => cases hnext
  · intro before l span after hrow hkind
    obtain ⟨here, there, hhere, hnext, -⟩ := hstage before l span after hrow
    cases here with
    | condition => exact hhere
    | _ => rcases hkind with hkind | hkind <;> rw [hkind] at hnext <;> cases hnext
  · intro before l span after hrow hkind
    obtain ⟨here, there, hhere, hnext, hafter⟩ := hstage before l span after hrow
    have hl := hshaped (l, span) (by rw [hrow]; simp)
    have hfault : l.fault = none := by
      cases hf : l.fault with
      | none => rfl
      | some fault =>
        have := hl.isFaulty_iff.1 (by rw [hf]; rfl)
        rw [hkind] at this
        cases this
    rw [hkind] at hnext
    cases here with
    | luaBody =>
      cases hnext
      have hclose := hafter.exists_of_luaEnd
      rw [List.map_map] at hclose
      exact ⟨hl.text_ne_nil hfault, hhere, hclose⟩
    | _ => cases hnext

end NginxConf
