import NginxConf.Parse
import NginxConf.Proofs.Lexeme.Stage

/-!
# Which token may follow which

Trivia changes no stage, so the tokens of a text go from stage to stage as its lexemes do
(`fits_tokenize`). What follows from this for the tokens that a rule of the grammar may meet is said
by a few lemmas on `Stage.Fits`.
-/

namespace NginxConf

namespace Stage

/-- These tokens may come one after the other, up to the end of a text. -/
def Fits {α : Type} [Lexical α] : Stage → List α → Prop
  | stage, [] => stage.isOpen = true
  | stage, t :: ts =>
    Lexical.fault t = stage.fault (Lexical.kind t) ∧
      ∃ stage', stage.next (Lexical.kind t) = some stage' ∧ stage'.Fits ts

variable {stage : Stage}

/-- Trivia leaves the stage as it is. -/
theorem Accepts.of_trivia {l : Lexeme} {ls : List Lexeme} {kind : TriviaKind}
    (h : stage.Accepts (l :: ls)) (hkind : l.kind = .trivia kind) : stage.Accepts ls := by
  obtain ⟨-, stage', hnext, hmore⟩ := h
  rw [hkind, after] at hnext
  split at hnext
  · cases hnext
    exact hmore
  · cases hnext

theorem Accepts.splitTrailing {ls : List Lexeme} (h : stage.Accepts ls) :
    stage.Accepts (NginxConf.splitTrailing ls).2 := by
  induction ls with
  | nil => exact h
  | cons l ls ih =>
    rw [NginxConf.splitTrailing]
    split
    · exact h
    · next hkind => exact ih (h.of_trivia hkind)
    · exact h

/-- **The tokens of lexemes go from stage to stage as the lexemes do.** -/
theorem Accepts.fits_attachTrivia {ls : List Lexeme} (h : stage.Accepts ls) (offset : Nat)
    (leading : List Trivia) : stage.Fits (attachTrivia offset leading ls).tokens := by
  fun_induction attachTrivia offset leading ls generalizing stage with
  | case1 => exact h
  | case2 offset leading l ls kind hkind ih => exact ih (h.of_trivia hkind)
  | case3 offset leading l ls kind hkind token more =>
    rename_i ih
    obtain ⟨hfault, stage', hnext, hmore⟩ := h
    rw [hkind] at hfault hnext
    exact ⟨hfault, stage', hnext, ih hmore.splitTrailing⟩

/-! ## The next token -/

section Fits

variable {α : Type} [Lexical α] {stage' : Stage} {t : α} {ts rest : List α}

/-- No token of a text is its end. -/
theorem Fits.kind_ne_endOfFile (h : stage.Fits (t :: ts)) : Lexical.kind t ≠ .endOfFile := by
  obtain ⟨-, stage', hnext, -⟩ := h
  intro hkind
  rw [hkind] at hnext
  cases stage <;> cases hnext

theorem Fits.forall_ne_endOfFile (h : stage.Fits rest) :
    ∀ t ∈ rest, Lexical.kind t ≠ .endOfFile := by
  induction rest generalizing stage with
  | nil => simp
  | cons t ts ih =>
    have ht := h.kind_ne_endOfFile
    obtain ⟨-, stage', -, hmore⟩ := h
    exact List.forall_mem_cons.2 ⟨ht, ih hmore⟩

/-- Wherever a row of tokens is cut, there is a stage. -/
theorem Fits.drop (h : stage.Fits rest) (n : Nat) : ∃ stage' : Stage, stage'.Fits (rest.drop n) := by
  induction n generalizing stage rest with
  | zero => exact ⟨stage, h⟩
  | succ n ih =>
    cases rest with
    | nil => exact ⟨stage, h⟩
    | cons t ts =>
      obtain ⟨-, stage', -, hmore⟩ := h
      exact ih hmore

/-- Nothing comes after a malformed token. -/
theorem Fits.eq_nil_of_finished (h : finished.Fits rest) : rest = [] := by
  cases rest with
  | nil => rfl
  | cons t ts =>
    obtain ⟨-, stage', hnext, -⟩ := h
    cases Lexical.kind t <;> cases hnext

theorem next_malformed (h : stage.next .malformed = some stage') : stage' = finished := by
  cases stage <;> cases h <;> rfl

/-- After a closing brace, everything is as at the beginning. -/
theorem next_rightBrace (h : stage.next .rightBrace = some stage') : stage' = normal := by
  cases stage <;> cases h <;> rfl

/-- What can follow the opening brace of a script. -/
inductive ScriptBody : List α → Prop
  | code {u r ts} (hu : Lexical.kind u = .luaCode) (hr : Lexical.kind r = .rightBrace)
    (hfits : normal.Fits ts) : ScriptBody (u :: r :: ts)
  | empty {r ts} (hr : Lexical.kind r = .rightBrace) (hfits : normal.Fits ts) : ScriptBody (r :: ts)
  /-- The text ends before the script does. -/
  | cutOff {u} (hu : Lexical.kind u = .malformed) (hfault : Lexical.fault u = some .unterminatedLua) :
    ScriptBody [u]

theorem Fits.scriptBody (h : luaBody.Fits rest) : ScriptBody rest := by
  cases rest with
  | nil => cases h
  | cons u ts =>
    obtain ⟨hfault, stage', hnext, hmore⟩ := h
    cases hu : Lexical.kind u <;> rw [hu] at hnext hfault <;> cases hnext
    · exact .empty hu hmore
    · cases ts with
      | nil => cases hmore
      | cons r ts =>
        obtain ⟨-, stage', hnext, hmore⟩ := hmore
        have hr : Lexical.kind r = .rightBrace := by
          generalize Lexical.kind r = kind at hnext
          cases kind <;> first | rfl | cases hnext
        rw [hr] at hnext
        cases hnext
        exact .code hu hr hmore
    · rw [hmore.eq_nil_of_finished]
      exact .cutOff hu hfault

end Fits

end Stage

/-- **The tokens of a text go from stage to stage.** -/
theorem fits_tokenize (s : Text) : Stage.normal.Fits (tokenize s).tokens :=
  (accepts_lex s).fits_attachTrivia 0 []

end NginxConf
