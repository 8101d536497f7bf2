import NginxConf.Proofs.Lexeme.Scanner

/-!
# The lexemes tile the text

Lexemes leave no gap and do not overlap, each of them ends between two characters, and none of them
is empty but the one of a script that begins where the text ends (`lexFrom_text_ne_nil`). A scan
from any place between two characters comes to its end and gives such a row of pieces
(`scanFrom_partitions`).
-/

namespace NginxConf

variable {mode : Mode} {s : Text} {l : Lexeme} {init : List Lexeme}

/-- Ranges that lie one after the other, from one offset to another. -/
def Span.Adjoin : Nat → List Span → Nat → Prop
  | start, [], stop => start = stop
  | start, r :: rs, stop => r.start = start ∧ Adjoin r.stop rs stop

/-- The pieces of a text from an offset on. -/
structure ScanToken.Partition (s : Text) (offset : Nat) (tokens : List ScanToken) : Prop where
  adjoin : Span.Adjoin offset (tokens.map ScanToken.span) (Text.size s)
  isBoundary : ∀ t ∈ tokens, Text.isBoundary s t.span.start ∧ Text.isBoundary s t.span.stop
  nonempty : ∀ t ∈ tokens.dropLast, t.span.start < t.span.stop
  /-- Only a script that begins where the text ends is empty. -/
  last : ∀ t, tokens.getLast? = some t → t.span.start < t.span.stop ∨
    t = ⟨.token .malformed, .point (Text.size s), some .unterminatedLua⟩

/-! ## Empty lexemes -/

/-- A step takes something, unless a script begins where the text ends; then nothing follows. -/
theorem lexStep_text_ne_nil {step : LexStep} (h : lexStep mode s = some step) :
    step.lexeme.text ≠ [] ∨ (step.lexeme = .malformed .unterminatedLua [] ∧
      lexFrom step.mode step.rest = []) := by
  unfold lexStep at h
  split at h
  · split at h
    · cases h
      cases s with
      | nil => exact .inr ⟨rfl, lexFrom_of_none rfl⟩
      | cons c s => exact .inl (List.cons_ne_nil c s)
    · exact .inl (lexPlain_text_ne_nil h)
    · next code rest hne hbody =>
      cases h
      exact .inl hne
  · exact .inl (lexPlain_text_ne_nil h)

/-- **Only the last lexeme of a text can be empty**, and only as the script that is missing. -/
theorem lexFrom_text_ne_nil (h : lexFrom mode s = init ++ [l]) :
    (∀ l' ∈ init, l'.text ≠ []) ∧ (l.text ≠ [] ∨ l = .malformed .unterminatedLua []) := by
  induction init generalizing mode s with
  | nil =>
    cases hstep : lexStep mode s with
    | none =>
      rw [lexFrom_of_none hstep] at h
      cases h
    | some step =>
      rw [lexFrom_of_some hstep] at h
      obtain ⟨rfl, -⟩ := List.cons.inj h
      exact ⟨by simp, (lexStep_text_ne_nil hstep).imp id And.left⟩
  | cons l' init ih =>
    cases hstep : lexStep mode s with
    | none =>
      rw [lexFrom_of_none hstep] at h
      cases h
    | some step =>
      rw [lexFrom_of_some hstep] at h
      obtain ⟨rfl, hrest⟩ := List.cons.inj h
      obtain ⟨hinit, hlast⟩ := ih hrest
      refine ⟨fun k hk => ?_, hlast⟩
      rcases List.mem_cons.1 hk with rfl | hk
      · rcases lexStep_text_ne_nil hstep with hne | ⟨-, hnil⟩
        · exact hne
        · -- something follows
          rw [hnil] at hrest
          simp at hrest
      · exact hinit k hk

/-! ## Places -/

theorem adjoin_placeLexemes (offset : Nat) (ls : List Lexeme) :
    Span.Adjoin offset ((placeLexemes offset ls).map Prod.snd)
      (offset + Text.size (ls.flatMap Lexeme.text)) := by
  induction ls generalizing offset with
  | nil => rfl
  | cons l ls ih =>
    refine ⟨rfl, ?_⟩
    rw [List.flatMap_cons, Text.size_append, ← Nat.add_assoc]
    exact ih _

theorem isBoundary_append (a b : Text) : Text.isBoundary (a ++ b) (Text.size a) = true := by
  rw [Text.isBoundary, Text.splitAt?_eq_some.2 ⟨rfl, rfl⟩]
  rfl

theorem isBoundary_placeLexemes (before : Text) (ls : List Lexeme) :
    ∀ p ∈ placeLexemes (Text.size before) ls,
      Text.isBoundary (before ++ ls.flatMap Lexeme.text) p.2.start ∧
        Text.isBoundary (before ++ ls.flatMap Lexeme.text) p.2.stop := by
  induction ls generalizing before with
  | nil => simp [placeLexemes]
  | cons l ls ih =>
    have hmore := ih (before ++ l.text)
    rw [Text.size_append, List.append_assoc, ← List.flatMap_cons] at hmore
    intro p hp
    rcases List.mem_cons.1 hp with rfl | hp
    · refine ⟨isBoundary_append _ _, ?_⟩
      have hstop := isBoundary_append (before ++ l.text) (ls.flatMap Lexeme.text)
      rw [Text.size_append, List.append_assoc] at hstop
      exact hstop
    · exact hmore p hp

/-- A lexeme with a text covers a range that is not empty. -/
theorem start_lt_stop_placeLexemes {offset : Nat} {ls : List Lexeme}
    (h : ∀ l ∈ ls, l.text ≠ []) : ∀ p ∈ placeLexemes offset ls, p.2.start < p.2.stop := by
  induction ls generalizing offset with
  | nil => simp [placeLexemes]
  | cons l ls ih =>
    intro p hp
    rcases List.mem_cons.1 hp with rfl | hp
    · have hsize := Text.size_eq_zero.not.2 (h l List.mem_cons_self)
      show offset < offset + Text.size l.text
      omega
    · exact ih (fun k hk => h k (List.mem_cons_of_mem _ hk)) p hp

/-- **The lexemes of the rest of a text partition it.** -/
theorem partition_placeLexemes (before rest : Text) :
    ScanToken.Partition (before ++ rest) (Text.size before)
      ((placeLexemes (Text.size before) (lex rest)).map ScanToken.ofPlaced) := by
  have hrest : (lex rest).flatMap Lexeme.text = rest := flatMap_text_lexFrom .normal rest
  have hspans : ∀ ps : List (Lexeme × Span),
      (ps.map ScanToken.ofPlaced).map ScanToken.span = ps.map Prod.snd := by
    intro ps
    rw [List.map_map]
    rfl
  refine ⟨?_, ?_, ?_, ?_⟩
  · rw [hspans, Text.size_append]
    have hadjoin := adjoin_placeLexemes (Text.size before) (lex rest)
    rwa [hrest] at hadjoin
  · intro t ht
    obtain ⟨p, hp, rfl⟩ := List.mem_map.1 ht
    have hboundary := isBoundary_placeLexemes before (lex rest) p hp
    rwa [hrest] at hboundary
  all_goals
    rcases List.eq_nil_or_concat (lex rest) with hnil | ⟨init, l, hlex⟩
    · rw [hnil]
      simp [placeLexemes]
    rw [List.concat_eq_append] at hlex
    have hplace := placeLexemes_append (Text.size before) init [l]
    rw [hlex, hplace, List.map_append]
    obtain ⟨hinit, hlast⟩ := lexFrom_text_ne_nil hlex
  · intro t ht
    simp only [placeLexemes, List.map_cons, List.map_nil, List.dropLast_concat] at ht
    obtain ⟨p, hp, rfl⟩ := List.mem_map.1 ht
    exact start_lt_stop_placeLexemes hinit p hp
  · intro t ht
    simp only [placeLexemes, List.map_cons, List.map_nil, List.getLast?_concat,
      Option.some.injEq] at ht
    subst ht
    rcases hlast with hne | rfl
    · have hsize := Text.size_eq_zero.not.2 hne
      refine .inl ?_
      simp only [ScanToken.ofPlaced, Lexeme.size]
      omega
    · -- what stands before the missing script is the whole text
      have htext : init.flatMap Lexeme.text = rest := by
        rw [hlex, List.flatMap_append] at hrest
        simpa [Lexeme.malformed] using hrest
      refine .inr ?_
      rw [htext, Text.size_append]
      rfl

/--
**Lexing terminates without a halt, and the lexemes tile the text.** From every place between two
characters of a text that a file can hold, the scan comes to its end; its pieces begin at that
place, each where the one before it ends, end between two characters, and reach to the end of the
text. None is empty, except that the last one can be the missing script at the end of the text.
-/
theorem scanFrom_partitions {s : Text} {offset : Nat} (hs : Text.size s < Overflow.offsetBound)
    (hoffset : Text.isBoundary s offset = true) :
    ∃ tokens, scanFrom s offset = .ok tokens ∧ ScanToken.Partition s offset tokens := by
  obtain ⟨⟨before, rest⟩, hcut⟩ := Option.isSome_iff_exists.1 hoffset
  have hafter : lexAfter? s offset = some (lex rest) := by
    rw [lexAfter?, hcut]
    rfl
  obtain ⟨rfl, rfl⟩ := Text.splitAt?_eq_some.1 hcut
  exact ⟨_, scanFrom_eq hs hafter, partition_placeLexemes before rest⟩

/-- A script that begins where the text ends, after a character of two bytes. -/
theorem scanFrom_partitions_missing_script :
    Text.size "é_by_lua_block \x7b".toList < Overflow.offsetBound ∧
      Text.isBoundary "é_by_lua_block \x7b".toList 2 = true ∧
      ∃ tokens, scanFrom "é_by_lua_block \x7b".toList 2 = .ok tokens ∧
        ScanToken.Partition "é_by_lua_block \x7b".toList 2 tokens :=
  ⟨by decide, by decide, scanFrom_partitions (by decide) (by decide)⟩

end NginxConf
