import Mathlib.Algebra.Ring.Int.Defs
import NginxConf.Proofs.Lexeme.Stage
import NginxConf.Proofs.Lexeme.Words

/-!
# The parentheses of a condition

The lexer counts parentheses in the words of a condition, to tell the `)` that closes it from one
that closes a group of a regular expression. Its count goes on from word to word, whatever stands
between them, and never goes below zero (`Counts`).

A `)` that would take it there is not counted: it ends the word and closes the condition. So the
parentheses that are counted between the two of a condition are balanced (`parentheses_balance`).
-/

namespace NginxConf

/-- The parentheses of a word, `1` for each that opens and `-1` for each that closes. One in an
escape pair or between the braces of a variable is none. -/
def parenMarks : Text → List Int
  | [] => []
  | '\\' :: _ :: rest => parenMarks rest
  | '$' :: '{' :: rest => parenMarks (rest.dropWhile (!endsWord ·))
  | '(' :: rest => 1 :: parenMarks rest
  | ')' :: rest => -1 :: parenMarks rest
  | _ :: rest => parenMarks rest
termination_by s => s.length
decreasing_by
  all_goals simp only [List.length_cons]
  all_goals first
    | omega
    | exact Nat.lt_of_le_of_lt (List.dropWhile_sublist _).length_le (by omega)

/-- The parentheses that count in a lexeme: those of words, variables and operators. -/
def Lexeme.parenMarks (l : Lexeme) : List Int :=
  if l.kind ∈ [.token .word, .token .variableName, .token .operator] then
    NginxConf.parenMarks l.text
  else []

/-- Nothing is closed that has not been opened, and nothing is left open. -/
structure Balanced (marks : List Int) : Prop where
  nonneg : ∀ n, 0 ≤ (marks.take n).sum
  sum_eq : marks.sum = 0
  closes : ∀ n, marks[n]? = some (-1) → 0 < (marks.take n).sum

/-- The marks take a count of open parentheses to another one, and it is above zero wherever one is
closed. -/
inductive Counts : Nat → List Int → Nat → Prop
  | nil (d : Nat) : Counts d [] d
  | opens {d e : Nat} {marks : List Int} (h : Counts (d + 1) marks e) : Counts d (1 :: marks) e
  | closes {d e : Nat} {marks : List Int} (h : Counts d marks e) : Counts (d + 1) (-1 :: marks) e

namespace Counts

variable {d e f : Nat} {marks more : List Int}

theorem append (h : Counts d marks e) (hmore : Counts e more f) : Counts d (marks ++ more) f := by
  induction h with
  | nil => exact hmore
  | opens h ih => exact .opens (ih hmore)
  | closes h ih => exact .closes (ih hmore)

/-- The count is the sum of the marks. -/
theorem sum_eq (h : Counts d marks e) : d + marks.sum = e := by
  induction h with
  | nil => simp
  | opens h ih =>
    rw [List.sum_cons, ← ih]
    omega
  | closes h ih =>
    rw [List.sum_cons, ← ih]
    omega

/-- A row that is counted can be cut anywhere. -/
theorem exists_take (h : Counts d marks e) (n : Nat) : ∃ k, Counts d (marks.take n) k := by
  induction h generalizing n with
  | nil d => exact ⟨d, by rw [List.take_nil]; exact .nil d⟩
  | @opens d e marks h ih =>
    cases n with
    | zero => exact ⟨d, .nil d⟩
    | succ n =>
      obtain ⟨k, hk⟩ := ih n
      exact ⟨k, .opens hk⟩
  | @closes d e marks h ih =>
    cases n with
    | zero => exact ⟨d + 1, .nil _⟩
    | succ n =>
      obtain ⟨k, hk⟩ := ih n
      exact ⟨k, .closes hk⟩

/-- Where one is closed, one is open. -/
theorem pos_of_closes (h : Counts d marks e) {n : Nat} (hn : marks[n]? = some (-1)) :
    0 < d + (marks.take n).sum := by
  induction h generalizing n with
  | nil => cases hn
  | opens h ih =>
    cases n with
    | zero => cases hn
    | succ n =>
      have := ih (n := n) hn
      rw [List.take_succ_cons, List.sum_cons]
      omega
  | closes h ih =>
    cases n with
    | zero =>
      rw [List.take_zero, List.sum_nil]
      omega
    | succ n =>
      have := ih (n := n) hn
      rw [List.take_succ_cons, List.sum_cons]
      omega

/-- **What takes the count from zero to zero is balanced.** -/
theorem balanced (h : Counts 0 marks 0) : Balanced marks := by
  refine ⟨fun n => ?_, ?_, fun n hn => ?_⟩
  · obtain ⟨k, hk⟩ := h.exists_take n
    have := hk.sum_eq
    omega
  · have := h.sum_eq
    omega
  · have := h.pos_of_closes hn
    omega

end Counts

/-! ## In units -/

theorem parenMarks_of_run {name : Text} (hname : ∀ c ∈ name, endsWord c = false) (rest : Text) :
    parenMarks ('$' :: '{' :: (name ++ rest)) = parenMarks (rest.dropWhile (!endsWord ·)) := by
  rw [parenMarks, List.dropWhile_append_of_pos (by simpa using hname)]

theorem parenMarks_of_name {name : Text} (hname : ∀ c ∈ name, endsWord c = false) :
    parenMarks ('$' :: '{' :: name) = [] := by
  have hrun := parenMarks_of_run hname []
  rwa [List.append_nil, List.dropWhile_nil, parenMarks] at hrun

/-- A character that begins neither an escape pair nor a run counts by itself. -/
theorem parenMarks_cons {c : Char} {rest : Text} (hescape : c ≠ '\\')
    (hrun : ¬ (c = '$' ∧ rest.head? = some '{')) :
    parenMarks (c :: rest) = parenMarks [c] ++ parenMarks rest := by
  by_cases hopen : c = '('
  · subst hopen
    simp [parenMarks]
  by_cases hclose : c = ')'
  · subst hclose
    simp [parenMarks]
  have hplain : ∀ more : Text, ¬ (c = '$' ∧ more.head? = some '{') →
      parenMarks (c :: more) = parenMarks more := by
    intro more hmore
    rw [parenMarks.eq_def]
    split <;> simp_all
  rw [hplain rest hrun, hplain [] (by simp), parenMarks, List.nil_append]

/-- **The parentheses of a word are those of its units.** -/
theorem WordUnit.parenMarks_append {u s t : Text} (h : WordUnit u (s ++ t)) :
    parenMarks (u ++ s) = parenMarks u ++ parenMarks s := by
  generalize hrest : s ++ t = rest at h
  cases h with
  | escape c rest => simp [parenMarks]
  | lastBackslash =>
    obtain ⟨rfl, rfl⟩ := List.append_eq_nil_iff.1 hrest
    simp [parenMarks]
  | @closedRun name hname rest =>
    have hbrace : parenMarks ('}' :: s) = parenMarks s := by
      rw [parenMarks_cons (by decide) (by simp)]
      simp [parenMarks]
    rw [List.cons_append, List.cons_append, List.append_assoc, parenMarks_of_run hname,
      parenMarks_of_run hname]
    simp [endsWord, parenMarks, hbrace]
  | @openRun name rest hname hends =>
    -- the run does not go on into what follows
    have hdrop : s.dropWhile (!endsWord ·) = s := by
      cases s with
      | nil => rfl
      | cons c s => simp [(hends c (by simp [← hrest])).1]
    rw [List.cons_append, List.cons_append, parenMarks_of_run hname, hdrop,
      parenMarks_of_name hname, List.nil_append]
  | single hc hescape hrun =>
    refine parenMarks_cons hescape ?_
    rintro ⟨rfl, hhead⟩
    exact hrun ⟨rfl, by rw [← hrest, List.head?_append, show s.head? = some '{' from hhead]; rfl⟩

/-- A unit counts by what it is, where a `)` has something to close. -/
theorem WordUnit.counts {u rest : Text} (h : WordUnit u rest) {d : Nat}
    (hclose : u = [')'] → 0 < d) :
    ∃ e, countParens (some d) u = some e ∧ Counts d (parenMarks u) e := by
  cases h with
  | escape c rest => exact ⟨d, rfl, by simpa [parenMarks] using Counts.nil d⟩
  | lastBackslash => exact ⟨d, rfl, by simpa [parenMarks] using Counts.nil d⟩
  | closedRun hname rest =>
    refine ⟨d, rfl, ?_⟩
    rw [parenMarks_of_run hname]
    simpa [endsWord, parenMarks] using Counts.nil d
  | openRun hname hends =>
    refine ⟨d, rfl, ?_⟩
    rw [parenMarks_of_name hname]
    exact .nil d
  | @single c rest hc hescape hrun =>
    by_cases hopen : c = '('
    · subst hopen
      exact ⟨d + 1, rfl, by simpa [parenMarks] using Counts.opens (.nil (d + 1))⟩
    by_cases hshut : c = ')'
    · subst hshut
      obtain ⟨e, rfl⟩ := Nat.exists_eq_succ_of_ne_zero (Nat.pos_iff_ne_zero.1 (hclose rfl))
      exact ⟨e, rfl, by simpa [parenMarks] using Counts.closes (.nil e)⟩
    refine ⟨d, by unfold countParens; split <;> simp_all, ?_⟩
    have hnone : parenMarks [c] = [] := by
      rw [parenMarks.eq_def]
      split <;> simp_all [parenMarks]
    rw [hnone]
    exact .nil d

/-! ## In words -/

/-- Where a word of a condition does not stop, its next unit counts, and closes nothing that is not
open. -/
theorem counts_takeUnit {d : Nat} {s : Text} (hs : ¬ stopsWord (some d) s = true) :
    ((takeUnit s).1 = [')'] → 0 < d) ∧ ∃ e, countParens (some d) (takeUnit s).1 = some e ∧
      Counts d (parenMarks (takeUnit s).1) e := by
  obtain ⟨c, rest, rfl, hc⟩ := exists_cons_of_stopsWord hs
  have hclose : (takeUnit (c :: rest)).1 = [')'] → 0 < d := by
    intro hunit
    have htext := takeUnit_append (c :: rest)
    rw [hunit] at htext
    obtain ⟨rfl, -⟩ := List.cons.inj htext
    refine Nat.pos_of_ne_zero ?_
    rintro rfl
    exact hs rfl
  exact ⟨hclose, (wordUnit_takeUnit hc rest).counts hclose⟩

/-- **A word of a condition counts its parentheses**, and closes none that is not open. -/
theorem counts_scanWord {d : Nat} {s : Text} (hs : ¬ stopsWord (some d) s = true) :
    (∃ e, (scanWord (some d) s).depth = some e ∧
      Counts d (parenMarks (scanWord (some d) s).word) e) ∧
    ∀ e, (some e, [')']) ∈ scanUnits (some d) s → 0 < e := by
  obtain ⟨hclose, k, hk, hcount⟩ := counts_takeUnit hs
  rw [scanWord, scanUnits]
  simp only [hk]
  by_cases hstop : stopsWord (some k) (takeUnit s).2 = true
  · rw [if_pos hstop, if_pos hstop]
    refine ⟨⟨k, rfl, hcount⟩, fun e he => ?_⟩
    obtain ⟨hd, hunit⟩ := Prod.mk.inj (List.mem_singleton.1 he)
    cases hd
    exact hclose hunit.symm
  · rw [if_neg hstop, if_neg hstop]
    have hne : s ≠ [] := by
      rintro rfl
      exact hs rfl
    obtain ⟨⟨e, he, hmore⟩, hunits⟩ := counts_scanWord hstop
    refine ⟨⟨e, he, ?_⟩, fun j hj => ?_⟩
    · obtain ⟨c, rest, rfl, hc⟩ := exists_cons_of_stopsWord hs
      have hunit := wordUnit_takeUnit hc rest
      rw [← scanWord_append (some k) (takeUnit (c :: rest)).2] at hunit
      exact hunit.parenMarks_append ▸ hcount.append hmore
    · rcases List.mem_cons.1 hj with hj | hj
      · obtain ⟨hd, hunit⟩ := Prod.mk.inj hj
        cases hd
        exact hclose hunit.symm
      · exact hunits j hj
termination_by s.length
decreasing_by exact length_takeUnit_lt hne

/-- Nothing is counted outside of a condition. -/
theorem fst_scanUnits_none (s : Text) : ∀ p ∈ scanUnits none s, p.1 = none := by
  intro p hp
  rw [scanUnits] at hp
  by_cases hstop : stopsWord (countParens none (takeUnit s).1) (takeUnit s).2 = true
  · rw [if_pos hstop] at hp
    exact List.mem_singleton.1 hp ▸ rfl
  · rw [if_neg hstop] at hp
    have hne : s ≠ [] := by
      rintro rfl
      exact hstop rfl
    rcases List.mem_cons.1 hp with rfl | hp
    · rfl
    · exact fst_scanUnits_none _ p hp
termination_by s.length
decreasing_by exact length_takeUnit_lt hne

/-! ## In lexemes -/

variable {mode mode' : Mode} {s s' : Text} {step : LexStep} {kind : TokenKind} {d : Nat}

/-- What ends a condition. -/
def endsCondition : List LeafKind :=
  [.token .rightParen, .token .leftBrace, .token .rightBrace, .token .semicolon]

/-- A word is read where the condition does not end. -/
theorem not_stopsWord {c : Char} (hc : endsWord c = false)
    (hpunct : punctuation? (.condition d) c = none) (rest : Text) :
    ¬ stopsWord (some d) (c :: rest) = true := by
  rw [stopsWord, hc, Bool.false_or, Bool.and_eq_true, beq_iff_eq, beq_iff_eq]
  rintro ⟨rfl, hd⟩
  cases hd
  cases hpunct

/-- Where no word is read, the kind of the lexeme tells the mode after it. -/
theorem lexStep_mode (h : lexStep mode s = some step) (hmode : mode ≠ .luaBody)
    (hword : ∀ k, step.lexeme.kind = .token k → k.isWordlike = false) :
    step.mode = mode.after step.lexeme.kind := by
  rw [lexStep, if_neg hmode] at h
  cases s with
  | nil => cases h
  | cons c rest =>
    cases h
    unfold LexStep.plain at hword ⊢
    split
    · rfl
    next hfeed =>
    rw [if_neg hfeed] at hword
    split
    · rfl
    next hreturn =>
    rw [if_neg hreturn] at hword
    split
    · rfl
    next hblank =>
    rw [if_neg hblank] at hword
    split
    · rfl
    next hcomment =>
    rw [if_neg hcomment] at hword
    unfold LexStep.significant at hword ⊢
    split
    · split <;> rfl
    next hquote =>
    rw [if_neg hquote] at hword
    split
    · rfl
    next hpunct =>
    rw [hpunct] at hword
    have := hword _ rfl
    rw [isWordlike_classifyWord] at this
    cases this

/-- No parenthesis of a condition is open where it begins. -/
theorem mode_of_leftParen (h : lexStep mode s = some step)
    (hkind : step.lexeme.kind = .token .leftParen) : step.mode = .condition 0 := by
  obtain ⟨c, rest, -, hpunct, rfl⟩ := lexStep_punctuation h hkind rfl (by decide)
  have hafter : mode = .afterIf := by
    unfold punctuation? at hpunct
    repeat' split at hpunct
    all_goals first
      | cases hpunct; done
      | exact ‹c = '(' ∧ mode = .afterIf›.2
  rw [hafter]
  rfl

/-- Nor is one open where it ends. -/
theorem mode_of_rightParen (h : lexStep mode s = some step)
    (hkind : step.lexeme.kind = .token .rightParen) : mode = .condition 0 := by
  obtain ⟨c, rest, -, hpunct, -⟩ := lexStep_punctuation h hkind rfl (by decide)
  unfold punctuation? at hpunct
  repeat' split at hpunct
  all_goals first
    | cases hpunct; done
    | exact ‹c = ')' ∧ mode = .condition 0›.2

/-- **A lexeme that does not end a condition counts its parentheses.** -/
theorem lexStep_counts (h : lexStep (.condition d) s = some step)
    (hkind : step.lexeme.kind ∉ endsCondition) :
    ∃ e, step.mode = .condition e ∧ Counts d step.lexeme.parenMarks e := by
  by_cases hword : ∃ k, step.lexeme.kind = .token k ∧ k.isWordlike = true
  · obtain ⟨k, hk, hword⟩ := hword
    -- there are no keywords in a condition
    obtain ⟨stage, hafter, -⟩ := lexStep_advances h
    have hcounted : LeafKind.token k ∈ [.token .word, .token .variableName, .token .operator] := by
      rw [hk] at hafter
      cases k <;> first | cases hword; done | cases hafter; done | decide
    obtain ⟨c, rest, rfl, hc, hpunct, rfl⟩ := lexStep_word h hk hword
    obtain ⟨⟨e, he, hcounts⟩, -⟩ := counts_scanWord (not_stopsWord hc hpunct rest)
    refine ⟨e, ?_, ?_⟩
    · simp only [LexStep.ofLexeme, Mode.depth?, he]
      cases k <;> first | rfl | cases hword
    · rw [← hk] at hcounted
      rw [Lexeme.parenMarks, if_pos hcounted]
      exact hcounts
  · simp only [not_exists, not_and, Bool.not_eq_true] at hword
    have hnone : step.lexeme.parenMarks = [] := if_neg fun hmem => by
      simp only [List.mem_cons, List.not_mem_nil, or_false] at hmem
      rcases hmem with hmem | hmem | hmem <;> cases hword _ hmem
    refine ⟨d, ?_, hnone ▸ .nil d⟩
    rw [lexStep_mode h (by simp) hword]
    cases hk : step.lexeme.kind with
    | trivia => rfl
    | token k =>
      refine if_neg fun hmem => hkind ?_
      rw [hk]
      simpa [endsCondition] using hmem

/-- **Lexemes that do not end a condition count their parentheses**, one after the other. -/
theorem LexRun.counts {ls : List Lexeme} (h : LexRun mode s ls mode' s') :
    ∀ d, mode = .condition d → (∀ l ∈ ls, l.kind ∉ endsCondition) →
      ∃ e, mode' = .condition e ∧ Counts d (ls.flatMap Lexeme.parenMarks) e := by
  induction h with
  | done => exact fun d hd _ => ⟨d, hd, .nil d⟩
  | step hstep hmore ih =>
    rintro d rfl hls
    rw [List.forall_mem_cons] at hls
    obtain ⟨k, hk, hcounts⟩ := lexStep_counts hstep hls.1
    obtain ⟨e, he, hrest⟩ := ih k hk hls.2
    rw [List.flatMap_cons]
    exact ⟨e, he, hcounts.append hrest⟩

/--
**The parentheses of a condition are balanced.** Between the `(` that opens a condition and the `)`
that closes it, the words open and close as many, and close none that they have not opened. What the
lexer takes from its count where a word closes a parenthesis, it never takes from zero.
-/
theorem parentheses_balance (s : Text) :
    (∀ before opening between closing after,
      lex s = before ++ opening :: (between ++ closing :: after) →
      opening.kind = .token .leftParen → closing.kind = .token .rightParen →
      (∀ l ∈ between, l.kind ∉ endsCondition) → Balanced (between.flatMap Lexeme.parenMarks)) ∧
    ∀ before mode t step kind, LexRun .normal s before mode t → lexStep mode t = some step →
      step.lexeme.kind = .token kind → kind.isWordlike = true →
      ((scanUnits mode.depth? t).map Prod.snd).flatten = step.lexeme.text ∧
        ∀ d, (some d, [')']) ∈ scanUnits mode.depth? t → 0 < d := by
  constructor
  · intro before opening between closing after hlex hopening hclosing hbetween
    obtain ⟨mode, t, step, -, hstep, rfl, hmore⟩ := exists_step_of_lexFrom hlex
    obtain ⟨mode', t', step', hrun, hstep', rfl, -⟩ := exists_step_of_lexFrom hmore
    obtain ⟨e, hmode, hcounts⟩ := hrun.counts 0 (mode_of_leftParen hstep hopening) hbetween
    rw [mode_of_rightParen hstep' hclosing] at hmode
    cases hmode
    exact hcounts.balanced
  · intro before mode t step kind _ hstep hkind hword
    obtain ⟨c, rest, rfl, hc, hpunct, rfl⟩ := lexStep_word hstep hkind hword
    refine ⟨flatten_scanUnits _ _, fun d hd => ?_⟩
    cases mode with
    | condition k => exact (counts_scanWord (not_stopsWord hc hpunct rest)).2 d hd
    | _ => cases fst_scanUnits_none _ _ hd

/-- A condition with groups in groups, cut into words by a blank. -/
theorem parentheses_balance_groups :
    let opening := [.token .ifKeyword "if".toList, .trivia .whitespace [' ']]
    let between := [.token .variableName "$a".toList, .trivia .whitespace [' '],
      .token .operator ['~'], .trivia .whitespace [' '], .token .word "(x|(y".toList,
      .trivia .whitespace [' '], .token .word "z)\\))".toList]
    lex "if ($a ~ (x|(y z)\\)))".toList
        = opening ++ .token .leftParen ['('] :: (between ++ .token .rightParen [')'] :: []) ∧
      between.flatMap Lexeme.parenMarks = [1, 1, -1, -1] ∧
      Balanced (between.flatMap Lexeme.parenMarks) := by
  have hlex : lex "if ($a ~ (x|(y z)\\)))".toList
      = [.token .ifKeyword "if".toList, .trivia .whitespace [' ']] ++ .token .leftParen ['('] ::
        ([.token .variableName "$a".toList, .trivia .whitespace [' '], .token .operator ['~'],
          .trivia .whitespace [' '], .token .word "(x|(y".toList, .trivia .whitespace [' '],
          .token .word "z)\\))".toList] ++ .token .rightParen [')'] :: []) := by decide +kernel
  exact ⟨hlex, by decide +kernel,
    (parentheses_balance _).1 _ _ _ _ _ hlex rfl rfl (by decide +kernel)⟩

end NginxConf
