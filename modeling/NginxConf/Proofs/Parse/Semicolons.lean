import Mathlib.Logic.Relation
import NginxConf.Proofs.Lexeme.Restart
import NginxConf.Proofs.Parse.Marks

/-!
# A long row of semicolons

A `;` that ends no statement becomes a node of its own, of three events. So a row of 1431655765 of
them fills all the places among the events that 32 bits can tell apart. The next one completes the
first node of all in place of its own, and the one behind it finds no node where its mark leads.
-/

namespace NginxConf

/-! ## The tokens -/

/-- A `;` without trivia. -/
def semicolonAt (offset : Nat) : PlacedToken := ⟨⟨[], .semicolon, [';'], []⟩, offset, none⟩

/-- So many of them, from an offset on. -/
def semicolonsFrom (offset : Nat) : Nat → List PlacedToken
  | 0 => []
  | n + 1 => semicolonAt offset :: semicolonsFrom (offset + 1) n

theorem lex_semicolons (n : Nat) :
    lex (List.replicate n ';') = List.replicate n (.token .semicolon [';']) := by
  induction n with
  | zero => exact lexFrom_of_none rfl
  | succ n ih =>
    rw [List.replicate_succ, lex, lexFrom_semicolon (by decide), List.replicate_succ]
    exact congrArg _ ih

theorem tokens_attachTrivia_semicolons (offset n : Nat) :
    (attachTrivia offset [] (List.replicate n (.token .semicolon [';']))).tokens
      = semicolonsFrom offset n := by
  induction n generalizing offset with
  | zero => rw [List.replicate_zero, attachTrivia, semicolonsFrom]
  | succ n ih =>
    have hsplit : splitTrailing (List.replicate n (.token .semicolon [';']))
        = ([], List.replicate n (.token .semicolon [';'])) := by
      cases n <;> rfl
    rw [List.replicate_succ, attachTrivia]
    dsimp only [Lexeme.token]
    rw [show (⟨.token .semicolon, [';'], none⟩ : Lexeme) = .token .semicolon [';'] from rfl, hsplit]
    exact congrArg (_ :: ·) (ih _)

/-- The tokens of a row of semicolons. -/
theorem tokens_semicolons (n : Nat) :
    (tokenize (List.replicate n ';')).tokens = semicolonsFrom 0 n := by
  rw [tokenize, lex_semicolons, tokens_attachTrivia_semicolons]

/-! ## One turn -/

namespace Machine

variable {m n : Machine}

/-- A `;` that begins a statement is made a node of its own. -/
theorem drive_semicolon {offset : Nat} {ts : List PlacedToken}
    (hrest : m.rest = semicolonAt offset :: ts) (store : Nat → Nat) (calls : Nat) :
    drive store calls .statement m = complete (store m.events.length) .error
      (m.start.report (.unexpected .semicolon) (semicolonAt offset).span).advance := by
  have hkind : Lexical.kind (semicolonAt offset) = .semicolon := rfl
  simp only [drive, Rule.statement, driveWith, hrest, Rule.statementFrom, hkind, Rule.reject]
  rfl

theorem drive_topSemicolon {offset : Nat} {ts : List PlacedToken}
    (hrest : m.rest = semicolonAt offset :: ts) (store : Nat → Nat) (calls : Nat) :
    drive store calls .topStatement m = drive store calls .statement m := by
  have hnext : m.nextKind = some .semicolon := by rw [nextKind, hrest]; rfl
  simp only [drive, Rule.topStatement, Rule.ifNext, driveWith, hnext]
  rfl

/-- One turn of the loop over the statements of a file. -/
structure Turn (m n : Machine) : Prop where
  ahead : m.rest ≠ []
  drive_eq : drive mark32 maxDepth .topStatement m = .ok n
  shorter : n.rest.length < m.rest.length

/-- The loop goes on from where some turns have led. -/
theorem repeatWhile_of_turns (h : Relation.ReflTransGen Turn m n) :
    m.repeatWhile (fun _ => true) (drive mark32 maxDepth .topStatement)
      = n.repeatWhile (fun _ => true) (drive mark32 maxDepth .topStatement) := by
  induction h with
  | refl => rfl
  | tail _ hturn ih =>
    refine ih.trans ?_
    rw [repeatWhile]
    split
    · next hnil => exact absurd hnil hturn.ahead
    · rw [if_pos rfl, hturn.drive_eq]
      exact if_pos hturn.shorter

/-- A machine that has made so many nodes of three events. -/
structure MadeNodes (k : Nat) (m : Machine) : Prop where
  length_events : m.events.length = 1 + 3 * k
  /-- The node of the file begins before them. -/
  first : ∃ kind, m.events[0]? = some (.start kind)
  /-- The first of them ends. -/
  third : 0 < k → m.events[3]? = some .finish

/-- What is noted of a `;` before its node is complete. -/
theorem events_semicolon {offset : Nat} {ts : List PlacedToken}
    (hrest : m.rest = semicolonAt offset :: ts) :
    (m.start.report (.unexpected .semicolon) (semicolonAt offset).span).advance
      = ⟨ts, m.events ++ [.start none, .token (semicolonAt offset)],
        m.reports ++ [{
          span := (semicolonAt offset).span
          message := (Problem.unexpected .semicolon).message
          severity := .error
          origin := .grammar }], m.depth, (semicolonAt offset).span.stop⟩ := by
  simp [advance, report, start, hrest, semicolonAt, Problem.isWarning, Problem.isLexical]

/-- **A `;` whose mark leads to its own node or to the first one is one more turn.** -/
theorem turn_semicolon {k offset : Nat} {ts : List PlacedToken} (h : m.MadeNodes k)
    (hrest : m.rest = semicolonAt offset :: ts)
    (hmark : mark32 (1 + 3 * k) = 1 + 3 * k ∨ mark32 (1 + 3 * k) = 0) :
    ∃ n, Turn m n ∧ n.MadeNodes (k + 1) ∧ n.rest = ts := by
  obtain ⟨kind, hfirst⟩ := h.first
  have hlength := h.length_events
  obtain ⟨old, hold⟩ : ∃ old, (m.events ++ [.start none, .token (semicolonAt offset)])[
      mark32 (1 + 3 * k)]? = some (.start old) := by
    rcases hmark with hmark | hmark
    · exact ⟨none, by rw [hmark, ← hlength, List.getElem?_append_right (Nat.le_refl _)]; simp⟩
    · exact ⟨kind, by rw [hmark, List.getElem?_append_left (by omega), hfirst]⟩
  have hdrive := drive_topSemicolon hrest mark32 maxDepth
  rw [drive_semicolon hrest, events_semicolon hrest, hlength, complete, hold] at hdrive
  refine ⟨_, ⟨by simp [hrest], hdrive, by simp [hrest]⟩, ⟨?_, ?_, fun _ => ?_⟩, rfl⟩
  · simp [hlength]
    omega
  · by_cases hzero : mark32 (1 + 3 * k) = 0
    · exact ⟨some .error, by simp [hzero]⟩
    · refine ⟨kind, ?_⟩
      rw [List.getElem?_append_left (by simp), List.getElem?_set_ne hzero,
        List.getElem?_append_left (by omega), hfirst]
  · have hthree : mark32 (1 + 3 * k) ≠ 3 := by omega
    rcases Nat.eq_zero_or_pos k with rfl | hk
    · rw [List.getElem?_append_right (by simp [hlength])]
      simp [hlength]
    · rw [List.getElem?_append_left (by simp; omega), List.getElem?_set_ne hthree,
        List.getElem?_append_left (by omega), h.third hk]

/-! ## The whole row -/

/-- The loop reads a row of semicolons as long as no mark leads to any other node. -/
theorem exists_turns (k more : Nat)
    (hmarks : ∀ j < k, mark32 (1 + 3 * j) = 1 + 3 * j ∨ mark32 (1 + 3 * j) = 0) :
    ∃ m, Relation.ReflTransGen Turn (new (semicolonsFrom 0 (k + more))).start m ∧ m.MadeNodes k ∧
      m.rest = semicolonsFrom k more := by
  induction k generalizing more with
  | zero =>
    refine ⟨_, .refl, ⟨rfl, ⟨none, rfl⟩, nofun⟩, ?_⟩
    rw [Nat.zero_add]
    rfl
  | succ k ih =>
    obtain ⟨m, hturns, hmade, hrest⟩ := ih (more + 1) fun j hj => hmarks j (Nat.lt_succ_of_lt hj)
    obtain ⟨n, hturn, hmade', hrest'⟩ := turn_semicolon hmade hrest (hmarks k (Nat.lt_succ_self k))
    refine ⟨n, ?_, hmade', hrest'⟩
    rw [Nat.succ_add_eq_add_succ]
    exact hturns.tail hturn

/-- **Behind 1431655766 semicolons, the mark of the next one leads to the end of a node.** -/
theorem statement_lostMark {offset : Nat} {ts : List PlacedToken} (h : m.MadeNodes 1431655766)
    (hrest : m.rest = semicolonAt offset :: ts) (calls : Nat) :
    drive mark32 calls .statement m = .error .lostMark := by
  have hmark : mark32 m.events.length = 3 := by rw [h.length_events]; rfl
  have hthird := h.third (by decide)
  rw [drive_semicolon hrest, events_semicolon hrest, hmark, complete,
    List.getElem?_append_left (List.getElem?_eq_some_iff.1 hthird).1, hthird]

/-- So many turns are made where there are more semicolons. -/
theorem exists_lostMark (more : Nat) : ∃ m, Relation.ReflTransGen Turn
    (new (tokenize (List.replicate (1431655766 + (more + 1)) ';')).tokens).start m ∧
      m.MadeNodes 1431655766 ∧ m.rest = semicolonsFrom 1431655766 (more + 1) := by
  rw [tokens_semicolons]
  refine exists_turns 1431655766 (more + 1) fun j hj => ?_
  -- only the last of these marks is the place 2 ^ 32
  rcases Nat.lt_or_eq_of_le (Nat.le_of_lt_succ hj) with hj | rfl
  · exact .inl (Nat.mod_eq_of_lt (by rw [Overflow.offsetBound]; omega))
  · exact .inr rfl

end Machine

end NginxConf
