import NginxConf.Parse.Machine
import NginxConf.Proofs.Parse.Lossless

/-!
# What a machine does to read

A machine notes the events of trees (`Tree.steps`), so where it has got to is said by the outcome of
a rule (`Machine.after`). Each way to read on leads to the outcome of the rule that reads the same
(`advance_eq`, `advanceWhile_eq`, `readGroup_eq`). As long as the tokens ahead are in order, no report
ends before it begins (`InOrder.start_le_stop`).
-/

namespace NginxConf

/-- Whether a node begins. -/
def ParseEvent.isStart : ParseEvent → Bool
  | start _ => true
  | _ => false

/-- Whether a node is complete. -/
def ParseEvent.isFinish : ParseEvent → Bool
  | finish => true
  | _ => false

namespace Tree

mutual

/-- The events that a tree stands for. -/
def steps : Tree PlacedToken → List ParseEvent
  | leaf t => [.token t]
  | node kind children => .start (some kind) :: (forestSteps children ++ [.finish])

/-- The events that some trees stand for. -/
def forestSteps : List (Tree PlacedToken) → List ParseEvent
  | [] => []
  | t :: ts => t.steps ++ forestSteps ts

end

theorem forestSteps_append (ss ts : List (Tree PlacedToken)) :
    forestSteps (ss ++ ts) = forestSteps ss ++ forestSteps ts := by
  induction ss with
  | nil => rfl
  | cons s ss ih => rw [List.cons_append, forestSteps, forestSteps, ih, List.append_assoc]

theorem forestSteps_leaves (us : List PlacedToken) :
    forestSteps (us.map .leaf) = us.map .token := by
  induction us with
  | nil => rfl
  | cons u us ih => rw [List.map_cons, forestSteps, ih, steps, List.map_cons, List.singleton_append]

mutual

/-- The nodes of a tree that are begun are completed. -/
theorem countP_steps : (t : Tree PlacedToken) →
    t.steps.countP ParseEvent.isStart = t.steps.countP ParseEvent.isFinish
  | leaf _ => rfl
  | node kind children => by
    rw [steps, List.countP_cons, List.countP_cons, List.countP_append, List.countP_append,
      countP_forestSteps children]
    simp [ParseEvent.isStart, ParseEvent.isFinish]

theorem countP_forestSteps : (ts : List (Tree PlacedToken)) →
    (forestSteps ts).countP ParseEvent.isStart = (forestSteps ts).countP ParseEvent.isFinish
  | [] => rfl
  | t :: ts => by
    rw [forestSteps, List.countP_append, List.countP_append, countP_steps t, countP_forestSteps ts]

end

mutual

/-- Each event of a tree stands for a call, and these build the tree. -/
theorem map_call_steps : (t : Tree PlacedToken) →
    t.steps.map ParseEvent.call? = (treeCalls (t.map PlacedToken.token)).map some
  | leaf t => rfl
  | node kind children => by
    simp [steps, ParseEvent.call?, map, treeCalls, map_call_forestSteps children]

theorem map_call_forestSteps : (ts : List (Tree PlacedToken)) →
    (forestSteps ts).map ParseEvent.call?
      = (forestCalls (forestMap PlacedToken.token ts)).map some
  | [] => rfl
  | t :: ts => by
    rw [forestSteps, List.map_append, map_call_steps t, map_call_forestSteps ts, forestMap,
      forestCalls, List.map_append]

end

end Tree

namespace Machine

/-- A machine after a rule has returned an outcome. -/
def after (m : Machine) (a : Outcome PlacedToken) : Machine :=
  ⟨a.rest, m.events ++ Tree.forestSteps a.trees, m.reports ++ a.issues.map Issue.diagnostic,
    m.depth, a.last.span.stop⟩

/-- The machine has read up to a token and has some tokens ahead. -/
structure Before (m : Machine) (last : PlacedToken) (rest : List PlacedToken) : Prop where
  rest_eq : m.rest = rest
  readEnd_eq : m.readEnd = last.span.stop

variable {m : Machine} {last : PlacedToken} {rest : List PlacedToken} {a b : Outcome PlacedToken}

theorem before_after (m : Machine) (a : Outcome PlacedToken) :
    (m.after a).Before a.last a.rest := ⟨rfl, rfl⟩

theorem Before.start (h : m.Before last rest) : m.start.Before last rest :=
  ⟨h.rest_eq, h.readEnd_eq⟩

theorem after_join (m : Machine) (a b : Outcome PlacedToken) :
    (m.after a).after b = m.after (a.join b) := by
  simp [after, Outcome.join, Tree.forestSteps_append]

theorem after_idle (h : m.Before last rest) : m.after (.idle last rest) = m := by
  obtain ⟨rfl, hstop⟩ := h
  simp [after, Outcome.idle, Tree.forestSteps, ← hstop]

/-- A report is what an issue says about its place. -/
theorem report_eq (h : m.Before last rest) (i : Issue PlacedToken) :
    m.report i.problem i.place.span = m.after ⟨[], [i], last, rest⟩ := by
  obtain ⟨rfl, hstop⟩ := h
  simp [after, report, Tree.forestSteps, Issue.diagnostic, ← hstop]

/-! ## Reading -/

theorem advance_eq (h : m.Before last rest) : m.advance = m.after (.reading 1 last rest) := by
  obtain ⟨rfl, hstop⟩ := h
  unfold advance
  split
  · next hrest =>
    rw [hrest]
    exact (after_idle ⟨hrest, hstop⟩).symm
  · next t ts hrest =>
    cases hf : t.fault with
    | none =>
      simp [after, Outcome.reading, hrest, Tree.forestSteps, Tree.steps, Outcome.faultOf,
        Lexical.fault, hf]
    | some fault =>
      simp [after, Outcome.reading, hrest, Tree.forestSteps, Tree.steps, Outcome.faultOf,
        Lexical.fault, hf, report, Issue.diagnostic, Place.span, PlacedToken.span]

/-- Reading some tokens is reading the first and then the others. -/
theorem reading_cons (n : Nat) (last t : PlacedToken) (ts : List PlacedToken) :
    Outcome.reading (n + 1) last (t :: ts)
      = (Outcome.reading 1 last (t :: ts)).join (Outcome.reading n t ts) := by
  simp [Outcome.reading, Outcome.join, List.getLast?_cons]

theorem advanceWhile_eq (p : TokenKind → Bool) (h : m.Before last rest) :
    m.advanceWhile p
      = m.after (.reading (rest.takeWhile fun t => p (Lexical.kind t)).length last rest) := by
  induction rest generalizing m last with
  | nil =>
    unfold advanceWhile
    split
    · exact (after_idle h).symm
    · next hrest => rw [h.rest_eq] at hrest; cases hrest
  | cons t ts ih =>
    unfold advanceWhile
    split
    · next hrest => rw [h.rest_eq] at hrest; cases hrest
    · next hrest =>
      rw [h.rest_eq] at hrest
      cases hrest
      by_cases hp : p (Lexical.kind t) = true
      · have h' : (m.after (.reading 1 last (t :: ts))).Before t ts := m.before_after _
        rw [if_pos hp, advance_eq h, ih h', after_join, ← reading_cons]
        simp only [List.takeWhile_cons, hp, if_true, List.length_cons]
      · rw [if_neg hp]
        simp only [List.takeWhile_cons, hp, Bool.false_eq_true, if_false, List.length_nil]
        exact (after_idle h).symm

/-- A raw group is left as often as it is entered. -/
theorem readGroup_eq (opened : Nat) (h : m.Before last rest)
    (hopened : 0 < opened ∨ rest.head?.map Lexical.kind = some .leftBrace) :
    m.readGroup opened = .ok (m.after (.reading (groupLength opened rest) last rest)) := by
  induction rest generalizing m last opened with
  | nil =>
    unfold readGroup
    split
    · exact congrArg _ (after_idle h).symm
    · next hrest => rw [h.rest_eq] at hrest; cases hrest
  | cons t ts ih =>
    have hnext : m.advance = m.after (.reading 1 last (t :: ts)) := advance_eq h
    have hmore : ∀ opened', 0 < opened' → m.advance.readGroup opened'
        = .ok (m.after (.reading (groupLength opened' ts + 1) last (t :: ts))) := by
      intro opened' hpos
      have h' : (m.after (.reading 1 last (t :: ts))).Before t ts := m.before_after _
      rw [hnext, ih opened' h' (.inl hpos), after_join, ← reading_cons]
    unfold readGroup
    split
    · next hrest => rw [h.rest_eq] at hrest; cases hrest
    · next hrest =>
      rw [h.rest_eq] at hrest
      cases hrest
      split
      · next hk => rw [groupLength_leftBrace hk, hmore _ (Nat.succ_pos _)]
      · next hk =>
        have hpos : 0 < opened := hopened.resolve_right (by simp [hk])
        rw [groupLength_rightBrace hk]
        by_cases hone : opened = 1
        · subst hone
          exact congrArg _ hnext
        · obtain ⟨n, rfl⟩ : ∃ n, opened = n + 2 := ⟨opened - 2, by omega⟩
          exact hmore (n + 1) (Nat.succ_pos n)
      · next hl hr =>
        have hpos : 0 < opened := hopened.resolve_right (by simpa using hl)
        rw [groupLength_other hl hr, hmore _ hpos]

/-! ## Order -/

/-- Tokens end in the order in which they stand, and those already read begin no later. -/
structure Ordered (seen : List PlacedToken) (last : PlacedToken) (rest : List PlacedToken) :
    Prop where
  stops : (last :: rest).Pairwise fun p q => p.span.stop ≤ q.span.stop
  starts : ∀ p ∈ seen, p.span.start ≤ last.span.stop

/-- No token ends before an earlier one begins. That is all that reports rely on, and the last token
read need be none of those that have been seen. -/
structure InOrder (seen : List PlacedToken) (last : PlacedToken) (rest : List PlacedToken) :
    Prop where
  starts : ∀ p ∈ seen, p.span.start ≤ last.span.stop
  crosses : ∀ p ∈ seen, ∀ q ∈ rest, p.span.start ≤ q.span.stop
  ahead : rest.Pairwise fun p q => p.span.start ≤ q.span.stop

theorem Ordered.inOrder {seen : List PlacedToken} (h : Ordered seen last rest) :
    InOrder seen last rest := by
  obtain ⟨hlast, hrest⟩ := List.pairwise_cons.1 h.stops
  exact ⟨h.starts, fun p hp q hq => Nat.le_trans (h.starts p hp) (hlast q hq),
    hrest.imp fun {p _} hpq => Nat.le_trans p.start_le_stop hpq⟩

theorem InOrder.after {room : Nat} {known seen : List PlacedToken} {rule : Rule PlacedToken}
    (h : InOrder seen last rest) (hr : Runs room known seen rule last rest a) :
    InOrder (seen ++ a.read) a.last a.rest := by
  have hlast := hr.last_eq
  obtain ⟨hstarts, hcrosses, hahead⟩ := h
  rw [← hr.read_append_rest] at hcrosses hahead
  obtain ⟨hread, hrest, hcross⟩ := List.pairwise_append.1 hahead
  refine ⟨fun p hp => ?_, fun p hp q hq => ?_, hrest⟩
  · rcases List.eq_nil_or_concat a.read with hnil | ⟨ps, q, hconcat⟩
    · rw [hnil] at hlast hp
      rw [show a.last = last from hlast]
      exact hstarts p (by simpa using hp)
    · rw [List.concat_eq_append] at hconcat
      rw [hconcat] at hlast hp hread
      rw [show a.last = q by simpa using hlast]
      rcases List.mem_append.1 hp with hp | hp
      · exact hcrosses p hp q (by simp [hconcat])
      · rcases List.mem_append.1 hp with hp | hp
        · exact (List.pairwise_append.1 hread).2.2 p hp q (by simp)
        · rw [List.mem_singleton.1 hp]
          exact q.start_le_stop
  · rcases List.mem_append.1 hp with hp | hp
    · exact hcrosses p hp q (List.mem_append_right _ hq)
    · exact hcross p hp q hq

/-- **Reports do not end before they begin.** -/
theorem InOrder.start_le_stop {room : Nat} {known seen : List PlacedToken}
    {rule : Rule PlacedToken} (hr : Runs room known seen rule last rest a)
    (h : InOrder seen last rest) :
    ∀ i ∈ a.issues, i.place.span.start ≤ i.place.span.stop := by
  have faults : ∀ (n : Nat) (last : PlacedToken) (rest : List PlacedToken),
      ∀ i ∈ (Outcome.reading n last rest).issues, i.place.span.start ≤ i.place.span.stop := by
    intro n last rest i hi
    obtain ⟨t, -, hi⟩ := List.mem_flatMap.1 hi
    rw [Outcome.faultOf] at hi
    split at hi
    · rw [List.mem_singleton.1 hi]
      exact t.start_le_stop
    · cases hi
  induction hr with
  | done | atEnd | manyStop => simp [Outcome.idle]
  | complain => simp [Place.span, Span.point]
  | complainSince _ hs =>
    intro i hi
    rw [List.mem_singleton.1 hi]
    exact h.starts _ hs
  | @complainAt _ _ _ token =>
    intro i hi
    rw [List.mem_singleton.1 hi]
    exact token.start_le_stop
  | advance | acceptAll | rawGroup => exact faults _ _ _
  | andThen ha _ iha ihb | manyStep _ ha _ _ iha ihb | wrapBy _ ha _ iha ihb =>
    intro i hi
    exact (List.mem_append.1 hi).elim (iha h i) (ihb (h.after ha) i)
  | wrap _ _ ih | withNext _ _ ih | peek _ ih | tooDeep _ _ ih | block _ _ ih => exact ih h

theorem Ordered.start_le_stop {room : Nat} {known seen : List PlacedToken}
    {rule : Rule PlacedToken} (hr : Runs room known seen rule last rest a)
    (h : Ordered seen last rest) :
    ∀ i ∈ a.issues, i.place.span.start ≤ i.place.span.stop :=
  InOrder.start_le_stop hr h.inOrder

/-! ## Whole texts -/

/-- The tokens of a text stand in order. -/
theorem ordered_tokenize (s : Text) : Ordered [] .origin (tokenize s).tokens := by
  have hall : ∀ {ps : List PlacedToken} {start stop : Nat}, Tile start ps stop →
      ps.Pairwise fun p q => p.span.stop ≤ q.span.stop := by
    intro ps
    induction ps with
    | nil => intros; exact .nil
    | cons p ps ih =>
      intro start stop h
      refine List.pairwise_cons.2 ⟨fun q hq => ?_, ih h.2⟩
      have h1 := (h.2.between.2 q hq).1
      have h2 := p.stop_le_fullStop
      rw [h.1] at h2
      exact Nat.le_trans (Nat.le_trans h2 h1) q.start_le_stop
  exact ⟨List.pairwise_cons.2 ⟨fun _ _ => Nat.zero_le _, hall (tile_attachTrivia 0 [] (lex s))⟩,
    by simp⟩

end Machine

end NginxConf
