import NginxConf.Proofs.Diagnostic.Order
import NginxConf.Proofs.Edit.Versions
import NginxConf.Proofs.Parse.Machine

/-!
# The reports after an edit

A report outside of the block names tokens before the block or tokens after it, and not some of
each: it would lie across a brace, and the block would not have been taken alone. So it either
stays where it is or moves with what follows the block (`Spliced.outer_cases`). What is found in
the block lies between the braces, so the reports of the edited text are in the order in which
they are put together (`Spliced.diagnostics_eq`).
-/

namespace NginxConf

/-! ## Reports around a range -/

namespace Diagnostic

/-- The report is outside of the range, before it. -/
def isBefore (range : Span) (d : Diagnostic) : Bool :=
  !range.contains d.span && decide (d.span.stop ≤ range.start)

/-- The report is outside of the range, and not before it. -/
def isAfter (range : Span) (d : Diagnostic) : Bool :=
  !range.contains d.span && !decide (d.span.stop ≤ range.start)

/-- **What is kept are the reports before and after the range, and no report lies across an end.** -/
theorem around?_eq_some {range : Span} {ds before after : List Diagnostic}
    (h : around? range ds = some (before, after)) :
    before = ds.filter (isBefore range) ∧ after = ds.filter (isAfter range) ∧
      ∀ d ∈ ds, range.contains d.span ∨ d.span.stop ≤ range.start ∨ range.stop ≤ d.span.start := by
  induction ds generalizing before after with
  | nil =>
    cases h
    exact ⟨rfl, rfl, by simp⟩
  | cons d ds ih =>
    simp only [around?, bind, Option.bind_eq_some_iff] at h
    obtain ⟨⟨before', after'⟩, hmore, h⟩ := h
    obtain ⟨h1, h2, h3⟩ := ih hmore
    simp only at h
    split at h
    · next hin =>
      cases h
      exact ⟨by simp [isBefore, hin, h1], by simp [isAfter, hin, h2],
        List.forall_mem_cons.2 ⟨.inl hin, h3⟩⟩
    · next hin =>
      rw [Bool.not_eq_true] at hin
      split at h
      · next hstop =>
        cases h
        exact ⟨by simp [isBefore, hin, hstop, h1], by simp [isAfter, hin, hstop, h2],
          List.forall_mem_cons.2 ⟨.inr (.inl hstop), h3⟩⟩
      · next hstop =>
        split at h
        · next hstart =>
          cases h
          exact ⟨by simp [isBefore, hin, hstop, h1], by simp [isAfter, hin, hstop, h2],
            List.forall_mem_cons.2 ⟨.inr (.inr hstart), h3⟩⟩
        · cases h

end Diagnostic

/-- The report about an issue over versions of tokens. -/
def Issue.reportAs (f : Version → PlacedToken) (i : Issue Version) : Diagnostic :=
  (i.map f).diagnostic

/-- Where tokens stand the same, reports are the same, but for where they are. -/
theorem Issue.reportAs_eq {f g : Version → PlacedToken} {r : Span → Span} {i : Issue Version}
    (h : (i.place.map g).span = r (i.place.map f).span) :
    i.reportAs g = (i.reportAs f).withSpan (r (i.reportAs f).span) := by
  rw [reportAs, Issue.map, Issue.diagnostic]
  simp only [h]
  rfl

namespace Taken

variable {s edited : Text} {e : Edit} {b : ClosedBlock} (h : Taken s e edited b)

/-! ## Where versions stand -/

theorem span_before {v : Version} (hv : v ∈ Version.kept .origin :: h.versionsBefore) :
    v.new.span = v.old.span ∧ v.old.span.stop ≤ b.left.span.start := by
  rcases List.mem_cons.1 hv with rfl | hv
  · exact ⟨rfl, Nat.zero_le _⟩
  · obtain ⟨p, hp, rfl⟩ := List.mem_map.1 hv
    exact ⟨rfl, h.old.stop_le_left hp⟩

theorem span_left : h.leftVersion.old.span = b.left.span ∧
    h.leftVersion.new.span = b.left.span ∧
    h.leftVersion.new.span = h.leftVersion.alone.span.shift b.left.span.start := by
  have hstart : h.opening.span.start = b.left.span.start :=
    (show h.opening.span.start = h.old.opening.span.start from rfl).trans
      (congrArg Span.start h.old.opening_span)
  have halone : h.new.opening.span = ⟨0, 1⟩ := by
    rw [h.new.opening_eq]
    rfl
  have hnew : h.opening.span = b.left.span := by
    show Span.mk h.opening.span.start h.opening.span.stop = _
    rw [hstart, h.opening_stop, h.old.left_span]
  refine ⟨h.old.opening_span, hnew, hnew.trans ?_⟩
  rw [show h.leftVersion.alone.span = _ from halone, Span.shift, h.old.left_span, Nat.zero_add,
    Nat.add_comm 1]

theorem span_right (hlost : h.new.lost = []) : h.rightVersion.old.span = b.right.span ∧
    h.rightVersion.new.span = e.moveSpan b.right.span :=
  ⟨h.old.closing_span, (h.closing_span hlost).1⟩

theorem span_after (hlost : h.new.lost = []) {v : Version} (hv : v ∈ h.versionsAfter) :
    v.new.span = e.moveSpan v.old.span ∧ b.right.span.stop ≤ v.old.span.start := by
  obtain ⟨p, hp, rfl⟩ := List.mem_map.1 hv
  have hoffset := h.old.right_le_offset hp
  obtain ⟨-, hle, -⟩ := h.closing_span hlost
  have hright : b.right.span.start ≤ b.right.span.stop := by
    rw [h.old.right_span]
    exact Nat.le_succ _
  refine ⟨?_, Nat.le_trans hoffset p.offset_le_start⟩
  simp only [Version.moved, PlacedToken.relocate, PlacedToken.span, Edit.moveSpan, Edit.move,
    Span.mk.injEq]
  omega

theorem span_inside {v : Version} (hv : v ∈ h.versionsInside) :
    b.left.span.stop ≤ v.old.span.start ∧ v.old.span.stop ≤ b.right.span.start := by
  obtain ⟨p, hp, rfl⟩ := List.mem_map.1 hv
  exact h.old.between_braces hp

theorem span_within (hlost : h.new.lost = []) {v : Version} (hv : v ∈ h.versionsWithin) :
    v.new.span = v.alone.span.shift b.left.span.start ∧
      b.left.span.stop ≤ v.new.span.start ∧ v.new.span.stop ≤ h.closing.span.start := by
  obtain ⟨p, hp, rfl⟩ := List.mem_map.1 hv
  refine ⟨?_, h.between_braces hlost hp⟩
  simp only [Version.moved, PlacedToken.relocate, PlacedToken.span, Span.shift, Span.mk.injEq]
  omega

/-- **What is found in the block alone moves with the block, and lies between its braces.** -/
theorem within_between (hlost : h.new.lost = []) {i : Issue Version}
    (hi : i ∈ h.itemsOutcome.issues) :
    i.reportAs Version.new = (i.reportAs Version.alone).withSpan
        ((i.reportAs Version.alone).span.shift b.left.span.start) ∧
      b.left.span.stop ≤ (i.reportAs Version.new).span.start ∧
      (i.reportAs Version.new).span.start ≤ h.closing.span.start := by
  have hamong := (Rule.runs_items b.shape h.leftVersion
    (h.versionsWithin ++ [h.rightVersion])).place_among i hi
  rw [show (Rule.run _ _ _ _).read = h.versionsWithin from h.read_itemsOutcome] at hamong
  obtain ⟨-, hnew, hshift⟩ := h.span_left
  have hempty := (h.closing_span hlost).2.2
  have hlasts : ∀ v ∈ h.leftVersion :: h.versionsWithin,
      v.new.span = v.alone.span.shift b.left.span.start ∧
        b.left.span.stop ≤ v.new.span.stop ∧ v.new.span.stop ≤ h.closing.span.start := by
    intro v hv
    rcases List.mem_cons.1 hv with rfl | hv
    · refine ⟨hshift, ?_⟩
      rw [hnew]
      exact ⟨Nat.le_refl _, hempty⟩
    · obtain ⟨hspan, hstart, hstop⟩ := h.span_within hlost hv
      exact ⟨hspan, Nat.le_trans hstart v.new.start_le_stop, hstop⟩
  obtain ⟨problem, place⟩ := i
  cases place with
  | across first last =>
    obtain ⟨hfirst, hlast⟩ := hamong
    obtain ⟨hspan, hstart, hstop⟩ := h.span_within hlost hfirst
    have hspan' : last.new.span = last.alone.span.shift b.left.span.start := by
      rcases hlast with rfl | hlast
      · exact hspan
      · exact (hlasts last hlast).1
    refine ⟨Issue.reportAs_eq (r := (·.shift b.left.span.start)) ?_, hstart,
      Nat.le_trans first.new.start_le_stop hstop⟩
    show Span.mk first.new.span.start last.new.span.stop = _
    rw [hspan, hspan']
    rfl
  | after token =>
    obtain ⟨hspan, hstop⟩ := hlasts token hamong
    refine ⟨Issue.reportAs_eq (r := (·.shift b.left.span.start)) ?_, hstop⟩
    exact congrArg (fun span : Span => Span.point span.stop) hspan

end Taken

namespace Spliced

variable {s edited : Text} {e : Edit} {b : ClosedBlock} {h : Taken s e edited b} (w : Spliced h)

/-- What was found in the block lies between its braces. -/
theorem inner_between {i : Issue Version} (hi : i ∈ w.inner) :
    b.left.span.stop ≤ (i.reportAs Version.old).span.start ∧
      (i.reportAs Version.old).span.start ≤ b.right.span.start ∧
      (i.reportAs Version.old).span.stop ≤ b.right.span.start := by
  have hamong := w.inner_among i hi
  have hempty : b.left.span.stop ≤ b.right.span.start := by
    rw [h.old.left_span, h.old.right_span]
    exact Nat.le_add_right _ _
  have hlasts : ∀ v ∈ h.leftVersion :: h.versionsInside,
      b.left.span.stop ≤ v.old.span.stop ∧ v.old.span.stop ≤ b.right.span.start := by
    intro v hv
    rcases List.mem_cons.1 hv with rfl | hv
    · rw [h.span_left.1]
      exact ⟨Nat.le_refl _, hempty⟩
    · have := h.span_inside hv
      have := v.old.start_le_stop
      omega
  obtain ⟨problem, place⟩ := i
  cases place with
  | across first last =>
    obtain ⟨hfirst, hlast⟩ := hamong
    obtain ⟨h1, h2⟩ := h.span_inside hfirst
    have h3 := first.old.start_le_stop
    refine ⟨h1, Nat.le_trans h3 h2, ?_⟩
    rcases hlast with rfl | hlast
    · exact h2
    · exact (hlasts last hlast).2
  | after token =>
    obtain ⟨h1, h2⟩ := hlasts token hamong
    exact ⟨h1, h2, h2⟩

/-- Where a report outside of the block begins. -/
theorem first_cases (hlost : h.new.lost = []) {v : Version}
    (hv : v ∈ h.versionsBefore ++ h.leftVersion :: h.versionsAfter) :
    (v.new.span = v.old.span ∧ v.old.span.start < b.left.span.stop ∧
        v.old.span.stop ≤ b.left.span.stop) ∨
      (v.new.span = e.moveSpan v.old.span ∧ b.right.span.stop ≤ v.old.span.start) := by
  have hleft : b.left.span.stop = b.left.span.start + 1 := by rw [h.old.left_span]
  rcases List.mem_append.1 hv with hv | hv
  · obtain ⟨hnew, hstop⟩ := h.span_before (List.mem_cons_of_mem _ hv)
    have hstart := v.old.start_le_stop
    exact .inl ⟨hnew, by omega, by omega⟩
  · rcases List.mem_cons.1 hv with rfl | hv
    · obtain ⟨hold, hnew, -⟩ := h.span_left
      rw [hold]
      exact .inl ⟨hnew, by omega, Nat.le_refl _⟩
    · exact .inr (h.span_after hlost hv)

/-- Where a report outside of the block ends. -/
theorem last_cases (hlost : h.new.lost = []) {v : Version}
    (hv : v ∈ .kept .origin :: (h.versionsBefore ++ h.rightVersion :: h.versionsAfter)) :
    (v.new.span = v.old.span ∧ v.old.span.stop ≤ b.left.span.start) ∨
      (v.new.span = e.moveSpan v.old.span ∧ b.right.span.stop ≤ v.old.span.stop) := by
  rw [← List.cons_append] at hv
  rcases List.mem_append.1 hv with hv | hv
  · exact .inl (h.span_before hv)
  · rcases List.mem_cons.1 hv with rfl | hv
    · obtain ⟨hold, hnew⟩ := h.span_right hlost
      rw [hold]
      exact .inr ⟨hnew, Nat.le_refl _⟩
    · obtain ⟨hnew, hle⟩ := h.span_after hlost hv
      exact .inr ⟨hnew, Nat.le_trans hle v.old.start_le_stop⟩

/-- Reports about the old text, as they are made. -/
theorem reportAs_mem {i : Issue Version} (hi : i ∈ w.before ++ w.inner ++ w.after) :
    i.reportAs Version.old ∈ (parse s).diagnostics ∧
      (i.reportAs Version.old).span.start ≤ (i.reportAs Version.old).span.stop := by
  have hmem : i.map Version.old ∈ (fileOutcome s).issues := by
    rw [w.issues_eq]
    exact List.mem_map_of_mem hi
  refine ⟨?_, (Machine.ordered_tokenize s).start_le_stop (runs_fileOutcome s) _ hmem⟩
  rw [parse_diagnostics]
  exact (Diagnostic.sort_perm _).mem_iff.2 (List.mem_map_of_mem hmem)

/-- **A report outside of the block stays where it is, or it moves with what follows the block.** -/
theorem outer_cases (hlost : h.new.lost = []) {i : Issue Version} (hi : i ∈ w.before ++ w.after) :
    (i.reportAs Version.new = i.reportAs Version.old ∧
        (i.reportAs Version.old).span.start < b.left.span.stop ∧
        (i.reportAs Version.old).span.stop ≤ b.left.span.stop) ∨
      (i.reportAs Version.new
          = (i.reportAs Version.old).withSpan (e.moveSpan (i.reportAs Version.old).span) ∧
        b.right.span.start < (i.reportAs Version.old).span.start) := by
  obtain ⟨hmem, hle⟩ := w.reportAs_mem (i := i) (by
    rcases List.mem_append.1 hi with hi | hi <;> simp [hi])
  have hcross := (Diagnostic.around?_eq_some h.around_eq).2.2 _ hmem
  have hamong := w.outer_among i hi
  have hleft : b.left.span.stop = b.left.span.start + 1 := by rw [h.old.left_span]
  have hright : b.right.span.stop = b.right.span.start + 1 := by rw [h.old.right_span]
  have hempty : b.left.span.stop ≤ b.right.span.start := by
    rw [h.old.left_span, h.old.right_span]
    exact Nat.le_add_right _ _
  obtain ⟨problem, place⟩ := i
  cases place with
  | after token =>
    rcases last_cases hlost hamong with ⟨hnew, hstop⟩ | ⟨hnew, hstop⟩
    · refine .inl ⟨?_, Nat.lt_of_le_of_lt hstop (by omega), Nat.le_trans hstop (by omega)⟩
      exact Issue.reportAs_eq (r := id) (congrArg (fun span : Span => Span.point span.stop) hnew)
    · refine .inr ⟨?_, Nat.lt_of_lt_of_le (by omega) hstop⟩
      exact Issue.reportAs_eq (congrArg (fun span : Span => Span.point span.stop) hnew)
  | across first last =>
    obtain ⟨hfirst, hlast⟩ := hamong
    have hspan : (Issue.reportAs Version.old ⟨problem, .across first last⟩).span
        = ⟨first.old.span.start, last.old.span.stop⟩ := rfl
    rw [hspan] at hle hcross ⊢
    rw [Span.contains, ClosedBlock.interior, Bool.and_eq_true, decide_eq_true_eq,
      decide_eq_true_eq] at hcross
    have hreport : ∀ {r : Span → Span},
        (⟨first.new.span.start, last.new.span.stop⟩ : Span)
          = r ⟨first.old.span.start, last.old.span.stop⟩ →
        Issue.reportAs Version.new ⟨problem, .across first last⟩
          = (Issue.reportAs Version.old ⟨problem, .across first last⟩).withSpan
            (r ⟨first.old.span.start, last.old.span.stop⟩) := fun h => Issue.reportAs_eq h
    rcases first_cases hlost hfirst with ⟨hnew, hstart, hstop⟩ | ⟨hnew, hstart⟩
    · -- a report that ends behind the block would lie across it
      have hlast' : last.new.span = last.old.span ∧ last.old.span.stop ≤ b.left.span.stop := by
        rcases hlast with rfl | hlast
        · exact ⟨hnew, hstop⟩
        · rcases last_cases hlost hlast with ⟨hnew', hstop'⟩ | ⟨-, hstop'⟩
          · exact ⟨hnew', by omega⟩
          · simp only at hcross
            omega
      refine .inl ⟨hreport (r := id) ?_, hstart, hlast'.2⟩
      rw [hnew, hlast'.1]
      rfl
    · have hlast' : last.new.span = e.moveSpan last.old.span := by
        rcases hlast with rfl | hlast
        · exact hnew
        · rcases last_cases hlost hlast with ⟨-, hstop'⟩ | ⟨hnew', -⟩
          · simp only at hle
            omega
          · exact hnew'
      refine .inr ⟨hreport ?_, by simp only; omega⟩
      rw [hnew, hlast']
      rfl

include w in
/-- What was reported about the old text lies before the block, in it or after it. -/
theorem report_cases (hlost : h.new.lost = []) {d : Diagnostic}
    (hd : d ∈ (parse s).diagnostics) :
    d.isBefore b.interior = decide (d.span.start < b.left.span.stop) ∧
      d.isAfter b.interior = decide (b.right.span.start < d.span.start) := by
  rw [parse_diagnostics, (Diagnostic.sort_perm _).mem_iff, w.issues_eq, List.map_map] at hd
  obtain ⟨i, hi, rfl⟩ := List.mem_map.1 hd
  have hle := (w.reportAs_mem hi).2
  have hempty : b.left.span.stop ≤ b.right.span.start := by
    rw [h.old.left_span, h.old.right_span]
    exact Nat.le_add_right _ _
  have hplace : (b.left.span.stop ≤ (i.reportAs Version.old).span.start ∧
        (i.reportAs Version.old).span.stop ≤ b.right.span.start) ∨
      ((i.reportAs Version.old).span.start < b.left.span.stop ∧
        (i.reportAs Version.old).span.stop ≤ b.left.span.stop) ∨
      b.right.span.start < (i.reportAs Version.old).span.start := by
    rw [List.append_assoc, List.mem_append, List.mem_append] at hi
    rcases hi with hi | hi | hi
    · exact .inr ((w.outer_cases hlost (List.mem_append_left _ hi)).imp And.right And.right)
    · obtain ⟨hstart, -, hstop⟩ := w.inner_between hi
      exact .inl ⟨hstart, hstop⟩
    · exact .inr ((w.outer_cases hlost (List.mem_append_right _ hi)).imp And.right And.right)
  rw [Diagnostic.isBefore, Diagnostic.isAfter, ClosedBlock.interior, Span.contains]
  show _ = decide ((i.reportAs Version.old).span.start < _) ∧
    _ = decide (_ < (i.reportAs Version.old).span.start)
  unfold Issue.reportAs at hle hplace ⊢
  constructor
  · rw [Bool.eq_iff_iff]
    simp only [Bool.and_eq_true, Bool.not_eq_true', Bool.and_eq_false_iff, decide_eq_true_eq,
      decide_eq_false_iff_not, Function.comp_apply]
    omega
  · rw [Bool.eq_iff_iff]
    simp only [Bool.and_eq_true, Bool.not_eq_true', Bool.and_eq_false_iff, decide_eq_true_eq,
      decide_eq_false_iff_not, Function.comp_apply]
    omega

include w in
/-- **The reports about the edited text are those that are put together.** -/
theorem diagnostics_eq (hlost : h.new.lost = []) : (parse edited).diagnostics = h.diagnostics := by
  obtain ⟨hspan, hle, hempty⟩ := h.closing_span hlost
  have hright : h.closing.span.start = e.move b.right.span.start := congrArg Span.start hspan
  have hleft : b.left.span.stop ≤ b.right.span.start := by
    rw [h.old.left_span, h.old.right_span]
    exact Nat.le_add_right _ _
  have hold : (parse s).diagnostics
      = Diagnostic.sort ((w.before ++ w.inner ++ w.after).map (Issue.reportAs Version.old)) := by
    rw [parse_diagnostics, w.issues_eq, List.map_map]
    rfl
  have hnew : (parse edited).diagnostics
      = Diagnostic.sort (w.before.map (Issue.reportAs Version.new)
        ++ h.itemsOutcome.issues.map (Issue.reportAs Version.new)
        ++ w.after.map (Issue.reportAs Version.new)) := by
    rw [parse_diagnostics, w.edited_issues, List.map_map, List.map_append, List.map_append]
    rfl
  have hissues : h.new.issues.map Issue.diagnostic
      = h.itemsOutcome.issues.map (Issue.reportAs Version.alone) := by
    rw [Alone.issues, h.items_alone]
    exact List.map_map
  have hshift : h.itemsOutcome.issues.map (Issue.reportAs Version.new)
      = (h.new.issues.map Issue.diagnostic).map
        (fun d => d.withSpan (d.span.shift b.left.span.start)) := by
    rw [hissues, List.map_map]
    exact List.map_congr_left fun i hi => (h.within_between hlost hi).1
  have hmove : ∀ d : Diagnostic, b.right.span.start < d.span.start →
      h.closing.span.start < (d.withSpan (e.moveSpan d.span)).span.start := by
    intro d hd
    simp only [hright, Diagnostic.withSpan, Edit.moveSpan, Edit.move]
    omega
  have hmono : ∀ c d : Diagnostic, b.right.span.start < c.span.start →
      b.right.span.start < d.span.start → (c.span.start ≤ d.span.start ↔
        (c.withSpan (e.moveSpan c.span)).span.start
          ≤ (d.withSpan (e.moveSpan d.span)).span.start) := by
    intro c d hc hd
    simp only [Diagnostic.withSpan, Edit.moveSpan, Edit.move]
    omega
  have hinner' : ∀ d ∈ h.itemsOutcome.issues.map (Issue.reportAs Version.new),
      b.left.span.stop ≤ d.span.start ∧ d.span.start ≤ h.closing.span.start := by
    intro d hd
    obtain ⟨i, hi, rfl⟩ := List.mem_map.1 hd
    exact (h.within_between hlost hi).2
  have hsplice := Diagnostic.sort_splice hmove hleft hempty
    (fun i hi => ⟨(w.inner_between hi).1, (w.inner_between hi).2.1⟩) hinner'
    (fun i hi => (w.outer_cases hlost hi).imp_left fun h => ⟨h.1, h.2.1⟩) hmono
  rw [← hold, ← hnew, hshift, Diagnostic.sort_map (by simp [Diagnostic.withSpan, Span.shift])]
    at hsplice
  obtain ⟨hbefore, hafter, -⟩ := Diagnostic.around?_eq_some h.around_eq
  rw [List.filter_congr fun d hd => (w.report_cases hlost hd).1] at hbefore
  rw [List.filter_congr fun d hd => (w.report_cases hlost hd).2] at hafter
  rw [Taken.diagnostics, hbefore, hafter, ← hsplice]
  refine (Diagnostic.sort_of_sorted ?_).symm
  rw [parse_diagnostics]
  exact Diagnostic.sort_sorted _

end Spliced

end NginxConf
