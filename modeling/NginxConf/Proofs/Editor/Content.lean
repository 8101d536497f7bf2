import NginxConf.Editor.Injection

/-!
# The lines of code that show something

Lines can be taken apart and put together without a change where one of them ends
(`Text.lines_of_append`). So the range that is kept of some code is cut at the ends of lines, and
what is left out is blank (`contentSpan?_spec`).
-/

namespace NginxConf

namespace Text

/-! ## Cutting at the end of a line -/

/-- The text ends where a line does: it has nothing, or a line feed at its end. -/
def EndsLine (s : Text) : Prop := s = [] ∨ ∃ init, s = init ++ ['\n']

theorem lines_cons {c : Char} (h : c ≠ '\n') (s : Text) :
    lines (c :: s) = match lines s with
      | [] => [[c]]
      | l :: ls => (c :: l) :: ls := by
  rw [lines.eq_def]
  split
  · next heq => cases heq
  · next heq => exact absurd (List.cons.inj heq).1 h
  · next heq => cases heq; rfl

theorem lines_ne_nil {s : Text} (h : s ≠ []) : lines s ≠ [] := by
  intro hnil
  have hflatten := flatten_lines s
  rw [hnil] at hflatten
  exact h hflatten.symm

/-- What follows a line feed begins with a line of its own. -/
theorem lines_append_newline (init rest : Text) :
    lines (init ++ '\n' :: rest) = lines (init ++ ['\n']) ++ lines rest := by
  induction init with
  | nil => rfl
  | cons c init ih =>
    by_cases hc : c = '\n'
    · subst hc
      rw [List.cons_append, List.cons_append, lines, lines, ih, List.cons_append]
    · rw [List.cons_append, List.cons_append, lines_cons hc, lines_cons hc, ih]
      have hne : init ++ ['\n'] ≠ [] := by simp
      obtain ⟨l, ls, hls⟩ := List.exists_cons_of_ne_nil (lines_ne_nil hne)
      rw [hls, List.cons_append]
      rfl

/-- The first line of a text: all of it, or what goes up to the first line feed. -/
theorem lines_eq_cons {s l : Text} {ls : List Text} (h : lines s = l :: ls) :
    lines l = [l] ∧ (ls = [] ∨ ∃ init, l = init ++ ['\n']) := by
  induction s generalizing l ls with
  | nil => cases h
  | cons c s ih =>
    by_cases hc : c = '\n'
    · subst hc
      rw [lines] at h
      cases h
      exact ⟨rfl, .inr ⟨[], rfl⟩⟩
    · rw [lines_cons hc] at h
      cases hs : lines s with
      | nil =>
        rw [hs] at h
        cases h
        exact ⟨lines_cons hc [], .inl rfl⟩
      | cons k ks =>
        rw [hs] at h
        cases h
        obtain ⟨hline, hends⟩ := ih hs
        refine ⟨by rw [lines_cons hc, hline], hends.imp_right ?_⟩
        rintro ⟨init, rfl⟩
        exact ⟨c :: init, rfl⟩

/-- **Some lines of a text, put together, have these lines**, and end where a line does unless they
are the last ones. -/
theorem lines_of_append {s : Text} {ks ls : List Text} (h : lines s = ks ++ ls) :
    lines ks.flatten = ks ∧ lines ls.flatten = ls ∧ (ls = [] ∨ EndsLine ks.flatten) := by
  induction ks generalizing s with
  | nil =>
    rw [List.nil_append] at h
    refine ⟨rfl, ?_, .inr (.inl rfl)⟩
    rw [← h, flatten_lines]
  | cons k ks ih =>
    obtain ⟨hk, hends⟩ := lines_eq_cons h
    rcases hends with hnil | ⟨init, rfl⟩
    · obtain ⟨rfl, rfl⟩ := List.append_eq_nil_iff.1 hnil
      exact ⟨by simpa using hk, rfl, .inl rfl⟩
    · have htext := flatten_lines s
      rw [h, List.cons_append, List.flatten_cons, List.append_assoc, List.singleton_append] at htext
      rw [← htext, lines_append_newline, hk, List.singleton_append] at h
      obtain ⟨hks, hls, hflatten⟩ := ih (List.cons.inj h).2
      refine ⟨?_, hls, hflatten.imp_right ?_⟩
      · rw [List.flatten_cons, List.append_assoc, List.singleton_append, lines_append_newline, hk,
          hks, List.singleton_append]
      · rw [List.flatten_cons]
        rintro (hnil | ⟨more, hmore⟩)
        · exact .inr ⟨init, by rw [hnil, List.append_nil]⟩
        · exact .inr ⟨init ++ ['\n'] ++ more, by simp [hmore]⟩

theorem isBlankText_flatten (ls : List Text) :
    isBlankText ls.flatten = ls.all isBlankText := by
  rw [isBlankText, List.all_flatten]
  rfl

theorem isBlankText_eq_lines (s : Text) : isBlankText s = (lines s).all isBlankText := by
  rw [← isBlankText_flatten, flatten_lines]

end Text

/-! ## What is left without the blank lines at both ends -/

/-- What holds at the front of a list, up to where it fails for the first time, whatever comes
later. -/
theorem exists_takeWhile_append {α : Type} {p : α → Bool} {ls : List α}
    (h : ∃ a ∈ ls, p a = false) : ∃ l more, ls = ls.takeWhile p ++ l :: more ∧ p l = false ∧
      ∀ ms, (ls ++ ms).takeWhile p = ls.takeWhile p := by
  induction ls with
  | nil => obtain ⟨a, ha, -⟩ := h; cases ha
  | cons k ls ih =>
    cases hk : p k with
    | false => exact ⟨k, ls, by simp [hk], hk, fun ms => by simp [hk]⟩
    | true =>
      obtain ⟨a, ha, hpa⟩ := h
      have hls : ∃ a ∈ ls, p a = false := by
        rcases List.mem_cons.1 ha with rfl | ha
        · rw [hk] at hpa; cases hpa
        · exact ⟨a, ha, hpa⟩
      obtain ⟨l, more, hsplit, hl, happend⟩ := ih hls
      refine ⟨l, more, ?_, hl, fun ms => ?_⟩
      · rw [List.takeWhile_cons_of_pos hk, List.cons_append, ← hsplit]
      · rw [List.cons_append, List.takeWhile_cons_of_pos hk, List.takeWhile_cons_of_pos hk,
          happend]

/-- A list without what holds at its ends: what is left begins and ends with what does not hold. -/
theorem exists_core {α : Type} {p : α → Bool} {ls : List α} (h : ls.all p = false) :
    ∃ core, ls = ls.takeWhile p ++ core ++ (ls.reverse.takeWhile p).reverse ∧
      (∃ l more, core = l :: more ∧ p l = false) ∧ ∃ init l, core = init ++ [l] ∧ p l = false := by
  have hsome : ∃ a ∈ ls, p a = false := by simpa using h
  obtain ⟨l, more, hfront, hl, -⟩ := exists_takeWhile_append hsome
  have hsome' : ∃ a ∈ (l :: more).reverse, p a = false := ⟨l, by simp, hl⟩
  obtain ⟨k, init, hback, hk, happend⟩ := exists_takeWhile_append hsome'
  have htake : ls.reverse.takeWhile p = (l :: more).reverse.takeWhile p := by
    have hreverse : ls.reverse = (l :: more).reverse ++ (ls.takeWhile p).reverse := by
      rw [← List.reverse_append, ← hfront]
    rw [hreverse, happend]
  have hrest : l :: more = (init.reverse ++ [k]) ++ ((l :: more).reverse.takeWhile p).reverse := by
    rw [← List.reverse_cons, ← List.reverse_append, ← hback, List.reverse_reverse]
  refine ⟨init.reverse ++ [k], ?_, ?_, init.reverse, k, rfl, hk⟩
  · rw [htake, List.append_assoc, ← hrest]
    exact hfront
  · obtain ⟨m, ms, hcore⟩ : ∃ m ms, init.reverse ++ [k] = m :: ms :=
      List.exists_cons_of_ne_nil (by simp)
    rw [hcore, List.cons_append] at hrest
    obtain rfl := (List.cons.inj hrest).1
    exact ⟨l, ms, hcore, hl⟩

/-- A cut of some code: blank lines, lines the first and the last of which show something, and blank
lines again. -/
structure IsContent (before content after : Text) : Prop where
  /-- The content begins where the code does, or after a line feed. -/
  start : before.EndsLine
  /-- It ends where the code does, or after a line feed. -/
  stop : after = [] ∨ content.EndsLine
  first : ∃ l more, Text.lines content = l :: more ∧ l.isBlankText = false
  last : ∃ init l, Text.lines content = init ++ [l] ∧ l.isBlankText = false
  before : before.isBlankText = true
  after : after.isBlankText = true

/-- **The range that is kept of some code** leaves out blank lines and nothing else. There is none
just where all of the code is blank. -/
theorem contentSpan?_spec (code : Text) :
    (contentSpan? code = none ∧ code.isBlankText = true) ∨
      (code.isBlankText = false ∧ ∃ before content after, code = before ++ content ++ after ∧
        IsContent before content after ∧
        contentSpan? code = some ⟨Text.size before, Text.size before + Text.size content⟩) := by
  rw [Text.isBlankText_eq_lines]
  cases hall : (Text.lines code).all Text.isBlankText with
  | true => exact .inl ⟨by rw [contentSpan?, hall, if_pos rfl], rfl⟩
  | false =>
    refine .inr ⟨rfl, ?_⟩
    obtain ⟨core, hlines, ⟨l, more, hfirst, hl⟩, init, k, hlast, hk⟩ := exists_core hall
    have hcode := Text.flatten_lines code
    rw [hlines, List.flatten_append, List.flatten_append] at hcode
    have hsplit := Text.lines_of_append hlines
    rw [List.append_assoc] at hlines
    have hcut := Text.lines_of_append hlines
    have hcore : Text.lines core.flatten = core ∧
        ((((Text.lines code).reverse.takeWhile Text.isBlankText).reverse = []) ∨
          Text.EndsLine core.flatten) := by
      obtain ⟨hlines', -, hends⟩ := Text.lines_of_append hcut.2.1
      exact ⟨hlines', hends⟩
    refine ⟨_, core.flatten, _, hcode.symm, ?_, ?_⟩
    · constructor
      case start =>
        refine hcut.2.2.resolve_left fun hnil => ?_
        rw [(List.append_eq_nil_iff.1 hnil).1] at hfirst
        cases hfirst
      case stop => exact hcore.2.imp_left fun hnil => by rw [hnil]; rfl
      case first => exact ⟨l, more, hcore.1.trans hfirst, hl⟩
      case last => exact ⟨init, k, hcore.1.trans hlast, hk⟩
      case before =>
        rw [Text.isBlankText_flatten]
        exact List.all_takeWhile
      case after =>
        rw [Text.isBlankText_flatten, List.all_reverse]
        exact List.all_takeWhile
    · have hsize := congrArg Text.size hcode
      rw [Text.size_append, Text.size_append] at hsize
      rw [contentSpan?, hall, if_neg Bool.false_ne_true, ← hsize]
      simp only [Option.some.injEq, Span.mk.injEq, true_and]
      omega

/-- Where a range is kept, the rest is blank lines. -/
theorem exists_of_contentSpan? {code : Text} {span : Span} (h : contentSpan? code = some span) :
    ∃ before content after, code = before ++ content ++ after ∧ IsContent before content after ∧
      span = ⟨Text.size before, Text.size before + Text.size content⟩ := by
  rcases contentSpan?_spec code with
    ⟨hnone, -⟩ | ⟨-, before, content, after, hcode, hcut, hsome⟩
  · rw [h] at hnone
    cases hnone
  · exact ⟨before, content, after, hcode, hcut, Option.some.inj (h.symm.trans hsome)⟩

end NginxConf
