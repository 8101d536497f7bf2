import NginxConf.Proofs.Format.Gaps

/-!
# Gaps that are written as they will be read

Where each carriage return belongs to a line end, the trivia between two tokens is neat
(`Trivia.neat_of_cut`): a comment is followed by a line break, and blanks are not followed by blanks.
What is written for such a gap is neat again (`Gap.neat_pieces`), and neat trivia is cut as it stands
(`Trivia.Neat.cut`). A gap that has been written once and is written again, in a style that does not
ask for more line breaks, is what would have been written at first (`Gap.write_pieces`).
-/

namespace NginxConf

open Trivia

variable {last : Prop} {next : Text}

/-- Each carriage return of a text is the first half of a line end. -/
def Text.ReturnsPaired (s : Text) : Prop :=
  ∀ before after, s = before ++ '\r' :: after → after.head? = some '\n'

theorem Text.ReturnsPaired.of_append {s t : Text} (h : ReturnsPaired (s ++ t)) : ReturnsPaired t :=
  fun before after ht => h (s ++ before) after (by rw [ht, List.append_assoc])

theorem Text.returnsPaired_cons {c : Char} {s : Text} : ReturnsPaired (c :: s)
    ↔ (c = '\r' → s.head? = some '\n') ∧ ReturnsPaired s := by
  constructor
  · intro h
    refine ⟨?_, ReturnsPaired.of_append (show ReturnsPaired ([c] ++ s) from h)⟩
    rintro rfl
    exact h [] s rfl
  · rintro ⟨hhead, hs⟩ before after hsplit
    cases before with
    | nil =>
      obtain ⟨rfl, rfl⟩ := List.cons.inj hsplit
      exact hhead rfl
    | cons d before => exact hs before after (List.cons.inj hsplit).2

instance decidableReturnsPaired : (s : Text) → Decidable s.ReturnsPaired
  | [] => .isTrue fun before after h => by cases before <;> cases h
  | _ :: s => @decidable_of_iff' _ _ Text.returnsPaired_cons
      (@instDecidableAnd _ _ inferInstance (decidableReturnsPaired s))

/-! ## Neat trivia -/

namespace Trivia

/-- A piece that may stand before such trivia. Only the last piece of a text may be a comment that is
followed by nothing. -/
def NeatBefore (last : Prop) (t : Trivia) (ts : List Trivia) : Prop :=
  match t.kind with
  | .newline => t.text = ['\n'] ∨ t.text = ['\r', '\n']
  | .whitespace => t.text ≠ [] ∧ (∀ c ∈ t.text, isInlineBlank c = true) ∧
      ∀ u ∈ ts.head?, u.kind ≠ .whitespace
  | .comment => (∃ run, t.text = '#' :: run ∧ ∀ d ∈ run, isLineEnd d = false) ∧
      (ts = [] → last) ∧ ∀ u ∈ ts.head?, u.kind = .newline

/-- Trivia in which comments are followed by line breaks, and blanks by something else. -/
def Neat (last : Prop) : List Trivia → Prop
  | [] => True
  | t :: ts => t.NeatBefore last ts ∧ Neat last ts

/-- How a piece of neat trivia begins. -/
theorem NeatBefore.exists_head {t : Trivia} {ts : List Trivia} (h : t.NeatBefore last ts) :
    ∃ c run, t.text = c :: run ∧ (isInlineBlank c = true ↔ t.kind = .whitespace) ∧
      (isLineEnd c = true ↔ t.kind = .newline) := by
  obtain ⟨kind, text⟩ := t
  cases kind with
  | newline =>
    rcases h with rfl | rfl
    · exact ⟨'\n', _, rfl, by decide, by decide⟩
    · exact ⟨'\r', _, rfl, by decide, by decide⟩
  | whitespace =>
    obtain ⟨hne, hblank, -⟩ := h
    obtain ⟨c, run, rfl⟩ := List.exists_cons_of_ne_nil hne
    have hc := hblank c List.mem_cons_self
    refine ⟨c, run, rfl, by simp [hc], ?_⟩
    have hline := (Bool.and_eq_true_iff.1 hc).2
    simpa using hline
  | comment =>
    obtain ⟨⟨run, rfl, -⟩, -⟩ := h
    exact ⟨'#', run, rfl, ⟨(nomatch ·), (nomatch ·)⟩, ⟨(nomatch ·), (nomatch ·)⟩⟩

/-- A text that begins with neat trivia begins with a character that tells the kind of the piece. -/
theorem Neat.exists_head {u : Trivia} {us : List Trivia} (h : Neat last (u :: us)) (next : Text) :
    ∃ c run, textOf (u :: us) ++ next = c :: run ∧ (isInlineBlank c = true ↔ u.kind = .whitespace) ∧
      (isLineEnd c = true ↔ u.kind = .newline) := by
  obtain ⟨c, run, hu, hc⟩ := h.1.exists_head
  exact ⟨c, run ++ textOf us ++ next, by rw [textOf_cons, hu]; rfl, hc⟩

/-- A piece that the lexer cuts off before neat trivia is neat, unless it begins with a lone carriage
return. -/
theorem neatBefore_of_fits {t : Trivia} {ts : List Trivia} (hfits : t.Fits (textOf ts ++ next))
    (hneat : Neat (next = []) ts) (hreturns : Text.ReturnsPaired (t.text ++ (textOf ts ++ next)))
    (hnext : ∀ d ∈ next.head?, isBlank d = false) : t.NeatBefore (next = []) ts := by
  obtain ⟨kind, text⟩ := t
  cases kind with
  | newline => exact hfits
  | whitespace =>
    obtain ⟨c, run, rfl, hc, hfeed, hrun, hstop, hreturn⟩ := hfits
    -- a carriage return with a line feed behind it would be a line end
    have hpair : c ≠ '\r' := by
      rintro rfl
      exact hreturn rfl (hreturns [] _ rfl)
    refine ⟨List.cons_ne_nil c run, List.forall_mem_cons.2 ⟨?_, hrun⟩, fun u hu hkind => ?_⟩
    · simp [isInlineBlank, hc, isLineEnd, hfeed, hpair]
    · obtain ⟨us, rfl⟩ := List.head?_eq_some_iff.1 hu
      obtain ⟨d, more, hmore, hblank, -⟩ := hneat.exists_head next
      have hno := hstop d (by rw [hmore]; rfl)
      rw [hblank.2 hkind] at hno
      cases hno
  | comment =>
    obtain ⟨run, rfl, hrun, hstop⟩ := hfits
    refine ⟨⟨run, rfl, hrun⟩, fun hnil => ?_, fun u hu => ?_⟩
    · subst hnil
      refine List.head?_eq_none_iff.1 (Option.eq_none_iff_forall_not_mem.2 fun d hd => ?_)
      have hblank := hnext d hd
      rw [isBlank_of_isLineEnd (hstop d hd)] at hblank
      cases hblank
    · obtain ⟨us, rfl⟩ := List.head?_eq_some_iff.1 hu
      obtain ⟨d, more, hmore, -, hline⟩ := hneat.exists_head next
      exact hline.1 (hstop d (by rw [hmore]; rfl))

/-- **Trivia in which each carriage return belongs to a line end is neat.** -/
theorem neat_of_cut {ts : List Trivia} (h : Cut next ts)
    (hreturns : Text.ReturnsPaired (textOf ts ++ next))
    (hnext : ∀ d ∈ next.head?, isBlank d = false) : Neat (next = []) ts := by
  induction ts with
  | nil => trivial
  | cons t ts ih =>
    rw [textOf_cons, List.append_assoc] at hreturns
    have hneat := ih h.2 hreturns.of_append
    exact ⟨neatBefore_of_fits h.1 hneat hreturns hnext, hneat⟩

/-- **Neat trivia is cut as it stands.** -/
theorem Neat.cut {ts : List Trivia} (h : Neat last ts) (hlast : last → next = [])
    (hnext : ∀ d ∈ next.head?, isBlank d = false) : Cut next ts := by
  induction ts with
  | nil => trivial
  | cons t ts ih =>
    refine ⟨?_, ih h.2⟩
    have hhere := h.1
    obtain ⟨kind, text⟩ := t
    cases kind with
    | newline => exact hhere
    | whitespace =>
      obtain ⟨hne, hblank, hfollow⟩ := hhere
      obtain ⟨c, run, rfl⟩ := List.exists_cons_of_ne_nil hne
      obtain ⟨hc, hrun⟩ := List.forall_mem_cons.1 hblank
      have hinline := Bool.and_eq_true_iff.1 hc
      refine ⟨c, run, rfl, hinline.1, ?_, hrun, fun d hd => ?_, ?_⟩
      · rintro rfl
        exact absurd hinline.2 (by decide)
      · cases ts with
        | nil => simp [isInlineBlank, hnext d hd]
        | cons u us =>
          obtain ⟨e, more, hmore, hkind, -⟩ := h.2.exists_head next
          rw [hmore] at hd
          obtain rfl : e = d := Option.some.inj hd
          exact Bool.eq_false_iff.2 fun he => hfollow u rfl (hkind.1 he)
      · rintro rfl
        exact absurd hinline.2 (by decide)
    | comment =>
      obtain ⟨⟨run, rfl, hrun⟩, hnil, hfollow⟩ := hhere
      refine ⟨run, rfl, hrun, fun d hd => ?_⟩
      cases ts with
      | nil =>
        rw [hlast (hnil rfl)] at hd
        cases hd
      | cons u us =>
        obtain ⟨e, more, hmore, -, hkind⟩ := h.2.exists_head next
        rw [hmore] at hd
        obtain rfl : e = d := Option.some.inj hd
        exact hkind.2 (hfollow u rfl)

/-- Trivia that the lexer has cut has its comments at the ends of lines. -/
theorem Cut.ended {ts : List Trivia} (h : Cut next ts) : Ended next ts := by
  induction ts with
  | nil => trivial
  | cons t ts ih =>
    refine ⟨fun hkind => ?_, ih h.2⟩
    have hfits := h.1
    unfold Fits at hfits
    rw [hkind] at hfits
    exact hfits.choose_spec.2.2

/-- **A text is cut into trivia in one way.** -/
theorem Cut.unique {ss ts : List Trivia} (hs : Cut next ss) (ht : Cut next ts)
    (htext : textOf ss = textOf ts) : ss = ts := by
  have hmode : Mode.normal ≠ .luaBody := by decide
  have hboth := (lexFrom_cut hmode hs).symm.trans ((htext ▸ lexFrom_cut hmode ht))
  have hlexemes := List.append_cancel_right hboth
  refine List.map_inj_right (fun s t hst => ?_) |>.1 hlexemes
  obtain ⟨kind, text⟩ := s
  obtain ⟨kind', text'⟩ := t
  simpa [Trivia.lexeme, Lexeme.trivia] using hst

end Trivia

/-! ## What is written for a neat gap -/

namespace Trivia

theorem neat_blanks_append {w : Text} {ts : List Trivia} (hw : ∀ c ∈ w, isInlineBlank c = true)
    (hts : ∀ u ∈ ts.head?, u.kind ≠ .whitespace) (h : Neat last ts) : Neat last (blanks w ++ ts) := by
  unfold blanks
  split
  · exact h
  · next hne => exact ⟨⟨hne, hw, hts⟩, h⟩

theorem neat_blanks {w : Text} (hw : ∀ c ∈ w, isInlineBlank c = true) : Neat last (blanks w) := by
  have h := @neat_blanks_append last w [] hw (by simp) trivial
  rwa [List.append_nil] at h

theorem neatBefore_newline (ending : LineEnding) (ts : List Trivia) :
    NeatBefore last ⟨.newline, ending.text⟩ ts := by
  cases ending with
  | lf => exact .inl rfl
  | crlf => exact .inr rfl

theorem neat_breakPieces (style : Style) (opened : Bool) (count : Nat) {ts : List Trivia}
    (h : Neat last ts) : Neat last (Lines.breakPieces style opened count ++ ts) := by
  unfold Lines.breakPieces
  split
  · induction min count style.maxBreaks with
    | zero => exact h
    | succ n ih => exact ⟨neatBefore_newline style.lineEnding _, ih⟩
  · exact h

/-- The pieces for at least one line break begin with one. -/
theorem head_breakPieces (style : Style) {count : Nat} (hcount : 0 < count) (ts : List Trivia) :
    ∃ u us, Lines.breakPieces style true count ++ ts = u :: us ∧ u.kind = .newline := by
  obtain ⟨n, hn⟩ : ∃ n, min count style.maxBreaks = n + 1 :=
    Nat.exists_eq_add_one.2 (by rw [Style.maxBreaks]; omega)
  exact ⟨_, _, by rw [Lines.breakPieces, if_pos rfl, hn, List.replicate_succ, List.cons_append], rfl⟩

end Trivia

namespace Lines

variable {layout : Lines} (hsame : ∀ c ∈ layout.sameLine, isInlineBlank c = true)
  (hmax : 0 < layout.maxBreaks)

include hmax

/-- Where a line break has been met, a line break is written first. -/
theorem head_piecesFrom (style : Style) {count : Nat} (hcount : 0 < count) (old : List Trivia) :
    ∃ u us, layout.piecesFrom style true count false old = u :: us ∧ u.kind = .newline := by
  induction old generalizing count with
  | nil =>
    rw [piecesFrom, if_neg (by omega)]
    exact head_breakPieces style (by omega) _
  | cons t ts ih =>
    rw [piecesFrom]
    split
    · exact ih (Nat.succ_pos count)
    · exact ih hcount
    · obtain ⟨u, us, h, hu⟩ := head_breakPieces style hcount
        (blanks (style.indent layout.commentIndent) ++ t :: layout.piecesFrom style true 0 false ts)
      exact ⟨u, us, by rw [← h]; simp, hu⟩

/-- Behind a comment, a line break is written, or nothing at the end of the text. -/
theorem piecesFrom_after_comment (style : Style) {t : Trivia} {ts : List Trivia}
    (ht : t.kind = .comment) (h : t.NeatBefore last ts)
    (hlast : last → layout.minBreaks = 0 → layout.sameLine = []) (sameLine : Bool) :
    (layout.piecesFrom style true 0 sameLine ts = [] → last) ∧
      ∀ u ∈ (layout.piecesFrom style true 0 sameLine ts).head?, u.kind = .newline := by
  unfold NeatBefore at h
  rw [ht] at h
  obtain ⟨-, hnil, hfollow⟩ := h
  cases ts with
  | nil =>
    refine ⟨fun _ => hnil rfl, ?_⟩
    rw [piecesFrom]
    split
    · next hcount =>
      rw [hlast (hnil rfl) (by omega)]
      simp [blanks]
    · next hcount =>
      have hpositive : 0 < min (max 0 layout.minBreaks) layout.maxBreaks := by omega
      obtain ⟨u, us, hhead, hu⟩ := head_breakPieces style hpositive
        (blanks (style.indent layout.indent))
      rw [hhead]
      simpa using hu
  | cons v vs =>
    have hv := hfollow v rfl
    obtain ⟨u, us, hhead, hu⟩ := head_piecesFrom hmax style Nat.one_pos vs
    rw [piecesFrom, hv]
    simp only
    rw [hhead]
    exact ⟨fun hnone => absurd hnone (List.cons_ne_nil u us), by simpa using hu⟩

include hsame

/-- **What is written as lines for a neat gap is neat.** -/
theorem neat_piecesFrom (style : Style)
    (hlast : last → layout.minBreaks = 0 → layout.sameLine = []) {old : List Trivia}
    (hold : Neat last old) (opened : Bool) (count : Nat) (sameLine : Bool) :
    Neat last (layout.piecesFrom style opened count sameLine old) := by
  fun_induction layout.piecesFrom style opened count sameLine old with
  | case1 => exact neat_blanks hsame
  | case2 => exact neat_breakPieces _ _ _ (neat_blanks (style.isInlineBlank_indent _))
  | case3 opened count sameLine t ts hkind ih => exact ih hold.2
  | case4 opened count sameLine t ts hkind ih => exact ih hold.2
  | case5 opened count sameLine t ts hkind before ih =>
    have hhere := hold.1
    have hafter := piecesFrom_after_comment hmax style hkind hhere hlast sameLine
    have hcomment : Neat last (t :: layout.piecesFrom style true 0 sameLine ts) := by
      refine ⟨?_, ih hold.2⟩
      unfold NeatBefore at hhere ⊢
      rw [hkind] at hhere ⊢
      exact ⟨hhere.1, hafter⟩
    have hkinds : ∀ u ∈ (t :: layout.piecesFrom style true 0 sameLine ts).head?,
        u.kind ≠ .whitespace := by
      rintro u hu
      obtain rfl : t = u := Option.some.inj hu
      rw [hkind]
      decide
    simp only [before]
    split
    · exact neat_blanks_append (List.forall_mem_singleton.2 (by decide)) hkinds hcomment
    · rw [List.append_assoc]
      exact neat_breakPieces _ _ _
        (neat_blanks_append (style.isInlineBlank_indent _) hkinds hcomment)

end Lines

theorem verbatimPieces_of_newline (style : Style) {t : Trivia} (ht : t.kind = .newline)
    (ts : List Trivia) : verbatimPieces style (t :: ts)
      = ⟨.newline, style.lineEnding.text⟩ :: verbatimPieces style ts := by
  rw [verbatimPieces, ht]
  rfl

theorem verbatimPieces_of_comment (style : Style) {t : Trivia} (ht : t.kind = .comment)
    (ts : List Trivia) : verbatimPieces style (t :: ts) = t :: verbatimPieces style ts := by
  rw [verbatimPieces, ht]
  rfl

/-- Blanks are written as they were unless a line ends behind them. -/
theorem verbatimPieces_of_whitespace (style : Style) {t : Trivia} (ht : t.kind = .whitespace)
    {ts : List Trivia} (h : t.NeatBefore last ts) :
    (∃ u us, ts = u :: us ∧ u.kind = .newline ∧
        verbatimPieces style (t :: ts) = verbatimPieces style ts) ∨
      (∀ u ∈ ts.head?, u.kind = .comment) ∧
        (∀ u ∈ (verbatimPieces style ts).head?, u.kind = .comment) ∧
        verbatimPieces style (t :: ts) = t :: verbatimPieces style ts := by
  unfold NeatBefore at h
  rw [ht] at h
  rw [verbatimPieces, ht]
  cases ts with
  | nil => exact .inr ⟨by simp, by simp [verbatimPieces], rfl⟩
  | cons u us =>
    cases hu : u.kind with
    | newline => exact .inl ⟨u, us, rfl, hu, by simp [hu]⟩
    | whitespace => exact absurd hu (h.2.2 u rfl)
    | comment =>
      rw [verbatimPieces_of_comment style hu]
      exact .inr ⟨by simp [hu], by simp [hu], by simp [hu]⟩

/-- **What is written as it was for a neat gap is neat.** -/
theorem neat_verbatimPieces (style : Style) {old : List Trivia} (hold : Neat last old) :
    Neat last (verbatimPieces style old) := by
  induction old with
  | nil => trivial
  | cons t ts ih =>
    obtain ⟨hhere, hmore⟩ := hold
    have hrest := ih hmore
    cases hkind : t.kind with
    | newline =>
      rw [verbatimPieces_of_newline style hkind]
      exact ⟨neatBefore_newline style.lineEnding _, hrest⟩
    | whitespace =>
      rcases verbatimPieces_of_whitespace style hkind hhere with ⟨-, -, -, -, h⟩ | ⟨-, hfollow, h⟩
      · rwa [h]
      · rw [h]
        refine ⟨?_, hrest⟩
        unfold NeatBefore at hhere ⊢
        rw [hkind] at hhere ⊢
        exact ⟨hhere.1, hhere.2.1, fun u hu => by rw [hfollow u hu]; decide⟩
    | comment =>
      rw [verbatimPieces_of_comment style hkind]
      refine ⟨?_, hrest⟩
      unfold NeatBefore at hhere ⊢
      rw [hkind] at hhere ⊢
      obtain ⟨htext, hnil, hfollow⟩ := hhere
      refine ⟨htext, ?_⟩
      cases ts with
      | nil => exact ⟨fun _ => hnil rfl, by simp [verbatimPieces]⟩
      | cons u us =>
        rw [verbatimPieces_of_newline style (hfollow u rfl)]
        exact ⟨fun hnone => absurd hnone (List.cons_ne_nil _ _), by simp⟩

/-- **What is written for a neat gap is neat.** -/
theorem Gap.neat_pieces (style : Style) (opened : Bool) {gap : Gap} {old : List Trivia}
    (hold : Neat last old)
    (hlines : ∀ layout, gap = .lines layout → (∀ c ∈ layout.sameLine, isInlineBlank c = true) ∧
      0 < layout.maxBreaks ∧ (last → layout.minBreaks = 0 → layout.sameLine = [])) :
    Neat last (gap.pieces style opened old) := by
  cases gap with
  | lines layout =>
    obtain ⟨hsame, hmax, hlast⟩ := hlines layout rfl
    exact layout.neat_piecesFrom hsame hmax style hlast hold opened 0 true
  | nothing => trivial
  | verbatim => exact neat_verbatimPieces style hold

end NginxConf
