import NginxConf.Format
import NginxConf.Proofs.Lexeme.Relayout

/-!
# A written gap, piece by piece

A gap is written as trivia (`Gap.pieces`): breaks, blanks, and the comments that it has had, in
order. Where each comment ends its line, the lexer cuts that trivia into the same comments again, and
into blanks and line ends in one way or another (`exists_cut`).

Blanks cannot always be cut as they were written. A lone carriage return is a blank, but in front of
a line feed it is the first half of a line end.
-/

namespace NginxConf

/-! ## The pieces -/

namespace Trivia

/-- Blanks as trivia, if there are any. -/
def blanks (w : Text) : List Trivia := if w = [] then [] else [⟨.whitespace, w⟩]

/-- The comments among some trivia. -/
def comments (ts : List Trivia) : List Text :=
  (ts.filter (·.kind == .comment)).map Trivia.text

@[simp]
theorem textOf_blanks (w : Text) : textOf (blanks w) = w := by
  unfold blanks
  split <;> simp_all

@[simp]
theorem comments_nil : comments [] = [] := rfl

@[simp]
theorem comments_blanks (w : Text) : comments (blanks w) = [] := by
  unfold blanks
  split <;> rfl

@[simp]
theorem comments_append (ss ts : List Trivia) : comments (ss ++ ts) = comments ss ++ comments ts := by
  simp [comments]

theorem comments_cons_of_comment {t : Trivia} (ht : t.kind = .comment) (ts : List Trivia) :
    comments (t :: ts) = t.text :: comments ts := by
  simp [comments, ht]

theorem comments_cons_of_ne {t : Trivia} (ht : t.kind ≠ .comment) (ts : List Trivia) :
    comments (t :: ts) = comments ts := by
  simp [comments, ht]

end Trivia

open Trivia

namespace Lines

variable (style : Style)

/-- Line breaks as trivia. -/
def breakPieces (opened : Bool) (count : Nat) : List Trivia :=
  if opened then List.replicate (min count style.maxBreaks) ⟨.newline, style.lineEnding.text⟩ else []

/-- The trivia that is written for a gap written as lines. -/
def piecesFrom (layout : Lines) (opened : Bool) (count : Nat) (sameLine : Bool) :
    List Trivia → List Trivia
  | [] =>
    let count := max count layout.minBreaks
    if count = 0 then blanks layout.sameLine
    else breakPieces style opened (min count layout.maxBreaks) ++ blanks (style.indent layout.indent)
  | t :: ts =>
    match t.kind with
    | .newline => layout.piecesFrom opened (count + 1) false ts
    | .whitespace => layout.piecesFrom opened count sameLine ts
    | .comment =>
      let before :=
        if sameLine && opened then blanks [' ']
        else breakPieces style opened count ++ blanks (style.indent layout.commentIndent)
      before ++ t :: layout.piecesFrom true 0 sameLine ts

@[simp]
theorem textOf_breakPieces (opened : Bool) (count : Nat) :
    textOf (breakPieces style opened count) = breaks style opened count := by
  cases opened <;> simp [breakPieces, breaks, Style.breaks, textOf, List.flatMap]

@[simp]
theorem comments_breakPieces (opened : Bool) (count : Nat) :
    comments (breakPieces style opened count) = [] := by
  cases opened <;> simp [breakPieces, comments]

theorem textOf_piecesFrom (layout : Lines) (opened : Bool) (count : Nat) (sameLine : Bool)
    (ts : List Trivia) : textOf (layout.piecesFrom style opened count sameLine ts)
      = layout.writeFrom style opened count sameLine ts := by
  fun_induction layout.writeFrom style opened count sameLine ts with
  | case1 opened count sameLine count' hcount => simp [piecesFrom, count', hcount]
  | case2 opened count sameLine count' hcount => simp [piecesFrom, count', hcount]
  | case3 opened count sameLine t ts hkind ih => rw [piecesFrom, hkind, ih]
  | case4 opened count sameLine t ts hkind ih => rw [piecesFrom, hkind, ih]
  | case5 opened count sameLine t ts hkind before ih =>
    simp only [piecesFrom, hkind, textOf_append, textOf_cons, ih, before, List.append_assoc]
    split <;> simp

/-- No comment is lost, and none is made. -/
theorem comments_piecesFrom (layout : Lines) (opened : Bool) (count : Nat) (sameLine : Bool)
    (ts : List Trivia) : comments (layout.piecesFrom style opened count sameLine ts) = comments ts := by
  fun_induction layout.piecesFrom style opened count sameLine ts with
  | case1 => exact comments_blanks _
  | case2 => rw [comments_append, comments_breakPieces, comments_blanks]; rfl
  | case3 opened count sameLine t ts hkind ih => rw [ih, comments_cons_of_ne (by simp [hkind])]
  | case4 opened count sameLine t ts hkind ih => rw [ih, comments_cons_of_ne (by simp [hkind])]
  | case5 opened count sameLine t ts hkind before ih =>
    have hbefore : comments before = [] := by
      simp only [before]
      split <;> simp
    rw [comments_append, hbefore, comments_cons_of_comment hkind, ih,
      comments_cons_of_comment hkind]
    rfl

end Lines

/-- The trivia that is written for a gap written as it was. -/
def verbatimPieces (style : Style) : List Trivia → List Trivia
  | [] => []
  | t :: ts =>
    let here :=
      match t.kind with
      | .newline => [⟨.newline, style.lineEnding.text⟩]
      | .whitespace => if ts.head?.any (·.kind == .newline) then [] else [t]
      | .comment => [t]
    here ++ verbatimPieces style ts

theorem textOf_verbatimPieces (style : Style) (ts : List Trivia) :
    textOf (verbatimPieces style ts) = writeVerbatim style ts := by
  induction ts with
  | nil => rfl
  | cons t ts ih =>
    rw [verbatimPieces, writeVerbatim, textOf_append, ih]
    cases t.kind with
    | newline => simp
    | whitespace => simp only; split <;> simp
    | comment => simp

theorem comments_verbatimPieces (style : Style) (ts : List Trivia) :
    comments (verbatimPieces style ts) = comments ts := by
  induction ts with
  | nil => rfl
  | cons t ts ih =>
    rw [verbatimPieces, comments_append, ih]
    split
    · next hkind => rw [@comments_cons_of_ne t (by simp [hkind])]; rfl
    · next hkind =>
      rw [@comments_cons_of_ne t (by simp [hkind])]
      split
      · rfl
      · rw [comments_cons_of_ne (by simp [hkind])]; rfl
    · next hkind => rw [comments_cons_of_comment hkind, comments_cons_of_comment hkind]; rfl

/-- The trivia that is written for a gap. -/
def Gap.pieces (style : Style) (opened : Bool) (trivia : List Trivia) : Gap → List Trivia
  | lines layout => layout.piecesFrom style opened 0 true trivia
  | nothing => []
  | verbatim => verbatimPieces style trivia

/-- **The pieces of a gap are its text.** -/
theorem Gap.textOf_pieces (style : Style) (opened : Bool) (trivia : List Trivia) (gap : Gap) :
    textOf (gap.pieces style opened trivia) = gap.write style opened trivia := by
  cases gap with
  | lines layout => exact layout.textOf_piecesFrom style opened 0 true trivia
  | nothing => rfl
  | verbatim => exact textOf_verbatimPieces style trivia

/-- Only a gap without comments is written as nothing. -/
theorem Gap.comments_pieces (style : Style) (opened : Bool) (trivia : List Trivia) {gap : Gap}
    (h : gap = .nothing → comments trivia = []) :
    comments (gap.pieces style opened trivia) = comments trivia := by
  cases gap with
  | lines layout => exact layout.comments_piecesFrom style opened 0 true trivia
  | nothing => exact (h rfl).symm
  | verbatim => exact comments_verbatimPieces style trivia

/-! ## Cutting what has been written -/

namespace Trivia

/-- The characters of the piece are such as its kind has. -/
def Loose (t : Trivia) : Prop :=
  match t.kind with
  | .comment => ∃ run, t.text = '#' :: run ∧ ∀ d ∈ run, isLineEnd d = false
  | _ => ∀ c ∈ t.text, isBlank c = true

/-- Each comment is followed by the end of its line, or by nothing at all. -/
def Ended (next : Text) : List Trivia → Prop
  | [] => True
  | t :: ts => (t.kind = .comment → ∀ d ∈ (textOf ts ++ next).head?, isLineEnd d = true) ∧
      Ended next ts

theorem isBlank_of_isInlineBlank {c : Char} (h : isInlineBlank c = true) : isBlank c = true :=
  (Bool.and_eq_true_iff.1 h).1

theorem isBlank_of_isLineEnd {c : Char} (h : isLineEnd c = true) : isBlank c = true := by
  rcases Bool.or_eq_true_iff.1 h with hc | hc <;> rw [beq_iff_eq.1 hc] <;> decide

/-- A blank before trivia is cut off, or is a part of the first piece. -/
theorem exists_cut_blank {c : Char} {next : Text} {ts : List Trivia} (hc : isBlank c = true)
    (hnext : ∀ d ∈ next.head?, isBlank d = false) (h : Cut next ts) :
    ∃ ps, Cut next ps ∧ textOf ps = c :: textOf ts ∧ comments ps = comments ts := by
  by_cases hfeed : c = '\n'
  · subst hfeed
    exact ⟨⟨.newline, ['\n']⟩ :: ts, ⟨.inl rfl, h⟩, rfl, rfl⟩
  -- a piece of its own, unless it goes on with what follows
  have alone : (∀ d, (textOf ts ++ next).head? = some d →
      isInlineBlank d = false ∧ (c = '\r' → d ≠ '\n')) →
      ∃ ps, Cut next ps ∧ textOf ps = c :: textOf ts ∧ comments ps = comments ts :=
    fun hhead => ⟨⟨.whitespace, [c]⟩ :: ts, ⟨⟨c, [], rfl, hc, hfeed, by simp,
      fun d hd => (hhead d hd).1, fun hr hd => (hhead '\n' hd).2 hr rfl⟩, h⟩, rfl, rfl⟩
  cases ts with
  | nil =>
    refine alone fun d hd => ⟨by simp [isInlineBlank, hnext d hd], ?_⟩
    rintro - rfl
    exact absurd (hnext '\n' hd) (by decide)
  | cons t ts =>
    obtain ⟨kind, text⟩ := t
    cases kind with
    | comment =>
      obtain ⟨run, rfl, -, -⟩ := h.1
      refine alone fun d hd => ?_
      obtain rfl : '#' = d := Option.some.inj hd
      exact ⟨by decide, fun _ => by decide⟩
    | newline =>
      rcases h.1 with rfl | rfl
      · by_cases hreturn : c = '\r'
        · subst hreturn
          exact ⟨⟨.newline, ['\r', '\n']⟩ :: ts, ⟨.inr rfl, h.2⟩, rfl, rfl⟩
        · refine alone fun d hd => ?_
          obtain rfl : '\n' = d := Option.some.inj hd
          exact ⟨by decide, fun hr => absurd hr hreturn⟩
      · refine alone fun d hd => ?_
        obtain rfl : '\r' = d := Option.some.inj hd
        exact ⟨by decide, fun _ => by decide⟩
    | whitespace =>
      obtain ⟨d, run, rfl, -, hd, hrun, hstop, -⟩ := h.1
      by_cases hinline : isInlineBlank d = true
      · refine ⟨⟨.whitespace, c :: d :: run⟩ :: ts,
          ⟨⟨c, d :: run, rfl, hc, hfeed, ?_, hstop, ?_⟩, h.2⟩, rfl, rfl⟩
        · exact List.forall_mem_cons.2 ⟨hinline, hrun⟩
        · exact fun _ hhead => hd (Option.some.inj hhead)
      · refine alone fun e he => ?_
        obtain rfl : d = e := Option.some.inj he
        exact ⟨by simpa using hinline, fun _ => hd⟩

/-- **Trivia in which each comment ends its line is cut into the same comments**, where what follows
does not begin with a blank. -/
theorem exists_cut {next : Text} (hnext : ∀ d ∈ next.head?, isBlank d = false) {ts : List Trivia}
    (hloose : ∀ t ∈ ts, t.Loose) (hended : Ended next ts) :
    ∃ ps, Cut next ps ∧ textOf ps = textOf ts ∧ comments ps = comments ts := by
  induction ts with
  | nil => exact ⟨[], trivial, rfl, rfl⟩
  | cons t ts ih =>
    obtain ⟨ht, hts⟩ := List.forall_mem_cons.1 hloose
    obtain ⟨ps, hcut, htext, hcomments⟩ := ih hts hended.2
    by_cases hkind : t.kind = .comment
    · have hfits : t.Fits (textOf ps ++ next) := by
        have hend := hended.1 hkind
        unfold Loose at ht
        unfold Fits
        rw [hkind] at ht ⊢
        obtain ⟨run, hrun, hline⟩ := ht
        exact ⟨run, hrun, hline, by rwa [htext]⟩
      refine ⟨t :: ps, ⟨hfits, hcut⟩, by rw [textOf_cons, textOf_cons, htext], ?_⟩
      rw [comments_cons_of_comment hkind, comments_cons_of_comment hkind, hcomments]
    · have hblank : ∀ c ∈ t.text, isBlank c = true := by
        unfold Loose at ht
        split at ht
        · next hcomment => exact absurd hcomment hkind
        · exact ht
      rw [textOf_cons, comments_cons_of_ne hkind]
      -- the blanks are put in front one by one, the last one first
      generalize t.text = w at hblank ⊢
      induction w with
      | nil => exact ⟨ps, hcut, htext, hcomments⟩
      | cons c w ihw =>
        obtain ⟨hc, hw⟩ := List.forall_mem_cons.1 hblank
        obtain ⟨qs, hqs, hqstext, hqscomments⟩ := ihw hw
        obtain ⟨rs, hrs, hrstext, hrscomments⟩ := exists_cut_blank hc hnext hqs
        exact ⟨rs, hrs, by rw [hrstext, hqstext, List.cons_append],
          by rw [hrscomments, hqscomments]⟩

/-- A piece that the lexer has cut off has the characters of its kind. -/
theorem Fits.loose {t : Trivia} {next : Text} (h : t.Fits next) : t.Loose := by
  obtain ⟨kind, text⟩ := t
  cases kind with
  | newline => rcases h with rfl | rfl <;> simp [Loose] <;> decide
  | whitespace =>
    obtain ⟨c, run, rfl, hc, -, hrun, -⟩ := h
    exact List.forall_mem_cons.2 ⟨hc, fun d hd => isBlank_of_isInlineBlank (hrun d hd)⟩
  | comment =>
    obtain ⟨run, rfl, hrun, -⟩ := h
    exact ⟨run, rfl, hrun⟩

theorem Cut.loose {next : Text} {ts : List Trivia} (h : Cut next ts) : ∀ t ∈ ts, t.Loose := by
  induction ts with
  | nil => simp
  | cons t ts ih => exact List.forall_mem_cons.2 ⟨h.1.loose, ih h.2⟩

/-- Trivia begins with a blank or with a comment. -/
theorem Cut.exists_head {next : Text} {t : Trivia} {ts : List Trivia} (h : Cut next (t :: ts)) :
    ∃ c w, textOf (t :: ts) = c :: w ∧ (isBlank c = true ∨ c = '#') := by
  have hfits := h.1
  obtain ⟨kind, text⟩ := t
  cases kind with
  | newline =>
    rcases hfits with rfl | rfl
    · exact ⟨'\n', _, rfl, .inl (by decide)⟩
    · exact ⟨'\r', _, rfl, .inl (by decide)⟩
  | whitespace =>
    obtain ⟨c, run, rfl, hc, -⟩ := hfits
    exact ⟨c, _, rfl, .inl hc⟩
  | comment =>
    obtain ⟨run, rfl, -⟩ := hfits
    exact ⟨'#', _, rfl, .inr rfl⟩

end Trivia

end NginxConf
