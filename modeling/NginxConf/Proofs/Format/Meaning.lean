import NginxConf.Proofs.Format.Tidy

/-!
# What formatting keeps

Formatting keeps what a file says, its tokens and its comments, exactly if each comment ends its line
in what is written (`format_keeps_iff`), and so it does where each carriage return belongs to a line
end. It can fail to: a comment also ends at a lone carriage return, which is a blank and may be
dropped, and then the comment goes on over what follows (`format_swallows_directive`).
-/

namespace NginxConf

open Trivia NodeRef

/-! ## What a file says -/

/-- The text of a comment. -/
def Lexeme.comment? (l : Lexeme) : Option Text :=
  if l.kind = .trivia .comment then some l.text else none

/-- The kind and the text of a token. -/
def Lexeme.significant? (l : Lexeme) : Option (TokenKind × Text) :=
  match l.kind with
  | .token kind => some (kind, l.text)
  | .trivia _ => none

namespace SyntaxTree

/-- The comments of a tree, in order. -/
def comments (t : SyntaxTree) : List Text := t.lexemes.filterMap Lexeme.comment?

/-- The tokens of a tree with their texts, in order, trivia left out. -/
def significant (t : SyntaxTree) : List (TokenKind × Text) := t.lexemes.filterMap Lexeme.significant?

end SyntaxTree

theorem Trivia.comments_map_lexeme (ts : List Trivia) :
    (ts.map lexeme).filterMap Lexeme.comment? = comments ts := by
  induction ts with
  | nil => rfl
  | cons t ts ih =>
    rw [List.map_cons, List.filterMap_cons, ih]
    cases hk : t.kind <;> simp [Lexeme.comment?, Trivia.lexeme, Lexeme.trivia, comments, hk]

namespace Row

theorem comments_lexemesOf (rows : List Row) : (lexemesOf rows).filterMap Lexeme.comment?
    = (rows.map (comments ·.trivia)).flatten := by
  induction rows with
  | nil => rfl
  | cons r rows ih =>
    rw [lexemesOf_cons, List.filterMap_append, comments_map_lexeme, List.filterMap_cons, ih]
    simp [Lexeme.comment?, Lexeme.token]

theorem significant_lexemesOf (rows : List Row) : (lexemesOf rows).filterMap Lexeme.significant?
    = rows.map fun r => (r.kind, r.text) := by
  have htrivia : ∀ ts : List Trivia, (ts.map lexeme).filterMap Lexeme.significant? = [] := by
    intro ts
    induction ts with
    | nil => rfl
    | cons t ts ih => rw [List.map_cons, List.filterMap_cons, ih]; rfl
  induction rows with
  | nil => rfl
  | cons r rows ih =>
    rw [lexemesOf_cons, List.filterMap_append, htrivia, List.filterMap_cons, ih]
    rfl

end Row

theorem lexemes_parse (s : Text) : (parse s).tree.lexemes = Row.lexemesOf (rowsOf s) := by
  rw [lexemesOf_rowsOf]
  exact (isFileOf_parse s).lexemes

/-- The comments of a text are its lexemes of this kind. -/
theorem comments_parse (s : Text) :
    (parse s).tree.comments = (lex s).filterMap Lexeme.comment? := by
  rw [SyntaxTree.comments, (isFileOf_parse s).lexemes, List.filterMap_append, List.filterMap_map]
  exact List.append_nil _

theorem comments_eq_rowsOf (s : Text) :
    (parse s).tree.comments = ((rowsOf s).map (Trivia.comments ·.trivia)).flatten := by
  rw [SyntaxTree.comments, lexemes_parse, Row.comments_lexemesOf]

theorem significant_eq_rowsOf (s : Text) :
    (parse s).tree.significant = (rowsOf s).map fun r => (r.kind, r.text) := by
  rw [SyntaxTree.significant, lexemes_parse, Row.significant_lexemesOf]

/-- The comments of a text, gap by gap as they are written. -/
theorem comments_eq_writtenRows (s : Text) (style : Style) (starts : List Nat) :
    (parse s).tree.comments = ((writtenRows style starts none
      (root (parse s).tree).allTokens).map (Trivia.comments ·.trivia)).flatten := by
  rw [comments_writtenRows, oldRows_allTokens, comments_eq_rowsOf]

/-! ## A comment that goes on -/

/-- Trivia without comments has none that does not end its line. -/
theorem Trivia.ended_of_comments {next : Text} {ts : List Trivia} (h : comments ts = []) :
    Ended next ts := by
  induction ts with
  | nil => trivial
  | cons t ts ih =>
    by_cases hk : t.kind = .comment
    · rw [comments_cons_of_comment hk] at h
      cases h
    · exact ⟨fun hcomment => absurd hcomment hk, ih (by rwa [comments_cons_of_ne hk] at h)⟩

/-- Where a comment does not end its line, there is a first such comment. -/
theorem Trivia.exists_not_ended {next : Text} {ts : List Trivia} (h : ¬ Ended next ts) :
    ∃ before q after d, ts = before ++ q :: after ∧ q.kind = .comment ∧
      Ended (q.text ++ (textOf after ++ next)) before ∧ d ∈ (textOf after ++ next).head? ∧
      isLineEnd d = false := by
  induction ts with
  | nil => exact absurd trivial h
  | cons t ts ih =>
    by_cases hhere : t.kind = .comment → ∀ d ∈ (textOf ts ++ next).head?, isLineEnd d = true
    · obtain ⟨before, q, after, d, rfl, hq, hended, hd⟩ := ih fun hts => h ⟨hhere, hts⟩
      refine ⟨t :: before, q, after, d, rfl, hq, ⟨?_, hended⟩, hd⟩
      simpa [textOf_append] using hhere
    · obtain ⟨hkind, hhere⟩ := Classical.not_imp.1 hhere
      obtain ⟨d, hd⟩ := Classical.not_forall.1 hhere
      obtain ⟨hd, hline⟩ := Classical.not_imp.1 hd
      exact ⟨[], t, ts, d, rfl, hkind, trivial, hd, by simpa using hline⟩

/-- Where comments do not end their lines in what is written, there is a first gap with such a
comment. -/
theorem NodeRef.exists_not_ended {style : Style} {starts : List Nat} {ts : List TokenRef}
    (previous : Option TokenRef) (h : ¬ Row.AllEnded [] (writtenRows style starts previous ts)) :
    ∃ before t after, ts = before ++ t :: after ∧
      Row.AllEnded (Row.textOf (writtenRows style starts (lastOf previous before) (t :: after)))
        (writtenRows style starts previous before) ∧
      ¬ Ended (t.token.text ++ Row.textOf (writtenRows style starts (some t) after))
        ((gapBefore style starts (lastOf previous before) t).1.pieces style
          (lastOf previous before).isSome (triviaBefore (lastOf previous before) ++ t.token.leading)) := by
  induction ts generalizing previous with
  | nil => exact absurd trivial h
  | cons t ts ih =>
    rw [writtenRows_cons, Row.AllEnded, List.append_nil] at h
    by_cases hhere : Ended (t.token.text ++ Row.textOf (writtenRows style starts (some t) ts))
        ((gapBefore style starts previous t).1.pieces style previous.isSome
          (triviaBefore previous ++ t.token.leading))
    · obtain ⟨before, u, after, rfl, hended, hnot⟩ := ih (some t) fun hts => h ⟨hhere, hts⟩
      refine ⟨t :: before, u, after, rfl, ?_, by rwa [lastOf_cons]⟩
      rw [lastOf_cons, writtenRows_cons previous]
      rw [writtenRows_append, Row.textOf_append] at hhere
      exact ⟨hhere, hended⟩
    · exact ⟨[], t, ts, rfl, trivial, hhere⟩

/-- A comment in front of a text that does not begin with a line end is read as a longer one. -/
theorem lexFrom_swallowed {mode : Mode} (hmode : mode ≠ .luaBody) {run : Text}
    (hrun : ∀ c ∈ run, isLineEnd c = false) {d : Char} (hline : isLineEnd d = false) (x : Text) :
    ∃ text ls, lexFrom mode ('#' :: run ++ d :: x) = .trivia .comment text :: ls ∧
      text ≠ '#' :: run := by
  have hstep : lexStep mode ('#' :: run ++ d :: x) = some (LexStep.plain mode '#' (run ++ d :: x)) := by
    rw [lexStep, if_neg hmode]
    rfl
  refine ⟨_, _, lexFrom_of_some hstep, ?_⟩
  rw [List.takeWhile_append_of_pos (fun c hc => by simp [hrun c hc]),
    List.takeWhile_cons_of_pos (by simp [hline])]
  simp

/-- **Where a comment does not end its line, other comments are read than were written.** -/
theorem comments_lexFrom_ne {mode : Mode} (hmode : mode ≠ .luaBody) {next : Text}
    {pieces : List Trivia} (hloose : ∀ t ∈ pieces, t.Loose) (hnot : ¬ Ended next pieces)
    (more : List Text) :
    (lexFrom mode (textOf pieces ++ next)).filterMap Lexeme.comment? ≠ comments pieces ++ more := by
  obtain ⟨before, q, after, d, rfl, hq, hended, hd, hline⟩ := Trivia.exists_not_ended hnot
  obtain ⟨hbefore, hqloose⟩ := List.forall_mem_append.1 hloose
  have hqloose := (List.forall_mem_cons.1 hqloose).1
  unfold Loose at hqloose
  rw [hq] at hqloose
  obtain ⟨run, htext, hrun⟩ := hqloose
  obtain ⟨x, hx⟩ := List.head?_eq_some_iff.1 hd
  rw [hx, htext] at hended
  -- what stands before the comment is read as it has been written
  obtain ⟨ps, hps, hpstext, hpscomments⟩ := Trivia.exists_cut
    (fun c hc => by cases hc; decide) hbefore hended
  obtain ⟨text, ls, hread, hne⟩ := lexFrom_swallowed hmode hrun hline x
  rw [textOf_append, textOf_cons, List.append_assoc, List.append_assoc, hx, htext, ← hpstext,
    lexFrom_cut hmode hps, hread, List.filterMap_append, comments_map_lexeme, hpscomments,
    comments_append, comments_cons_of_comment hq, List.append_assoc]
  intro heq
  refine hne ?_
  rw [← htext]
  exact (List.cons.inj (List.append_cancel_left heq)).1

section Clean

variable {s : Text} {style : Style} (h : (parse s).hasErrors = false)

include h

/-- **Where the comments of a formatted file are those of the file, each ends its line in what is
written.** Otherwise the first one that does not is read as a longer one. -/
theorem commentsEnd_of_comments
    (hcomments : (parse ((root (parse s).tree).format style)).tree.comments
      = (parse s).tree.comments) : CommentsEnd ((root (parse s).tree).written style) := by
  rw [written, Row.commentsEnd_lexemesOf]
  refine Classical.byContradiction fun hnot => ?_
  obtain ⟨ts, t, us, hall, hended, hnot⟩ := exists_not_ended none hnot
  have hparting := parting_of_split h hall
  -- the rows before the first such gap are read as they have been written
  obtain ⟨rows', hrelaid, hgist⟩ := exists_relaid h style ts none
    (show ts <:+: _ from hall ▸ (List.prefix_append ts (t :: us)).isInfix)
    (ne_endOfFile_of_split hall) hparting.placed hended (hparting.adjoins style _)
  obtain ⟨ls, hlex⟩ := hparting.lex
  have hlexed : lexFrom .normal (Row.textOf (oldRows none ts)
      ++ Row.textOf (oldRows (lastOf none ts) (t :: us))) = _ := hparting.text ▸ hlex
  obtain ⟨mode, hold, hnew⟩ := hrelaid.lexFrom hlexed (fun hmode => by cases hmode)
  -- no script begins before the gap, for there was a comment in it
  have hkept := comments_gapBefore style (root (parse s).tree).itemStarts (lastOf none ts) t
  have hmode : mode ≠ .luaBody := by
    rintro rfl
    rw [oldRows_cons, Row.textOf_cons] at hold
    have hnone : triviaBefore (lastOf none ts) ++ t.token.leading = [] := (cut_of_lexFrom hold).2.2 rfl
    rw [hnone] at hkept hnot
    exact hnot (ended_of_comments hkept)
  have hne := comments_lexFrom_ne hmode (loose_gapBefore hparting.cut) hnot
  have hread : lex ((root (parse s).tree).format style) = Row.lexemesOf rows' ++ lexFrom mode
      (Row.textOf (writtenRows style (root (parse s).tree).itemStarts (lastOf none ts) (t :: us))) := by
    rw [NodeRef.format, ← textOf_writtenRows, hall, writtenRows_append, Row.textOf_append,
      ← Row.textOf_eq_of_gist hgist]
    exact hnew
  have hrows := congrArg (List.map fun g => g.2.1) hgist
  rw [List.map_map, List.map_map] at hrows
  rw [comments_parse, hread, comments_eq_writtenRows s style (root (parse s).tree).itemStarts, hall,
    writtenRows_append, List.filterMap_append, Row.comments_lexemesOf, List.map_append,
    List.flatten_append] at hcomments
  rw [show rows'.map (Trivia.comments ·.trivia) = (writtenRows style
    (root (parse s).tree).itemStarts none ts).map (Trivia.comments ·.trivia) from hrows] at hcomments
  have hrest := List.append_cancel_left hcomments
  rw [writtenRows_cons, Row.textOf_cons, List.map_cons, List.flatten_cons] at hrest
  exact hne _ hrest

end Clean

/-! ## What a formatted file says -/

/--
**A formatted file says what the file says exactly if each comment ends its line in what is written.**
It then has no errors, the same tokens, and the same comments. So it is where each carriage return of
the file is the first half of a line end.
-/
theorem format_keeps_iff {style : Style} {s out : Text} (hformat : format style s = .ok out) :
    ((parse out).hasErrors = false ∧
        (parse out).tree.significant = (parse s).tree.significant ∧
        (parse out).tree.comments = (parse s).tree.comments ↔
      CommentsEnd ((NodeRef.root (parse s).tree).written style)) ∧
    (s.ReturnsPaired → CommentsEnd ((NodeRef.root (parse s).tree).written style)) := by
  obtain ⟨h, rfl⟩ := format_eq_ok_iff.1 hformat
  refine ⟨⟨fun hkept => commentsEnd_of_comments h hkept.2.2, fun hended => ?_⟩,
    fun hreturns => commentsEnd_written h hreturns style⟩
  have hrows := rowsOf_format h hended
  refine ⟨hasErrors_format h hended, ?_, ?_⟩
  · have htokens := congrArg (List.map fun g => (g.2.2.1, g.2.2.2)) hrows
    rw [List.map_map, List.map_map] at htokens
    have hwritten := (map_writtenRows style (root (parse s).tree).itemStarts none
      (root (parse s).tree).allTokens).symm
    rw [significant_eq_rowsOf, significant_eq_rowsOf, ← oldRows_allTokens s, oldRows,
      Token.rows_eq_map, List.map_map]
    exact htokens.trans hwritten.symm
  · have hcomments := congrArg (List.map fun g => g.2.1) hrows
    rw [List.map_map, List.map_map] at hcomments
    rw [comments_eq_rowsOf, comments_eq_writtenRows s style (root (parse s).tree).itemStarts]
    exact congrArg List.flatten hcomments

/-- A comment behind a directive of a block, at the end of its line. -/
theorem format_keeps_block :
    format {} "a\x7bb;# c\n\x7d".toList = .ok "a \x7b\n    b; # c\n\x7d".toList ∧
      Text.ReturnsPaired "a\x7bb;# c\n\x7d".toList ∧
      (parse "a \x7b\n    b; # c\n\x7d".toList).hasErrors = false ∧
      (parse "a \x7b\n    b; # c\n\x7d".toList).tree.significant
        = (parse "a\x7bb;# c\n\x7d".toList).tree.significant ∧
      (parse "a \x7b\n    b; # c\n\x7d".toList).tree.comments
        = (parse "a\x7bb;# c\n\x7d".toList).tree.comments := by
  have hformat : format {} "a\x7bb;# c\n\x7d".toList = .ok "a \x7b\n    b; # c\n\x7d".toList :=
    format_eq_ok_iff.2 ⟨by decide +kernel, by decide +kernel⟩
  have hreturns : Text.ReturnsPaired "a\x7bb;# c\n\x7d".toList := by decide
  obtain ⟨hiff, hended⟩ := format_keeps_iff hformat
  exact ⟨hformat, hreturns, hiff.2 (hended hreturns)⟩

/-- A comment that ended at a lone carriage return goes on over the next directive. -/
theorem format_swallows_directive :
    format {} "a; # c\rb;".toList = .ok "a; # c b;".toList ∧
      (parse "a; # c b;".toList).tree.significant
        ≠ (parse "a; # c\rb;".toList).tree.significant ∧
      (parse "a; # c b;".toList).tree.comments ≠ (parse "a; # c\rb;".toList).tree.comments :=
  ⟨format_eq_ok_iff.2 ⟨by decide +kernel, by decide +kernel⟩, by decide +kernel, by decide +kernel⟩

end NginxConf
