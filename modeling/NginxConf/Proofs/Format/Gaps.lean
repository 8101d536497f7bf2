import NginxConf.Proofs.Format.Pieces
import NginxConf.Proofs.Token.Rows

/-!
# A written gap between two tokens

What is written before a token does not change the token before it (`Gap.adjoins_between`): a gap
that was empty stays so unless a blank may stand there, and one that was not begins with a blank
again, or vanishes before a `;`. And what is written is made of blanks and comments
(`Gap.loose_pieces`), so that it can be read again.
-/

namespace NginxConf

open Trivia

variable {style : Style} {next next' : Text} {old : List Trivia}

/-! ## The characters of a written gap -/

theorem Style.isInlineBlank_indent (style : Style) (level : Nat) :
    ∀ c ∈ style.indent level, isInlineBlank c = true := by
  intro c hc
  unfold Style.indent at hc
  split at hc
  · rw [List.eq_of_mem_replicate hc]; decide
  · rw [List.eq_of_mem_replicate hc]; decide

theorem LineEnding.exists_text_eq (ending : LineEnding) :
    ∃ c w, ending.text = c :: w ∧ isLineEnd c = true := by
  cases ending with
  | lf => exact ⟨'\n', [], rfl, rfl⟩
  | crlf => exact ⟨'\r', ['\n'], rfl, rfl⟩

theorem Trivia.loose_newline (ending : LineEnding) : Loose ⟨.newline, ending.text⟩ := by
  cases ending with
  | lf => exact List.forall_mem_singleton.2 (by decide)
  | crlf => exact List.forall_mem_cons.2 ⟨by decide, List.forall_mem_singleton.2 (by decide)⟩

theorem Trivia.loose_blanks {w : Text} (hw : ∀ c ∈ w, isBlank c = true) :
    ∀ t ∈ blanks w, t.Loose := by
  intro t ht
  unfold blanks at ht
  split at ht
  · cases ht
  · rw [List.mem_singleton.1 ht]
    exact hw

theorem Lines.loose_breakPieces (opened : Bool) (count : Nat) :
    ∀ t ∈ breakPieces style opened count, t.Loose := by
  intro t ht
  unfold breakPieces at ht
  split at ht
  · rw [List.eq_of_mem_replicate ht]
    exact loose_newline style.lineEnding
  · cases ht

theorem Lines.loose_piecesFrom {layout : Lines} (hsame : ∀ c ∈ layout.sameLine, isBlank c = true)
    (hold : ∀ t ∈ old, t.Loose) (opened : Bool) (count : Nat) (sameLine : Bool) :
    ∀ t ∈ layout.piecesFrom style opened count sameLine old, t.Loose := by
  have hindent : ∀ level, ∀ t ∈ blanks (style.indent level), t.Loose := fun level =>
    loose_blanks fun c hc => isBlank_of_isInlineBlank (style.isInlineBlank_indent level c hc)
  fun_induction layout.piecesFrom style opened count sameLine old with
  | case1 => exact loose_blanks hsame
  | case2 =>
    exact List.forall_mem_append.2 ⟨loose_breakPieces _ _, hindent _⟩
  | case3 opened count sameLine t ts hkind ih => exact ih (List.forall_mem_cons.1 hold).2
  | case4 opened count sameLine t ts hkind ih => exact ih (List.forall_mem_cons.1 hold).2
  | case5 opened count sameLine t ts hkind before ih =>
    obtain ⟨ht, hts⟩ := List.forall_mem_cons.1 hold
    refine List.forall_mem_append.2 ⟨?_, List.forall_mem_cons.2 ⟨ht, ih hts⟩⟩
    simp only [before]
    split
    · exact loose_blanks (List.forall_mem_singleton.2 (by decide))
    · exact List.forall_mem_append.2 ⟨loose_breakPieces _ _, hindent _⟩

theorem loose_verbatimPieces (hold : ∀ t ∈ old, t.Loose) :
    ∀ t ∈ verbatimPieces style old, t.Loose := by
  induction old with
  | nil => exact hold
  | cons t ts ih =>
    obtain ⟨ht, hts⟩ := List.forall_mem_cons.1 hold
    refine List.forall_mem_append.2 ⟨?_, ih hts⟩
    split
    · simpa using loose_newline style.lineEnding
    · split
      · simp
      · simpa using ht
    · simpa using ht

/-- **What is written for a gap is made of blanks and comments.** -/
theorem Gap.loose_pieces {gap : Gap} {opened : Bool} (hold : ∀ t ∈ old, t.Loose)
    (hsame : ∀ layout, gap = .lines layout → ∀ c ∈ layout.sameLine, isBlank c = true) :
    ∀ t ∈ gap.pieces style opened old, t.Loose := by
  cases gap with
  | lines layout => exact layout.loose_piecesFrom (hsame layout rfl) hold opened 0 true
  | nothing => simp [Gap.pieces]
  | verbatim => exact loose_verbatimPieces hold

/-! ## How a written gap begins -/

/-- Between two tokens, lines begin with a blank, or nothing is written. -/
theorem Lines.head_writeFrom {layout : Lines} (hsame : ∀ c ∈ layout.sameLine, isBlank c = true)
    (hmax : 0 < layout.maxBreaks) {count : Nat} {sameLine : Bool}
    (h : sameLine = true ∨ 0 < count) (style : Style) (old : List Trivia) :
    (∀ c ∈ (layout.writeFrom style true count sameLine old).head?, isBlank c = true) ∧
      (layout.writeFrom style true count sameLine old = [] → layout.sameLine = []) := by
  have hbreaks : ∀ n w, 0 < n → ∃ c r, breaks style true n ++ w = c :: r ∧ isBlank c = true := by
    intro n w hn
    obtain ⟨c, r, hr, hc⟩ := style.lineEnding.exists_text_eq
    obtain ⟨k, hk⟩ : ∃ k, min n style.maxBreaks = k + 1 :=
      Nat.exists_eq_add_one.2 (by rw [Style.maxBreaks]; omega)
    exact ⟨c, _, by rw [breaks, if_pos rfl, Style.breaks, hk, List.replicate_succ,
      List.flatten_cons, hr]; rfl, isBlank_of_isLineEnd hc⟩
  induction old generalizing count sameLine with
  | nil =>
    rw [writeFrom]
    split
    · refine ⟨fun c hc => hsame c (List.mem_of_mem_head? hc), id⟩
    · next hcount =>
      obtain ⟨c, r, hr, hc⟩ := hbreaks (min (max count layout.minBreaks) layout.maxBreaks)
        (style.indent layout.indent) (by omega)
      rw [hr]
      simp [hc]
  | cons t ts ih =>
    rw [writeFrom]
    split
    · exact ih (.inr (Nat.succ_pos _))
    · exact ih h
    · by_cases hline : sameLine = true
      · simp only [hline, Bool.true_and, if_true, List.cons_append]
        simp only [List.head?_cons, Option.mem_some_iff, reduceCtorEq, false_implies, and_true]
        rintro c rfl
        decide
      · rw [Bool.not_eq_true] at hline
        subst hline
        obtain ⟨c, r, hr, hc⟩ := hbreaks count
          (style.indent layout.commentIndent ++ (t.text ++ layout.writeFrom style true 0 false ts))
          (h.resolve_left Bool.false_ne_true)
        simp only [Bool.false_and, Bool.false_eq_true, if_false, List.append_assoc]
        rw [hr]
        simp [hc]

/-- Trivia written as it was begins as it did, or with a line end. -/
theorem head_writeVerbatim {t : Trivia} {ts : List Trivia} (h : Cut next (t :: ts)) :
    (writeVerbatim style (t :: ts)).head? = (textOf (t :: ts)).head? ∨
      ∃ c w, writeVerbatim style (t :: ts) = c :: w ∧ isLineEnd c = true := by
  obtain ⟨c, r, hr, hc⟩ := style.lineEnding.exists_text_eq
  have hnewline : ∀ {us : List Trivia} (w : Text),
      ∃ d x, writeVerbatim style (⟨.newline, w⟩ :: us) = d :: x ∧ isLineEnd d = true := by
    intro us w
    refine ⟨c, r ++ writeVerbatim style us, ?_, hc⟩
    rw [show writeVerbatim style (⟨.newline, w⟩ :: us)
      = style.lineEnding.text ++ writeVerbatim style us from rfl, hr, List.cons_append]
  have hfits := h.1
  obtain ⟨kind, text⟩ := t
  cases kind with
  | newline => exact .inr (hnewline text)
  | whitespace =>
    obtain ⟨d, run, rfl, -⟩ := hfits
    cases ts with
    | nil => exact .inl rfl
    | cons u us =>
      obtain ⟨next, w⟩ := u
      -- blanks at the end of a line are dropped
      cases next with
      | newline => exact .inr (hnewline w)
      | whitespace => exact .inl rfl
      | comment => exact .inl rfl
  | comment =>
    obtain ⟨run, rfl, -⟩ := hfits
    exact .inl rfl

/-! ## The token before a gap -/

section Adjoins

variable {kind : TokenKind} (hold : Cut next old)

include hold

/-- What stands behind code that ends before a brace is that brace. -/
theorem Trivia.Cut.head?_ne_rightBrace (hne : old ≠ []) (w : Text) :
    (textOf old ++ w).head? ≠ some '}' := by
  obtain ⟨t, ts, rfl⟩ := List.exists_cons_of_ne_nil hne
  obtain ⟨c, r, hr, hc⟩ := hold.exists_head
  rw [hr]
  rintro hbrace
  obtain rfl : c = '}' := Option.some.inj hbrace
  revert hc
  decide

theorem Trivia.Cut.textOf_ne_nil (hne : old ≠ []) : textOf old ≠ [] := by
  obtain ⟨t, ts, rfl⟩ := List.exists_cons_of_ne_nil hne
  obtain ⟨c, r, hr, -⟩ := hold.exists_head
  rw [hr]
  exact List.cons_ne_nil c r

theorem adjoins_verbatim (hhead : next.head? = next'.head?) :
    Adjoins kind (textOf old ++ next) (writeVerbatim style old ++ next') := by
  by_cases hne : old = []
  · subst hne
    exact .inl hhead
  have hold' := hold
  obtain ⟨t, ts, rfl⟩ := List.exists_cons_of_ne_nil hne
  rcases @head_writeVerbatim style _ _ _ hold with hsame | ⟨c, w, hw, hc⟩
  · obtain ⟨c, r, hr, -⟩ := hold.exists_head
    rw [hr] at hsame
    obtain ⟨r', hr'⟩ := List.head?_eq_some_iff.1 hsame
    exact .inl (by rw [hr, hr']; rfl)
  · refine .inr (.inr ⟨?_, ?_, fun _ => hold'.head?_ne_rightBrace hne next⟩)
    · exact List.append_ne_nil_of_left_ne_nil (hold'.textOf_ne_nil hne) next
    · rw [hw]
      rintro d hd
      obtain rfl : c = d := Option.some.inj hd
      exact .inl (isBlank_of_isLineEnd hc)

theorem adjoins_lines {layout : Lines} (hsame : ∀ c ∈ layout.sameLine, isBlank c = true)
    (hmax : 0 < layout.maxBreaks) (hcode : kind = .luaCode → next = [])
    (hempty : layout.sameLine = [] → kind = .leftBrace ∨ next' = [])
    (hstop : next = [] → next' = [] ∧ layout.minBreaks = 0 ∧ layout.sameLine = []) :
    Adjoins kind (textOf old ++ next) (layout.writeFrom style true 0 true old ++ next') := by
  obtain ⟨hblank, hnil⟩ := @Lines.head_writeFrom layout hsame hmax 0 true (.inl rfl) style old
  by_cases hnone : textOf old ++ next = []
  · obtain ⟨htext, rfl⟩ := List.append_eq_nil_iff.1 hnone
    obtain ⟨rfl, hmin, hline⟩ := hstop rfl
    have hold' : old = [] := Decidable.byContradiction fun hne => hold.textOf_ne_nil hne htext
    subst hold'
    refine .inl ?_
    simp [Lines.writeFrom, hmin, hline]
  by_cases hbrace : kind = .leftBrace
  · exact .inr (.inl (by rw [hbrace]; rfl))
  refine .inr (.inr ⟨hnone, ?_, fun hk => ?_⟩)
  · cases hw : layout.writeFrom style true 0 true old with
    | nil =>
      rw [List.nil_append, (hempty (hnil hw)).resolve_left hbrace]
      simp [EndsWords]
    | cons c w =>
      rw [hw] at hblank
      rintro d hd
      exact .inl (hblank d hd)
  · have hnext := hcode hk
    subst hnext
    refine hold.head?_ne_rightBrace (fun hnil => hnone ?_) []
    rw [hnil]
    rfl

end Adjoins

/-- A `;` may follow anything but the code of a script at once. -/
theorem adjoins_semicolon {kind : TokenKind} (hcode : kind ≠ .luaCode) {w : Text} (hw : w ≠ [])
    (hnext : next'.head? = some ';') : Adjoins kind w next' := by
  refine .inr (.inr ⟨hw, ?_, fun hk => absurd hk hcode⟩)
  rintro c hc
  rw [hnext] at hc
  exact .inr (Option.some.inj hc).symm

/-! ## How the gap between two tokens is chosen -/

section Between

variable {starts : List Nat} {p t : TokenRef}

/-- The gap before the end. -/
theorem Gap.between_endOfFile (style : Style) (starts : List Nat) (old : List Trivia)
    (h : t.token.kind = .endOfFile) :
    Gap.between style starts old p t = .lines ⟨0, 0, 0, 1, []⟩ := by
  rw [Gap.between, if_pos h]

/-- The three ways to write a gap, and when they are taken. -/
theorem Gap.between_cases (style : Style) (starts : List Nat) (old : List Trivia) (p t : TokenRef) :
    (∃ layout, Gap.between style starts old p t = .lines layout ∧ 0 < layout.maxBreaks ∧
      (t.token.kind = .endOfFile ∧ layout.minBreaks = 0 ∧ layout.sameLine = [] ∨
        p.beforeScript t = false ∧
          (layout.sameLine = [' '] ∨ layout.sameLine = [] ∧ p.token.kind = .leftBrace))) ∨
    (Gap.between style starts old p t = .nothing ∧ p.beforeScript t = false ∧
      t.token.kind = .semicolon ∧ hasBreak old = false) ∨
    (Gap.between style starts old p t = .verbatim ∧ t.token.kind ≠ .endOfFile) := by
  have hmax : 0 < style.maxBreaks := Nat.succ_pos _
  unfold Gap.between
  by_cases hend : t.token.kind = .endOfFile
  · rw [if_pos hend]
    exact .inl ⟨_, rfl, Nat.one_pos, .inl ⟨hend, rfl, rfl⟩⟩
  rw [if_neg hend]
  by_cases hscript : p.beforeScript t = true
  · rw [if_pos hscript]
    exact .inr (.inr ⟨rfl, hend⟩)
  rw [if_neg hscript]
  rw [Bool.not_eq_true] at hscript
  split
  · refine .inl ⟨_, rfl, hmax, .inr ⟨hscript, ?_⟩⟩
    simp only
    split
    · next hempty => exact .inr ⟨rfl, by simp_all⟩
    · exact .inl rfl
  · split
    · exact .inl ⟨_, rfl, hmax, .inr ⟨hscript, .inl rfl⟩⟩
    · split
      · next hsemicolon =>
        exact .inr (.inl ⟨rfl, hscript, hsemicolon.1, by simpa using hsemicolon.2⟩)
      · split
        · exact .inl ⟨_, rfl, hmax, .inr ⟨hscript, .inl rfl⟩⟩
        · exact .inr (.inr ⟨rfl, hend⟩)

theorem Gap.isInlineBlank_sameLine {layout : Lines}
    (h : Gap.between style starts old p t = .lines layout) :
    ∀ c ∈ layout.sameLine, isInlineBlank c = true := by
  rcases Gap.between_cases style starts old p t with ⟨layout', hgap, -, hline⟩ | h' | h'
  · rw [hgap] at h
    cases h
    rcases hline with ⟨-, -, hline⟩ | ⟨-, hline | ⟨hline, -⟩⟩ <;> rw [hline]
    · simp
    · exact List.forall_mem_singleton.2 (by decide)
    · simp
  · rw [h'.1] at h
    cases h
  · rw [h'.1] at h
    cases h

/-- Behind the `{` of a block, and behind a token that ends an item, there is no script. -/
theorem TokenRef.beforeScript_eq_false (ht : t.token.kind ≠ .luaCode)
    (hp : p.token.kind = .leftBrace ∧ p.parent.kind.isBlock = true ∨
      p.token.kind = .semicolon ∨ p.token.kind = .rightBrace) : p.beforeScript t = false := by
  rcases hp with ⟨hp, hblock⟩ | hp | hp
  · simp [beforeScript, ht, hp, NodeKind.isLua_of_isBlock hblock]
  · simp [beforeScript, ht, hp]
  · simp [beforeScript, ht, hp]

/-- The code of a script is followed by what it was followed by. -/
theorem TokenRef.beforeScript_of_luaCode (h : p.token.kind = .luaCode) : p.beforeScript t = true := by
  simp [beforeScript, h]

theorem comments_of_hasBreak (h : hasBreak old = false) : comments old = [] := by
  rw [hasBreak, List.any_eq_false] at h
  rw [comments, List.map_eq_nil_iff, List.filter_eq_nil_iff]
  intro t ht
  have := h t ht
  simp_all

/--
**A written gap does not change the token before it.** The text behind the gap begins with the same
token as before; behind the last gap there is none.
-/
theorem Gap.adjoins_between (style : Style) (starts : List Nat) (hold : Cut next old)
    (hend : t.token.kind = .endOfFile → next = [] ∧ next' = [])
    (hhead : t.token.kind ≠ .endOfFile → next ≠ [] ∧ next.head? = next'.head?)
    (hsemicolon : t.token.kind = .semicolon → next.head? = some ';') :
    Adjoins p.token.kind (textOf old ++ next)
      ((Gap.between style starts old p t).write style true old ++ next') := by
  rcases Gap.between_cases style starts old p t with
    ⟨layout, hgap, hmax, hline⟩ | ⟨hgap, hscript, hkind, -⟩ | ⟨hgap, hkind⟩
  · have hsame := fun c hc => isBlank_of_isInlineBlank (Gap.isInlineBlank_sameLine hgap c hc)
    rw [hgap]
    refine adjoins_lines hold hsame hmax (fun hcode => ?_) (fun hempty => ?_) (fun hnext => ?_)
    · rcases hline with ⟨hkind, -⟩ | ⟨hscript, -⟩
      · exact (hend hkind).1
      · rw [TokenRef.beforeScript_of_luaCode hcode] at hscript
        cases hscript
    · rcases hline with ⟨hkind, -⟩ | ⟨-, hspace | ⟨-, hbrace⟩⟩
      · exact .inr (hend hkind).2
      · rw [hempty] at hspace
        cases hspace
      · exact .inl hbrace
    · have hkind : t.token.kind = .endOfFile :=
        Decidable.byContradiction fun hne => (hhead hne).1 hnext
      rcases hline with ⟨-, hmin, hline⟩ | ⟨-, hline⟩
      · exact ⟨(hend hkind).2, hmin, hline⟩
      · -- a gap at the end is written in the first way
        rw [Gap.between_endOfFile style starts old hkind] at hgap
        cases hgap
        exact ⟨(hend hkind).2, rfl, rfl⟩
  · have hne : t.token.kind ≠ .endOfFile := by rw [hkind]; decide
    rw [hgap]
    refine adjoins_semicolon (fun hcode => ?_) (by simp [(hhead hne).1]) ?_
    · rw [TokenRef.beforeScript_of_luaCode hcode] at hscript
      cases hscript
    · rw [Gap.write, List.nil_append, ← (hhead hne).2]
      exact hsemicolon hkind
  · rw [hgap]
    exact adjoins_verbatim hold (hhead hkind).2

end Between

end NginxConf
