import NginxConf.Proofs.Edit.Outcome
import NginxConf.Proofs.Token.Splice

/-!
# The tokens after an edit

Where a block is taken alone, and no trivia is lost, the tokens of the edited text are those of the
old text outside of the block and those of the block alone between its braces, each moved to where
it stands now (`Taken.tokenize_edited`). The lexer must not have taken the brace for one that opens
a script: it would then read on differently after it.
-/

namespace NginxConf

theorem filterMap_splitTrailing (ls : List Lexeme) :
    (splitTrailing ls).2.filterMap Lexeme.tokenKind? = ls.filterMap Lexeme.tokenKind? := by
  induction ls with
  | nil => rfl
  | cons l ls ih =>
    unfold splitTrailing
    split
    · rfl
    · next kind hkind =>
      rw [ih, List.filterMap_cons, Lexeme.tokenKind?, hkind]
    · rfl

/-- The kinds of the tokens are those of the pieces that are tokens. -/
theorem map_kind_attachTrivia (offset : Nat) (leading : List Trivia) (ls : List Lexeme) :
    (attachTrivia offset leading ls).tokens.map (·.token.kind)
      = ls.filterMap Lexeme.tokenKind? := by
  fun_induction attachTrivia offset leading ls with
  | case1 => rfl
  | case2 offset leading l ls kind hkind ih =>
    rw [ih, List.filterMap_cons, Lexeme.tokenKind?, hkind]
  | case3 offset leading l ls kind hkind token more ih =>
    rw [List.map_cons, ih, filterMap_splitTrailing, List.filterMap_cons, Lexeme.tokenKind?, hkind]

theorem lexeme_leftBrace {s : Text} {p : PlacedToken} (hp : p ∈ (tokenize s).tokens)
    (hk : p.token.kind = .leftBrace) : p.lexeme = .token .leftBrace ['{'] := by
  have hshaped := tokenize_shaped hp
  rw [PlacedToken.lexeme, hk, hshaped.leftBrace hk, hshaped.fault_eq_none (by simp [hk])]
  rfl

theorem lexeme_rightBrace {s : Text} {p : PlacedToken} (hp : p ∈ (tokenize s).tokens)
    (hk : p.token.kind = .rightBrace) : p.lexeme = .token .rightBrace ['}'] := by
  have hshaped := tokenize_shaped hp
  rw [PlacedToken.lexeme, hk, hshaped.rightBrace hk, hshaped.fault_eq_none (by simp [hk])]
  rfl

/-! ## The pieces of a block -/

/-- The pieces of a text with a block in it. -/
theorem Enclosed.exists_lexemes {s : Text} {b : ClosedBlock} (h : Enclosed s b) :
    ∃ before inside after,
      lex s = before ++ .token .leftBrace ['{'] :: (inside ++ .token .rightBrace ['}'] :: after) ∧
      attachTrivia 0 [] before = ⟨h.tokensBefore, .endAt h.opening.offset h.opening.token.leading⟩ ∧
      Follows h.opening inside h.inside (.endAt h.closing.offset h.closing.token.leading) ∧
      Follows h.closing after h.tokensAfter (tokenize s).stop := by
  obtain ⟨before, more, hlex, hbefore, hmore⟩ := exists_of_attachTrivia
    (show (attachTrivia 0 [] (lex s)).tokens = _ from h.tokens_eq)
  obtain ⟨inside, after, rfl, hinside, hafter⟩ := hmore.exists_of_append
  rw [lexeme_leftBrace (s := s) (by simp [h.tokens_eq]) h.opening_kind,
    lexeme_rightBrace (s := s) (by simp [h.tokens_eq]) h.closing_kind] at hlex
  exact ⟨before, inside, after, hlex, hbefore, hinside, hafter⟩

/-- The pieces of a block alone, where no trivia is left after it. -/
theorem Alone.exists_lexemes {depth : Nat} {shape : BlockShape} {inside : Text}
    (h : Alone depth shape inside) (hlost : h.lost = []) :
    ∃ pieces, lex ('{' :: (inside ++ ['}']))
        = .token .leftBrace ['{'] :: (pieces ++ [.token .rightBrace ['}']]) ∧
      pieces.flatMap Lexeme.text = inside ∧
      Follows h.opening pieces (h.items.flatMap Tree.leaves)
        (.endAt h.closing.offset h.closing.token.leading) := by
  obtain ⟨before, more, hlex, hbefore, hmore⟩ := exists_of_attachTrivia
    (show (attachTrivia 0 [] (lex ('{' :: (inside ++ ['}'])))).tokens = [] ++ h.opening :: _
      from h.tokens_eq.trans (congrArg _ h.rest_tokens))
  obtain ⟨pieces, after, rfl, hpieces, hafter⟩ := hmore.exists_of_append
  obtain ⟨htrailing, hleading⟩ := List.append_eq_nil_iff.1
    (show h.closing.token.trailing ++ _ = [] from hlost)
  have hfirst : h.opening.token.leading = [] := by rw [h.opening_eq]
  rw [hfirst] at hbefore
  rw [stop_eq_endAt] at hafter
  rw [show (attachTrivia 0 [] (lex ('{' :: (inside ++ ['}'])))).stop.token.leading = []
    from hleading] at hafter
  rw [eq_nil_of_attachTrivia hbefore, hafter.eq_nil htrailing,
    lexeme_leftBrace h.opening_mem h.opening_kind,
    lexeme_rightBrace h.closing_mem h.closing_kind] at hlex
  refine ⟨pieces, hlex, ?_, hpieces⟩
  have htext := flatMap_text_lexFrom .normal ('{' :: (inside ++ ['}']))
  rw [show lexFrom .normal _ = _ from hlex] at htext
  simpa [Lexeme.token] using htext

/-! ## The tokens of the edited text -/

namespace Taken

variable {s edited : Text} {e : Edit} {b : ClosedBlock} (h : Taken s e edited b)

/-- The `{` of the block, where it stands now. -/
def opening : PlacedToken :=
  ⟨{ h.new.opening.token with leading := h.old.opening.token.leading }, h.old.opening.offset, none⟩

/-- The `}` of the block, where it stands now. -/
def closing : PlacedToken :=
  ⟨{ h.new.closing.token with trailing := h.old.closing.token.trailing },
    h.new.closing.offset + b.left.span.start, none⟩

/-- What stands between the braces of the block. -/
def within : List PlacedToken := h.new.items.flatMap Tree.leaves

theorem opening_lexeme : h.opening.lexeme = .token .leftBrace ['{'] := by
  rw [PlacedToken.lexeme, opening, h.new.opening_eq]
  rfl

theorem closing_lexeme : h.closing.lexeme = .token .rightBrace ['}'] := by
  rw [PlacedToken.lexeme, closing, h.new.closing_kind, h.new.closing_text]
  rfl

theorem opening_stop : h.opening.span.stop = b.left.span.start + 1 := by
  rw [← h.old.opening_span, PlacedToken.span, opening, h.new.opening_eq]
  rfl

/-- What follows the brace in the block alone follows it in the edited text. -/
theorem follows_opening {pieces : List Lexeme}
    (hpieces : Follows h.new.opening pieces h.within
      (.endAt h.new.closing.offset h.new.closing.token.leading)) :
    Follows h.opening pieces (h.within.map (.relocate (· + b.left.span.start)))
      (.endAt h.closing.offset h.closing.token.leading) := by
  refine hpieces.relocate (f := (· + b.left.span.start)) rfl ?_ fun n => ?_
  · rw [← h.old.opening_span, h.new.opening_eq, opening, h.new.opening_eq]
    simp only [PlacedToken.span, Token.fullSize, Token.leadingSize, Trivia.sizeOf, Token.size]
    omega
  · omega

/-- Where the end of the block stands now. -/
theorem closing_span_of_follows {pieces : List Lexeme}
    (hpieces : pieces.flatMap Lexeme.text = h.inside)
    (hopening : Follows h.opening pieces (h.within.map (.relocate (· + b.left.span.start)))
      (.endAt h.closing.offset h.closing.token.leading)) :
    h.closing.span = e.moveSpan b.right.span ∧ e.removed.size ≤ b.right.span.start ∧
      b.left.span.stop ≤ h.closing.span.start := by
  have hstart := hopening.offset_eq
  rw [hpieces, h.opening_stop, h.old.left_span] at hstart
  have hsize := h.size_inside
  have hremoved := h.size_removed
  have htext : h.closing.token.size = 1 := by
    rw [Token.size, closing, h.new.closing_text]
    rfl
  rw [h.old.right_span, h.old.left_span, Edit.moveSpan, PlacedToken.span, Span.mk.injEq]
  simp only [Edit.move, Token.leadingSize] at hstart ⊢
  omega

/-- What follows the block follows it in the edited text. -/
theorem follows_closing {pieces after : List Lexeme}
    (hpieces : pieces.flatMap Lexeme.text = h.inside)
    (hopening : Follows h.opening pieces (h.within.map (.relocate (· + b.left.span.start)))
      (.endAt h.closing.offset h.closing.token.leading))
    (hafter : Follows h.old.closing after h.old.tokensAfter (tokenize s).stop) :
    Follows h.closing after (h.old.tokensAfter.map (.relocate e.move))
      ((tokenize s).stop.relocate e.move) := by
  obtain ⟨hspan, hle, -⟩ := h.closing_span_of_follows hpieces hopening
  have hstop := congrArg Span.stop hspan
  rw [← h.old.closing_span] at hle hstop
  have htrailing : h.closing.token.trailing = h.old.closing.token.trailing := rfl
  simp only [PlacedToken.span, Edit.moveSpan, Edit.move] at hle hstop
  refine hafter.relocate rfl ?_ fun n => ?_
  · simp only [Edit.move, Token.fullSize, htrailing]
    omega
  · simp only [Edit.move, Token.fullSize]
    omega

/-- **The tokens of the edited text are those of the two texts, in the places where they stand
now.** -/
theorem tokenize_edited (hlost : h.new.lost = [])
    (hscript : opensScript (h.old.tokensBefore.map (·.token.kind)) = false) :
    tokenize edited = ⟨h.old.tokensBefore ++ h.opening ::
        (h.within.map (.relocate (· + b.left.span.start))
          ++ h.closing :: h.old.tokensAfter.map (.relocate e.move)),
      (tokenize s).stop.relocate e.move⟩ := by
  obtain ⟨before, inside, after, hlex, hbefore, hinside, hafter⟩ := h.old.exists_lexemes
  obtain ⟨pieces, halone, htextPieces, hpieces⟩ := h.new.exists_lexemes hlost
  have hopening := h.follows_opening hpieces
  have htextBefore : before.flatMap Lexeme.text = h.old.textBefore := text_of_attachTrivia hbefore
  have htextInside : inside.flatMap Lexeme.text = h.old.textInside := hinside.text_eq
  have hkinds : opensScript (before.filterMap Lexeme.tokenKind?) = false := by
    rw [← map_kind_attachTrivia 0 [], hbefore]
    exact hscript
  rw [h.old.text_eq, ← htextBefore, ← htextInside] at hlex
  rw [← htextPieces] at halone
  have hedited := lex_splice hlex hkinds halone
  rw [htextBefore, htextPieces, ← h.edited_eq, ← h.opening_lexeme, ← h.closing_lexeme] at hedited
  rw [tokenize, hedited]
  exact attachTrivia_append hbefore
    (hopening.append (h.follows_closing htextPieces hopening hafter))

/-- Where the end of the block stands now. -/
theorem closing_span (hlost : h.new.lost = []) : h.closing.span = e.moveSpan b.right.span ∧
    e.removed.size ≤ b.right.span.start ∧ b.left.span.stop ≤ h.closing.span.start := by
  obtain ⟨pieces, -, htext, hpieces⟩ := h.new.exists_lexemes hlost
  exact h.closing_span_of_follows htext (h.follows_opening hpieces)

/-- What stands between the braces in the block alone stands between them now. -/
theorem between_braces (hlost : h.new.lost = []) {p : PlacedToken} (hp : p ∈ h.within) :
    b.left.span.stop ≤ (p.relocate (· + b.left.span.start)).span.start ∧
      (p.relocate (· + b.left.span.start)).span.stop ≤ h.closing.span.start := by
  obtain ⟨pieces, -, -, hpieces⟩ := h.new.exists_lexemes hlost
  obtain ⟨hstart, hstop⟩ := (h.follows_opening hpieces).tile.between.2 _ (List.mem_map_of_mem hp)
  have hleft : b.left.span.stop = h.opening.span.stop := by rw [h.opening_stop, h.old.left_span]
  rw [hleft]
  exact ⟨Nat.le_trans h.opening.stop_le_fullStop hstart,
    Nat.le_trans hstop h.closing.offset_le_start⟩

end Taken

end NginxConf
