import NginxConf.Proofs.Lexeme.Relayout
import NginxConf.Proofs.Token.Tiling

/-!
# Tokens with all trivia before them

To which of two tokens a piece of trivia belongs is of no interest for the text between them. The
rows of a list of tokens (`Token.rows`) have all of it before the second one. The rows of a text
follow from its lexemes (`Row.lexemesOf_inj`), so a text that is cut into the lexemes of some rows has
these rows.

Where trivia is divided between two tokens is fixed by the ends of lines. The trivia behind a token
ends where its line does: no line break is among it (`newline_notMem_trailing`), and what stands before
the next token begins with one, if there is any (`newline_leading_tail`). So a token has all trivia
behind it that it can have.
-/

namespace NginxConf

/-- Tokens with all trivia that stands before each, where some trivia stands before the first. -/
def Token.rows (before : List Trivia) : List Token → List Row
  | [] => []
  | t :: ts => ⟨before ++ t.leading, t.kind, t.text⟩ :: rows t.trailing ts

/-- The tokens of a text with the trivia before each, the end of the text included. -/
def rowsOf (s : Text) : List Row := Token.rows [] ((tokenize s).all.map PlacedToken.token)

/-- The row of the end of a text. -/
def Row.stop (trivia : List Trivia) : Row := ⟨trivia, .endOfFile, []⟩

theorem Token.rows_eq_map (before : List Trivia) (ts : List Token) :
    (rows before ts).map (fun r => (r.kind, r.text)) = ts.map fun t => (t.kind, t.text) := by
  induction ts generalizing before with
  | nil => rfl
  | cons t ts ih => rw [rows, List.map_cons, List.map_cons, ih]

/-- Regrouping trivia leaves the lexemes as they are, if none stands behind the last token. -/
theorem Token.lexemesOf_rows (before : List Trivia) (ts : List Token) {stop : Token}
    (hstop : stop.trailing = []) :
    Row.lexemesOf (rows before (ts ++ [stop]))
      = before.map Trivia.lexeme ++ (ts ++ [stop]).flatMap Token.lexemes := by
  induction ts generalizing before with
  | nil => simp [rows, Row.lexemesOf, Token.lexemes, hstop]
  | cons t ts ih =>
    rw [List.cons_append, rows, Row.lexemesOf_cons, ih, List.flatMap_cons, Token.lexemes]
    simp only [List.map_append, List.append_assoc, List.cons_append]

theorem trailing_stop_attachTrivia (offset : Nat) (leading : List Trivia) (ls : List Lexeme) :
    (attachTrivia offset leading ls).stop.token.trailing = [] := by
  fun_induction attachTrivia offset leading ls with
  | case1 => rfl
  | case2 _ _ _ _ _ _ ih => exact ih
  | case3 _ _ _ _ _ _ _ _ ih => exact ih

/-- **The lexemes of the rows of a text are those of the text, and the end.** -/
theorem lexemesOf_rowsOf (s : Text) :
    Row.lexemesOf (rowsOf s) = (lex s).map Lexeme.bare ++ [.token .endOfFile []] := by
  have hall : (tokenize s).all.map PlacedToken.token
      = (tokenize s).tokens.map PlacedToken.token ++ [(tokenize s).stop.token] := by
    simp [TokenStream.all]
  have hstop : (tokenize s).stop.token.trailing = [] := trailing_stop_attachTrivia 0 [] (lex s)
  rw [rowsOf, ← lexemes_tokenize, hall, Token.lexemesOf_rows _ _ hstop, ← hall, List.flatMap_map]
  rfl

/-! ## Rows follow from lexemes -/

/-- The trivia before a token is all that stands before it. -/
theorem Row.trivia_inj {ss ts : List Trivia} {k l : TokenKind} {x y : Text} {ls ms : List Lexeme}
    (h : ss.map Trivia.lexeme ++ .token k x :: ls = ts.map Trivia.lexeme ++ .token l y :: ms) :
    ss = ts ∧ k = l ∧ x = y ∧ ls = ms := by
  induction ss generalizing ts with
  | nil =>
    cases ts with
    | nil =>
      obtain ⟨htoken, hls⟩ := List.cons.inj h
      simp only [Lexeme.token, Lexeme.mk.injEq, LeafKind.token.injEq] at htoken
      exact ⟨rfl, htoken.1, htoken.2.1, hls⟩
    | cons t ts => cases (List.cons.inj h).1
  | cons s ss ih =>
    cases ts with
    | nil => cases (List.cons.inj h).1
    | cons t ts =>
      obtain ⟨htrivia, hrest⟩ := List.cons.inj h
      obtain ⟨rfl, hkind⟩ := ih hrest
      obtain ⟨kind, text⟩ := s
      obtain ⟨kind', text'⟩ := t
      simp only [Trivia.lexeme, Lexeme.trivia, Lexeme.mk.injEq, LeafKind.trivia.injEq] at htrivia
      obtain ⟨rfl, rfl, -⟩ := htrivia
      exact ⟨rfl, hkind⟩

/-- **Rows with the same lexemes are the same.** -/
theorem Row.lexemesOf_inj {rows rows' : List Row} (h : lexemesOf rows = lexemesOf rows') :
    rows = rows' := by
  induction rows generalizing rows' with
  | nil =>
    cases rows' with
    | nil => rfl
    | cons r rows' =>
      rw [lexemesOf_cons] at h
      cases hr : r.trivia <;> simp [hr, lexemesOf] at h
  | cons r rows ih =>
    cases rows' with
    | nil =>
      rw [lexemesOf_cons] at h
      cases hr : r.trivia <;> simp [hr, lexemesOf] at h
    | cons r' rows' =>
      rw [lexemesOf_cons, lexemesOf_cons] at h
      obtain ⟨htrivia, hkind, htext, hrest⟩ := trivia_inj h
      obtain ⟨trivia, kind, text⟩ := r
      obtain ⟨trivia', kind', text'⟩ := r'
      cases htrivia
      cases hkind
      cases htext
      rw [ih hrest]

/-- A text that is cut into the lexemes of some rows has these rows. -/
theorem rowsOf_of_lex {s : Text} {rows : List Row} {stop : List Trivia}
    (h : lex s = Row.lexemesOf rows ++ stop.map Trivia.lexeme) :
    rowsOf s = rows ++ [Row.stop stop] := by
  refine Row.lexemesOf_inj ?_
  have hbare : (lex s).map Lexeme.bare = lex s := by
    rw [h]
    refine (List.map_congr_left fun l hl => ?_).trans (List.map_id _)
    simp only [Row.lexemesOf, List.mem_append, List.mem_flatMap, List.mem_map,
      List.mem_singleton] at hl
    rcases hl with ⟨r, -, ⟨t, -, rfl⟩ | rfl⟩ | ⟨t, -, rfl⟩ <;> rfl
  rw [lexemesOf_rowsOf, hbare, h]
  simp [Row.lexemesOf, Row.stop]

/-! ## Trivia and the ends of lines -/

variable {offset : Nat} {leading : List Trivia} {l : Lexeme} {ls : List Lexeme}

/-- Trivia that begins with a line break, if with anything. -/
def Trivia.BreaksFirst (ts : List Trivia) : Prop := ∀ t ∈ ts.head?, t.kind = .newline

/-- No trivia but a line break comes first. -/
def StartsLine (ls : List Lexeme) : Prop :=
  ∀ l ∈ ls.head?, ∀ kind, l.kind = .trivia kind → kind = .newline

theorem newline_notMem_splitTrailing (ls : List Lexeme) :
    ∀ t ∈ (splitTrailing ls).1, t.kind ≠ .newline := by
  induction ls with
  | nil => simp [splitTrailing]
  | cons l ls ih =>
    unfold splitTrailing
    split
    · simp
    · next kind hne hkind =>
      intro t ht
      rcases List.mem_cons.1 ht with rfl | ht
      · rintro rfl
        exact hne rfl
      · exact ih t ht
    · simp

theorem startsLine_splitTrailing (ls : List Lexeme) : StartsLine (splitTrailing ls).2 := by
  induction ls with
  | nil => simp [splitTrailing, StartsLine]
  | cons l ls ih =>
    unfold splitTrailing
    split
    · next hkind =>
      intro k hk kind hk'
      cases hk
      rw [hkind] at hk'
      cases hk'
      rfl
    · exact ih
    · next hkind =>
      intro k hk kind hk'
      cases hk
      rw [hkind] at hk'
      cases hk'

/-- **No line break stands behind a token on its line.** -/
theorem newline_notMem_trailing (offset : Nat) (leading : List Trivia) (ls : List Lexeme) :
    ∀ p ∈ (attachTrivia offset leading ls).all, ∀ t ∈ p.token.trailing, t.kind ≠ .newline := by
  fun_induction attachTrivia offset leading ls with
  | case1 => simp [TokenStream.all, Token.endOfFile]
  | case2 _ _ _ _ _ _ ih => exact ih
  | case3 offset leading l ls kind hkind token more ih =>
    intro p hp
    rcases List.mem_cons.1 hp with rfl | hp
    · exact newline_notMem_splitTrailing ls
    · exact ih p hp

/-- Tokens that begin where a line does have a line break first, or nothing. -/
theorem newline_leading (hleading : Trivia.BreaksFirst leading)
    (hls : leading = [] → StartsLine ls) :
    ∀ p ∈ (attachTrivia offset leading ls).all, Trivia.BreaksFirst p.token.leading := by
  fun_induction attachTrivia offset leading ls with
  | case1 =>
    intro p hp
    obtain rfl := List.mem_singleton.1 hp
    exact hleading
  | case2 offset leading l ls kind hkind ih =>
    refine ih (fun t ht => ?_) fun hnil => absurd hnil (by simp)
    cases leading with
    | nil =>
      cases ht
      exact hls rfl l rfl kind hkind
    | cons t' leading => exact hleading t ht
  | case3 offset leading l ls kind hkind token more ih =>
    intro p hp
    rcases List.mem_cons.1 hp with rfl | hp
    · exact hleading
    · exact ih (by simp [Trivia.BreaksFirst]) (fun _ => startsLine_splitTrailing ls) p hp

/-- **Before a token that is not the first one there is a line break first, or nothing.** -/
theorem newline_leading_tail (offset : Nat) (leading : List Trivia) (ls : List Lexeme) :
    ∀ p ∈ (attachTrivia offset leading ls).all.tail, Trivia.BreaksFirst p.token.leading := by
  fun_induction attachTrivia offset leading ls with
  | case1 => simp [TokenStream.all]
  | case2 _ _ _ _ _ _ ih => exact ih
  | case3 offset leading l ls kind hkind token more ih =>
    exact newline_leading (by simp [Trivia.BreaksFirst]) fun _ => startsLine_splitTrailing ls

end NginxConf
