import NginxConf.Proofs.Grammar.Relabel
import NginxConf.Proofs.Lexeme.Restart
import NginxConf.Proofs.SyntaxTree.Alike
import NginxConf.Proofs.Token.Splice

/-!
# Tokens without their trivia

Which token a piece of trivia belongs to can change when another text is put in front. The tokens
themselves do not: without their trivia, where they stand, they are the lexemes that are no trivia
(`map_trimmed_tokenize`). So after a structural token, the tokens of a text put behind it are the
ones they were, further on (`map_trimmed_tokenize_append`).
-/

namespace NginxConf

namespace PlacedToken

/-- The token without its trivia, where it stands. -/
def trimmed (p : PlacedToken) : PlacedToken := ⟨p.token.bare, p.span.start, p.fault⟩

/-- The token so much further on. -/
def shift (n : Nat) (p : PlacedToken) : PlacedToken := p.relocate (· + n)

@[simp]
theorem span_trimmed (p : PlacedToken) : p.trimmed.span = p.span := rfl

theorem span_shift (n : Nat) (p : PlacedToken) : (p.shift n).span = p.span.shift n := by
  simp only [span, shift, relocate, Span.shift, Span.mk.injEq]
  omega

theorem relabelling_trimmed : Relabelling trimmed := ⟨fun _ => rfl, fun _ => rfl, fun _ => rfl⟩

theorem relabelling_shift (n : Nat) : Relabelling (shift n) :=
  ⟨fun _ => rfl, fun _ => rfl, fun _ => rfl⟩

/-- The token that a lexeme in its place is, unless it is trivia. -/
def ofLexeme? (placed : Lexeme × Span) : Option PlacedToken :=
  match placed.1.kind with
  | .trivia _ => none
  | .token kind => some ⟨⟨[], kind, placed.1.text, []⟩, placed.2.start, placed.1.fault⟩

theorem ofLexeme?_trivia {l : Lexeme} {kind : TriviaKind} (h : l.kind = .trivia kind)
    (span : Span) : ofLexeme? (l, span) = none := by
  simp only [ofLexeme?, h]

theorem ofLexeme?_token {l : Lexeme} {kind : TokenKind} (h : l.kind = .token kind) (span : Span) :
    ofLexeme? (l, span) = some ⟨⟨[], kind, l.text, []⟩, span.start, l.fault⟩ := by
  simp only [ofLexeme?, h]

theorem ofLexeme?_shift (l : Lexeme) (span : Span) (n : Nat) :
    ofLexeme? (l, span.shift n) = (ofLexeme? (l, span)).map (shift n) := by
  cases h : l.kind with
  | trivia kind => rw [ofLexeme?_trivia h, ofLexeme?_trivia h, Option.map_none]
  | token kind =>
    rw [ofLexeme?_token h, ofLexeme?_token h]
    rfl

end PlacedToken

open PlacedToken (trimmed ofLexeme?)

/-! ## The tokens of a text -/

/-- The trivia up to the end of a line makes no tokens. -/
theorem filterMap_ofLexeme?_splitTrailing (offset : Nat) (ls : List Lexeme) :
    (placeLexemes offset ls).filterMap ofLexeme?
      = (placeLexemes (offset + Trivia.sizeOf (splitTrailing ls).1)
          (splitTrailing ls).2).filterMap ofLexeme? := by
  induction ls generalizing offset with
  | nil => rfl
  | cons l ls ih =>
    unfold splitTrailing
    split
    · rfl
    · next kind hkind =>
      rw [placeLexemes, List.filterMap_cons, PlacedToken.ofLexeme?_trivia hkind, ih, Trivia.sizeOf,
        ← Nat.add_assoc]
      rfl
    · rfl

/-- **The tokens without their trivia are the lexemes that are no trivia.** -/
theorem map_trimmed_attachTrivia (offset : Nat) (leading : List Trivia) (ls : List Lexeme) :
    (attachTrivia offset leading ls).tokens.map trimmed
      = (placeLexemes (offset + Trivia.sizeOf leading) ls).filterMap ofLexeme? := by
  fun_induction attachTrivia offset leading ls with
  | case1 => rfl
  | case2 offset leading l ls kind hkind ih =>
    have hsize : Trivia.sizeOf (leading ++ [⟨kind, l.text⟩]) = Trivia.sizeOf leading + l.size :=
      Trivia.sizeOf_append leading [⟨kind, l.text⟩]
    rw [ih, hsize, placeLexemes, List.filterMap_cons, PlacedToken.ofLexeme?_trivia hkind,
      ← Nat.add_assoc]
  | case3 offset leading l ls kind hkind token more ih =>
    -- the trivia behind the token is passed over
    have hoffset : offset + token.fullSize + Trivia.sizeOf []
        = offset + Trivia.sizeOf leading + l.size + Trivia.sizeOf (splitTrailing ls).1 := by
      simp only [Token.fullSize, Token.leadingSize, Token.size, Lexeme.size, Trivia.sizeOf, token]
      omega
    rw [placeLexemes, List.filterMap_cons, PlacedToken.ofLexeme?_token hkind, List.map_cons, ih,
      hoffset, ← filterMap_ofLexeme?_splitTrailing]
    rfl

theorem map_trimmed_tokenize (s : Text) :
    (tokenize s).tokens.map trimmed = (placeLexemes 0 (lex s)).filterMap ofLexeme? :=
  map_trimmed_attachTrivia 0 [] (lex s)

/-- **The tokens of two texts, one after the other**: where the first one ends with a structural
token, they are the tokens of the first one, and those of the second one further on. -/
theorem map_trimmed_tokenize_append {a : Text} {l : Lexeme} (hlast : (lex a).getLast? = some l)
    (hl : l.isStructural) (b : Text) :
    (tokenize (a ++ b)).tokens.map trimmed = (tokenize a).tokens.map trimmed
      ++ ((tokenize b).tokens.map trimmed).map (.shift (Text.size a)) := by
  have hmoved : (placeLexemes (Text.size a) (lex b)).filterMap ofLexeme?
      = ((placeLexemes 0 (lex b)).filterMap ofLexeme?).map (.shift (Text.size a)) := by
    have hshift := placeLexemes_add 0 (Text.size a) (lex b)
    rw [Nat.zero_add] at hshift
    rw [hshift, List.filterMap_map, List.map_filterMap]
    congr 1
    funext placed
    exact PlacedToken.ofLexeme?_shift placed.1 placed.2 (Text.size a)
  rw [map_trimmed_tokenize, map_trimmed_tokenize, map_trimmed_tokenize, lex_append hlast hl,
    placeLexemes_append, List.filterMap_append, Nat.zero_add,
    show (lex a).flatMap Lexeme.text = a from flatMap_text_lexFrom .normal a, hmoved]

end NginxConf
