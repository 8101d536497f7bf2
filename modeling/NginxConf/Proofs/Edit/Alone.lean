import NginxConf.Proofs.Grammar.Blocks
import NginxConf.Proofs.Lexeme.Splice
import NginxConf.Proofs.Parse.Lossless

/-!
# A block taken alone

When what stands between two braces is parsed with its braces and nothing else, the first token is
the `{` and the block is made of all tokens (`Alone`). The block need not end with the text: trivia
may be left after its `}` (`Alone.lost`), and it is left exactly if the text ends in trivia
(`Alone.endsInTrivia_iff`).
-/

namespace NginxConf

/-- The last piece of a text is trivia. -/
def Text.EndsInTrivia (s : Text) : Prop := ∃ kind text, (lex s).getLast? = some (.trivia kind text)

/-- What stands between two braces is a block of a shape, where `depth` blocks stand around it. -/
structure Alone (depth : Nat) (shape : BlockShape) (inside : Text) where
  room : Nat
  opening : PlacedToken
  rest : List PlacedToken
  closing : PlacedToken
  room_eq : maxDepth - depth = room + 1
  tokens_eq : (tokenize ('{' :: (inside ++ ['}']))).tokens = opening :: rest
  opening_kind : opening.token.kind = .leftBrace
  rest_eq : ((Rule.items shape).run room opening rest).rest = [closing]

/-- A piece that is trivia is not malformed. -/
theorem Lexeme.Shaped.eq_of_bare {l : Lexeme} {t : Trivia} (h : l.Shaped)
    (hl : l.bare = t.lexeme) : l = t.lexeme := by
  have hkind : l.kind = .trivia t.kind := by
    rw [← l.kind_bare, hl]
    rfl
  have hfault : l.fault = none := by
    cases hf : l.fault with
    | none => rfl
    | some fault =>
      have hbad := h.isFaulty_iff.1 (by rw [hf]; rfl)
      rw [hkind] at hbad
      cases hbad
  rw [← hl, Lexeme.bare, ← hfault]

/-- There is no fault in a brace of a text. -/
theorem faultOf_brace {s : Text} {p : PlacedToken} (hp : p ∈ (tokenize s).tokens)
    (hk : p.token.kind = .leftBrace ∨ p.token.kind = .rightBrace) : Outcome.faultOf p = [] := by
  have hnone : p.fault = none := by
    refine (tokenize_shaped hp).fault_eq_none ?_
    rcases hk with hk | hk <;> simp [hk]
  rw [Outcome.faultOf, show Lexical.fault p = p.fault from rfl, hnone]

namespace Alone

variable {depth : Nat} {shape : BlockShape} {inside : Text} (h : Alone depth shape inside)

/-- What stands between the braces. -/
def items : List (Tree PlacedToken) := ((Rule.items shape).run h.room h.opening h.rest).trees

/-- What is found wrong between the braces. -/
def issues : List (Issue PlacedToken) := ((Rule.items shape).run h.room h.opening h.rest).issues

/-- The trivia after the `}`. -/
def lost : List Trivia :=
  h.closing.token.trailing ++ (tokenize ('{' :: (inside ++ ['}']))).stop.token.leading

theorem rest_tokens : h.rest = h.items.flatMap Tree.leaves ++ [h.closing] := by
  rw [← h.rest_eq]
  exact (Rule.runs_items shape h.opening h.rest).read_append_rest.symm

theorem opening_mem : h.opening ∈ (tokenize ('{' :: (inside ++ ['}']))).tokens := by
  simp [h.tokens_eq]

theorem closing_mem : h.closing ∈ (tokenize ('{' :: (inside ++ ['}']))).tokens := by
  simp [h.tokens_eq, h.rest_tokens]

theorem closing_kind : h.closing.token.kind = .rightBrace := Rule.kind_of_rest_items h.rest_eq

theorem opening_eq : h.opening = ⟨⟨[], .leftBrace, ['{'], h.opening.token.trailing⟩, 0, none⟩ := by
  have htokens := h.tokens_eq
  rw [tokenize, lex_leftBrace, attachTrivia] at htokens
  rw [← (List.cons.inj htokens).1]
  rfl

theorem closing_text : h.closing.token.text = ['}'] :=
  (tokenize_shaped h.closing_mem).rightBrace h.closing_kind

/-- **What is parsed alone is a block with both braces, or nothing.** -/
theorem exists_of_parseBlock? {block : Tree PlacedToken} {issues : List (Issue PlacedToken)}
    (hp : parseBlock? depth shape (tokenize ('{' :: (inside ++ ['}']))).tokens
      = some (block, issues)) :
    ∃ h : Alone depth shape inside, block = .braces shape h.opening h.items h.closing ∧
      issues = h.issues := by
  obtain ⟨room, opening, rest, closing, hroom, htokens, hkind, hrest, rfl, rfl⟩ :=
    parseBlock?_eq_some hp
  let h : Alone depth shape inside := ⟨room, opening, rest, closing, hroom, htokens, hkind, hrest⟩
  refine ⟨h, rfl, ?_⟩
  rw [faultOf_brace h.opening_mem (.inl hkind), faultOf_brace h.closing_mem (.inr h.closing_kind)]
  simp [issues, h]

/-! ## Trivia after the closing brace -/

theorem stop_eq : (tokenize ('{' :: (inside ++ ['}']))).stop.token
    = .endOfFile (tokenize ('{' :: (inside ++ ['}']))).stop.token.leading := by
  obtain ⟨left, hleft⟩ := stop_attachTrivia 0 [] (lex ('{' :: (inside ++ ['}'])))
  rw [show (tokenize ('{' :: (inside ++ ['}']))).stop.token = .endOfFile left from hleft]
  rfl

/-- The pieces of the text: those of the block, and the trivia that is left. -/
theorem lexemes_eq : (lex ('{' :: (inside ++ ['}']))).map Lexeme.bare
    = (h.opening :: h.items.flatMap Tree.leaves).flatMap (·.token.lexemes)
      ++ h.closing.token.leading.map Trivia.lexeme
      ++ .token h.closing.token.kind h.closing.token.text :: h.lost.map Trivia.lexeme := by
  have hlex := lexemes_tokenize ('{' :: (inside ++ ['}']))
  rw [TokenStream.all, h.tokens_eq, h.rest_tokens] at hlex
  refine List.append_cancel_right (hlex.symm.trans ?_)
  rw [← List.cons_append, List.append_assoc, List.flatMap_append, List.singleton_append,
    List.flatMap_cons, List.flatMap_cons, List.flatMap_cons, List.flatMap_nil, stop_eq]
  simp [Token.lexemes, Token.endOfFile, lost]

/-- **Trivia is left after the closing brace exactly if the text ends in trivia.** -/
theorem endsInTrivia_iff : Text.EndsInTrivia ('{' :: (inside ++ ['}'])) ↔ h.lost ≠ [] := by
  have hlast := congrArg List.getLast? h.lexemes_eq
  rw [List.getLast?_map, List.getLast?_append, List.getLast?_cons, List.getLast?_map] at hlast
  constructor
  · rintro ⟨kind, text, hl⟩ hnone
    rw [hl, hnone] at hlast
    cases hlast
  · intro hne
    rw [List.getLast?_eq_some_getLast hne] at hlast
    obtain ⟨l, hl, hbare⟩ := Option.map_eq_some_iff.1 hlast
    have hmem : l ∈ lexFrom .normal ('{' :: (inside ++ ['}'])) := List.mem_of_getLast? hl
    exact ⟨_, _, hl.trans (congrArg some ((lexFrom_shaped hmem).eq_of_bare hbare))⟩

/-- What is left takes up room. -/
theorem sizeOf_lost_pos (hne : h.lost ≠ []) : 0 < Trivia.sizeOf h.lost := by
  obtain ⟨t, more, hlost⟩ := List.exists_cons_of_ne_nil hne
  have hmem : t.lexeme ∈ (lex ('{' :: (inside ++ ['}']))).map Lexeme.bare := by
    rw [h.lexemes_eq, hlost]
    simp
  obtain ⟨l, hl, hbare⟩ := List.mem_map.1 hmem
  have hl : l ∈ lexFrom .normal ('{' :: (inside ++ ['}'])) := hl
  have hshaped := lexFrom_shaped hl
  rw [hshaped.eq_of_bare hbare] at hshaped
  have hsize : t.size ≠ 0 := fun hzero => hshaped.text_ne_nil rfl (Text.size_eq_zero.1 hzero)
  rw [hlost, Trivia.sizeOf]
  omega

/-- The text of the block alone. -/
def core : Text :=
  '{' :: (Trivia.textOf h.opening.token.trailing
    ++ (h.items.flatMap Tree.leaves).flatMap (·.token.fullText)
    ++ Trivia.textOf h.closing.token.leading ++ ['}'])

/-- The text is that of the block and the trivia that is left. -/
theorem text_eq : '{' :: (inside ++ ['}']) = h.core ++ Trivia.textOf h.lost := by
  have htext := text_tokenize ('{' :: (inside ++ ['}']))
  rw [TokenStream.all, h.tokens_eq, h.rest_tokens, h.opening_eq] at htext
  refine htext.symm.trans ?_
  rw [← List.cons_append, List.append_assoc, List.flatMap_append, List.singleton_append,
    List.flatMap_cons, List.flatMap_cons, List.flatMap_cons, List.flatMap_nil, stop_eq]
  simp [Token.fullText, Token.endOfFile, lost, core, Trivia.textOf, h.closing_text]

/-! ## The block with other trivia around it -/

/-- The block with other trivia before its `{` and after its `}`. -/
def surrounded (leading trailing : List Trivia) : Tree Token :=
  ((Tree.braces shape h.opening h.items h.closing).map PlacedToken.token).surround leading trailing

theorem surrounded_eq (leading trailing : List Trivia) : h.surrounded leading trailing
    = .braces shape { h.opening.token with leading := leading }
      (h.items.map (Tree.map PlacedToken.token)) { h.closing.token with trailing := trailing } := by
  have hmap : (Tree.braces shape h.opening h.items h.closing).map PlacedToken.token
      = .braces shape h.opening.token (h.items.map (Tree.map PlacedToken.token))
        h.closing.token := by
    simp [Tree.braces, Tree.map]
  rw [surrounded, hmap, Tree.braces, Tree.surround, List.cons_append, List.modifyHead_cons,
    List.length_cons, Nat.add_sub_cancel, List.length_append, ← List.cons_append]
  exact congrArg _ (Tree.modify_append_cons (_ :: _) [] _ _)

theorem text_surrounded (leading trailing : List Trivia) :
    (h.surrounded leading trailing).text
      = Trivia.textOf leading ++ h.core ++ Trivia.textOf trailing := by
  rw [surrounded_eq, Tree.braces, h.opening_eq]
  simp [Tree.forestText_map, Token.fullText, core, h.closing_text]

end Alone

end NginxConf
