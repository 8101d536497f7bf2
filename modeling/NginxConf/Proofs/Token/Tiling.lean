import NginxConf.Proofs.Lexeme.Shape
import NginxConf.Token.Stream

/-!
# The tokens of a text

Attaching trivia moves nothing: the tokens with their trivia are the lexemes in order
(`lexemes_attachTrivia`), and each token stands where the one before it ends (`tile_attachTrivia`).
-/

namespace NginxConf

/-- The piece alone, without why it is malformed. -/
def Lexeme.bare (l : Lexeme) : Lexeme := { l with fault := none }

@[simp]
theorem Lexeme.text_bare (l : Lexeme) : l.bare.text = l.text := rfl

@[simp]
theorem Lexeme.kind_bare (l : Lexeme) : l.bare.kind = l.kind := rfl

theorem Token.fullText_eq (t : Token) : t.fullText = t.lexemes.flatMap Lexeme.text := by
  have htrivia : ∀ ts : List Trivia, (ts.map Trivia.lexeme).flatMap Lexeme.text
      = Trivia.textOf ts := by
    intro ts
    induction ts with
    | nil => rfl
    | cons t ts ih => rw [List.map_cons, List.flatMap_cons, ih]; rfl
  rw [Token.fullText, Token.lexemes, List.flatMap_append, List.flatMap_cons, htrivia, htrivia,
    List.append_assoc]
  rfl

theorem Trivia.sizeOf_append (ss ts : List Trivia) :
    sizeOf (ss ++ ts) = sizeOf ss + sizeOf ts := by
  induction ss with
  | nil => rw [List.nil_append, sizeOf, Nat.zero_add]
  | cons t ss ih => rw [List.cons_append, sizeOf, sizeOf, ih, Nat.add_assoc]

/-! ## Trivia is attached, not lost -/

/-- What is cut off is trivia, and the rest stays as it is. -/
theorem splitTrailing_append (ls : List Lexeme) :
    (splitTrailing ls).1.map Trivia.lexeme ++ (splitTrailing ls).2.map Lexeme.bare
      = ls.map Lexeme.bare := by
  induction ls with
  | nil => rfl
  | cons l ls ih =>
    unfold splitTrailing
    split
    · rfl
    · next kind hkind =>
      rw [List.map_cons, List.map_cons, List.cons_append, ih]
      congr 1
      simp [Trivia.lexeme, Lexeme.trivia, Lexeme.bare, hkind]
    · rfl

theorem splitTrailing_suffix (ls : List Lexeme) : (splitTrailing ls).2 <:+ ls := by
  induction ls with
  | nil => exact List.suffix_refl _
  | cons l ls ih =>
    unfold splitTrailing
    split
    · exact List.suffix_refl _
    · exact ih.trans (List.suffix_cons l ls)
    · exact List.suffix_refl _

/-- All tokens of a stream, the end included. -/
def TokenStream.all (s : TokenStream) : List PlacedToken := s.tokens ++ [s.stop]

/-- **The tokens with their trivia are the lexemes, in order.** -/
theorem lexemes_attachTrivia (offset : Nat) (leading : List Trivia) (ls : List Lexeme) :
    (attachTrivia offset leading ls).all.flatMap (·.token.lexemes)
      = leading.map Trivia.lexeme ++ ls.map Lexeme.bare ++ [.token .endOfFile []] := by
  fun_induction attachTrivia offset leading ls with
  | case1 offset leading => simp [TokenStream.all, Token.endOfFile, Token.lexemes]
  | case2 offset leading l ls kind hkind ih =>
    rw [ih, List.map_append, List.map_cons, List.map_cons, List.map_nil]
    simp [Trivia.lexeme, Lexeme.trivia, Lexeme.bare, hkind]
  | case3 offset leading l ls kind hkind token more ih =>
    have hsplit := splitTrailing_append ls
    simp only [TokenStream.all] at ih ⊢
    rw [List.cons_append, List.flatMap_cons, ih]
    simp only [List.map_nil, List.nil_append, List.map_cons, List.append_assoc, ← hsplit]
    simp [token, Token.lexemes, Lexeme.token, Lexeme.bare, hkind]

/-- The text of a stream is the text of its lexemes. -/
theorem text_attachTrivia (offset : Nat) (leading : List Trivia) (ls : List Lexeme) :
    (attachTrivia offset leading ls).all.flatMap (·.token.fullText)
      = Trivia.textOf leading ++ ls.flatMap Lexeme.text := by
  have h := congrArg (·.flatMap Lexeme.text) (lexemes_attachTrivia offset leading ls)
  simp only [List.flatMap_assoc, List.flatMap_append, List.flatMap_map] at h
  simp only [Token.fullText_eq, h]
  simp [Trivia.textOf, Trivia.lexeme, Lexeme.trivia, Lexeme.token]

theorem lexemes_tokenize (s : Text) :
    (tokenize s).all.flatMap (·.token.lexemes)
      = (lex s).map Lexeme.bare ++ [.token .endOfFile []] :=
  lexemes_attachTrivia 0 [] (lex s)

/-- **The tokens of a text, written with their trivia, are the text.** -/
theorem text_tokenize (s : Text) : (tokenize s).all.flatMap (·.token.fullText) = s := by
  rw [tokenize, text_attachTrivia, lex, flatMap_text_lexFrom]
  rfl

/-! ## Where the tokens stand -/

/-- The tokens stand one after the other, from one offset to another. -/
def Tile : Nat → List PlacedToken → Nat → Prop
  | start, [], stop => start = stop
  | start, p :: ps, stop => p.offset = start ∧ Tile (start + p.token.fullSize) ps stop

/-- **Each token begins where the one before it ends.** -/
theorem tile_attachTrivia (offset : Nat) (leading : List Trivia) (ls : List Lexeme) :
    Tile offset (attachTrivia offset leading ls).tokens
      (attachTrivia offset leading ls).stop.offset := by
  fun_induction attachTrivia offset leading ls with
  | case1 => rfl
  | case2 _ _ _ _ _ _ ih => exact ih
  | case3 _ _ _ _ _ _ _ _ ih => exact ⟨rfl, ih⟩

/-- Behind the last token there is room for another one. -/
theorem Tile.concat {ps : List PlacedToken} {start stop : Nat} {p : PlacedToken}
    (h : Tile start ps stop) (hp : p.offset = stop) :
    Tile start (ps ++ [p]) (stop + p.token.fullSize) := by
  induction ps generalizing start with
  | nil => exact ⟨hp.trans h.symm, by rw [show start = stop from h]; rfl⟩
  | cons q qs ih => exact ⟨h.1, ih h.2⟩

theorem Tile.append {ps qs : List PlacedToken} {start stop : Nat} (h : Tile start (ps ++ qs) stop) :
    ∃ middle, Tile start ps middle ∧ Tile middle qs stop := by
  induction ps generalizing start with
  | nil => exact ⟨start, rfl, h⟩
  | cons p ps ih =>
    obtain ⟨hp, hps⟩ := h
    obtain ⟨middle, h1, h2⟩ := ih hps
    exact ⟨middle, ⟨hp, h1⟩, h2⟩

/-- The bytes from one end of a row of tokens to the other. -/
theorem Tile.stop_eq {ps : List PlacedToken} {start stop : Nat} (h : Tile start ps stop) :
    stop = start + Text.size (ps.flatMap (·.token.fullText)) := by
  induction ps generalizing start with
  | nil => rw [← show start = stop from h]; rfl
  | cons p ps ih =>
    rw [ih h.2, List.flatMap_cons, Text.size_append, Token.size_fullText, Nat.add_assoc]

/-- The tokens of a text, the end included, fill it. -/
theorem tile_tokenize (s : Text) : Tile 0 (tokenize s).all (Text.size s) := by
  have h : Tile 0 (tokenize s).all _ := (tile_attachTrivia 0 [] (lex s)).concat rfl
  have hstop := h.stop_eq
  rw [text_tokenize, Nat.zero_add] at hstop
  rwa [hstop] at h

namespace PlacedToken

theorem start_le_stop (p : PlacedToken) : p.span.start ≤ p.span.stop := Nat.le_add_right _ _

theorem offset_le_start (p : PlacedToken) : p.offset ≤ p.span.start := Nat.le_add_right _ _

theorem stop_le_fullStop (p : PlacedToken) : p.span.stop ≤ p.offset + p.token.fullSize := by
  simp only [span, Token.fullSize]
  omega

end PlacedToken

/-- A token in a row lies between the ends of the row. -/
theorem Tile.between {ps : List PlacedToken} {start stop : Nat} (h : Tile start ps stop) :
    start ≤ stop ∧ ∀ p ∈ ps, start ≤ p.span.start ∧ p.span.stop ≤ stop := by
  induction ps generalizing start with
  | nil => exact ⟨Nat.le_of_eq h, by simp⟩
  | cons p ps ih =>
    obtain ⟨hle, hps⟩ := ih h.2
    have h1 := p.offset_le_start
    have h2 := p.stop_le_fullStop
    rw [h.1] at h1 h2
    refine ⟨by omega, fun q hq => ?_⟩
    rcases List.mem_cons.1 hq with rfl | hq
    · omega
    · have := hps q hq
      omega

theorem Tile.le_offset {ps : List PlacedToken} {start stop : Nat} (h : Tile start ps stop) :
    ∀ p ∈ ps, start ≤ p.offset := by
  induction ps generalizing start with
  | nil => simp
  | cons p ps ih =>
    intro q hq
    rcases List.mem_cons.1 hq with rfl | hq
    · exact Nat.le_of_eq h.1.symm
    · exact Nat.le_trans (Nat.le_add_right _ _) (ih h.2 q hq)

/-- Tokens that are not empty begin one after the other. -/
theorem Tile.pairwise {ps : List PlacedToken} {start stop : Nat} (h : Tile start ps stop) :
    ps.Pairwise fun p q => p.token.text ≠ [] → p.span.start < q.span.start := by
  induction ps generalizing start with
  | nil => exact .nil
  | cons p ps ih =>
    refine List.pairwise_cons.2 ⟨fun q hq hp => ?_, ih h.2⟩
    have hstart := (h.2.between.2 q hq).1
    have hsize : 0 < p.token.size := Nat.pos_of_ne_zero fun h0 => hp (Text.size_eq_zero.1 h0)
    have hoffset := h.1
    simp only [Token.fullSize] at hstart
    rw [PlacedToken.span]
    simp only
    omega

/-! ## Which tokens there are -/

/-- What holds of all lexemes holds of all tokens but the end. -/
theorem forall_mem_attachTrivia {Q : TokenKind → Text → Option LexFault → Prop} (offset : Nat)
    (leading : List Trivia) (ls : List Lexeme)
    (h : ∀ l ∈ ls, ∀ kind, l.kind = .token kind → Q kind l.text l.fault) :
    ∀ p ∈ (attachTrivia offset leading ls).tokens, Q p.token.kind p.token.text p.fault := by
  fun_induction attachTrivia offset leading ls with
  | case1 => simp
  | case2 _ _ l ls _ _ ih => exact ih fun l' hl' => h l' (List.mem_cons_of_mem _ hl')
  | case3 offset leading l ls kind hkind token more ih =>
    intro p hp
    rcases List.mem_cons.1 hp with rfl | hp
    · exact h l List.mem_cons_self kind hkind
    · have hsub := (splitTrailing_suffix ls).subset
      exact ih (fun l' hl' => h l' (List.mem_cons_of_mem _ (hsub hl'))) p hp

/-- A token that was read off a text: its text fits its kind. -/
structure PlacedToken.Shaped (p : PlacedToken) : Prop where
  isFaulty_iff : p.fault.isSome ↔ p.token.kind = .malformed
  not_endOfFile : p.token.kind ≠ .endOfFile
  leftBrace : p.token.kind = .leftBrace → p.token.text = ['{']
  rightBrace : p.token.kind = .rightBrace → p.token.text = ['}']
  text_ne_nil : p.fault = none → p.token.text ≠ []

theorem PlacedToken.Shaped.fault_eq_none {p : PlacedToken} (h : p.Shaped)
    (hk : p.token.kind ≠ .malformed) : p.fault = none := by
  cases hf : p.fault with
  | none => rfl
  | some fault => exact absurd (h.isFaulty_iff.1 (by rw [hf]; rfl)) hk

/-- **Every token of a text has the shape of its kind.** -/
theorem tokenize_shaped {s : Text} {p : PlacedToken} (h : p ∈ (tokenize s).tokens) : p.Shaped := by
  refine forall_mem_attachTrivia
    (Q := fun kind text fault => ∀ p : PlacedToken, p.token.kind = kind → p.token.text = text →
      p.fault = fault → p.Shaped) 0 [] (lex s) ?_ p h p rfl rfl rfl
  intro l hl kind hkind p hk ht hf
  have hl := lexFrom_shaped hl
  constructor
  · rw [hk, hf, hl.isFaulty_iff, hkind, LeafKind.token.injEq]
  · rintro hend
    exact hl.not_endOfFile (by rw [hkind, ← hk, hend])
  · intro hb
    rw [ht, hl.leftBrace (by rw [hkind, ← hk, hb])]
  · intro hb
    rw [ht, hl.rightBrace (by rw [hkind, ← hk, hb])]
  · rw [hf, ht]
    exact hl.text_ne_nil

end NginxConf
