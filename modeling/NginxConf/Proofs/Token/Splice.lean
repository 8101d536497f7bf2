import NginxConf.Proofs.Token.Tiling

/-!
# Attaching trivia on both sides of a token

A token ends the trivia before it and begins that after it, so the pieces on both sides of it are
dealt with apart (`attachTrivia_append`, `exists_of_attachTrivia`). Where a row of pieces begins
has no say in which tokens they make, only in where these stand (`attachTrivia_relocate`).
-/

namespace NginxConf

/-- The token as a piece of text. -/
def PlacedToken.lexeme (p : PlacedToken) : Lexeme := ⟨.token p.token.kind, p.token.text, p.fault⟩

/-- The end of a text, or what would be the next token, after some trivia. -/
def PlacedToken.endAt (offset : Nat) (leading : List Trivia) : PlacedToken :=
  ⟨.endOfFile leading, offset, none⟩

theorem stop_eq_endAt (offset : Nat) (leading : List Trivia) (ls : List Lexeme) :
    (attachTrivia offset leading ls).stop
      = .endAt (attachTrivia offset leading ls).stop.offset
        (attachTrivia offset leading ls).stop.token.leading := by
  fun_induction attachTrivia offset leading ls with
  | case1 => rfl
  | case2 _ _ _ _ _ _ ih => exact ih
  | case3 _ _ _ _ _ _ _ _ ih => exact ih

/-! ## Both sides of a token -/

theorem splitTrailing_token (p : PlacedToken) (ls : List Lexeme) :
    splitTrailing (p.lexeme :: ls) = ([], p.lexeme :: ls) := rfl

/-- Trivia is cut off up to the next token, whatever follows it. -/
theorem splitTrailing_append_token (ls : List Lexeme) (p : PlacedToken) (more : List Lexeme) :
    splitTrailing (ls ++ p.lexeme :: more)
      = ((splitTrailing ls).1, (splitTrailing ls).2 ++ p.lexeme :: more) := by
  induction ls with
  | nil => exact splitTrailing_token p more
  | cons l ls ih =>
    rw [List.cons_append]
    unfold splitTrailing
    split
    · rfl
    · rw [ih]
    · rfl

/-- Where a token follows, the trivia cut off is that of the pieces before it. -/
theorem exists_of_splitTrailing {ls before after : List Lexeme} {p : PlacedToken}
    (h : (splitTrailing ls).2 = before ++ p.lexeme :: after) :
    ∃ pieces, ls = pieces ++ p.lexeme :: after ∧
      splitTrailing pieces = ((splitTrailing ls).1, before) := by
  obtain ⟨skipped, hskipped⟩ := splitTrailing_suffix ls
  have hls : ls = (skipped ++ before) ++ p.lexeme :: after := by
    rw [List.append_assoc, ← h, hskipped]
  have hcut := splitTrailing_append_token (skipped ++ before) p after
  rw [← hls] at hcut
  refine ⟨skipped ++ before, hls, Prod.ext (congrArg Prod.fst hcut).symm ?_⟩
  have hrest := congrArg Prod.snd hcut
  rw [h] at hrest
  exact (List.append_cancel_right hrest).symm

/-- What is made of the pieces that follow a token: its trivia, some tokens, and the end. -/
structure Follows (p : PlacedToken) (ls : List Lexeme) (ps : List PlacedToken)
    (stop : PlacedToken) : Prop where
  trailing_eq : (splitTrailing ls).1 = p.token.trailing
  tokens_eq : attachTrivia (p.offset + p.token.fullSize) [] (splitTrailing ls).2 = ⟨ps, stop⟩

/-- **A token goes between what is made of the pieces before it and of those after it.** -/
theorem attachTrivia_append {offset : Nat} {leading : List Trivia} {before after : List Lexeme}
    {ps qs : List PlacedToken} {p stop : PlacedToken}
    (hbefore : attachTrivia offset leading before = ⟨ps, .endAt p.offset p.token.leading⟩)
    (hafter : Follows p after qs stop) :
    attachTrivia offset leading (before ++ p.lexeme :: after) = ⟨ps ++ p :: qs, stop⟩ := by
  revert ps
  fun_induction attachTrivia offset leading before with
  | case1 offset leading =>
    intro ps hbefore
    obtain ⟨⟨leading', kind, text, trailing⟩, offset', fault⟩ := p
    cases hbefore
    rw [List.nil_append, attachTrivia]
    simp only [PlacedToken.lexeme, hafter.trailing_eq]
    rw [hafter.tokens_eq]
    rfl
  | case2 offset leading l ls kind hkind ih =>
    intro ps hbefore
    rw [List.cons_append, attachTrivia]
    simp only [hkind]
    exact ih hbefore
  | case3 offset leading l ls kind hkind token more =>
    rename_i ih
    intro ps hbefore
    obtain ⟨hps, hstop⟩ := TokenStream.mk.inj hbefore
    subst hps
    have hmore : more = ⟨more.tokens, .endAt p.offset p.token.leading⟩ := by rw [← hstop]
    rw [List.cons_append, attachTrivia]
    simp only [hkind, splitTrailing_append_token]
    rw [ih hmore]
    rfl

/-- **Where a token is, the pieces fall apart into those before it, the token, and those after.** -/
theorem exists_of_attachTrivia {offset : Nat} {leading : List Trivia} {ls : List Lexeme}
    {ps qs : List PlacedToken} {p : PlacedToken}
    (h : (attachTrivia offset leading ls).tokens = ps ++ p :: qs) :
    ∃ before after, ls = before ++ p.lexeme :: after ∧
      attachTrivia offset leading before = ⟨ps, .endAt p.offset p.token.leading⟩ ∧
      Follows p after qs (attachTrivia offset leading ls).stop := by
  revert ps
  fun_induction attachTrivia offset leading ls with
  | case1 => simp
  | case2 offset leading l ls kind hkind ih =>
    intro ps h
    obtain ⟨before, after, rfl, hbefore, hafter⟩ := ih h
    refine ⟨l :: before, after, rfl, ?_, hafter⟩
    rw [attachTrivia]
    simp only [hkind]
    exact hbefore
  | case3 offset leading l ls kind hkind token more =>
    rename_i ih
    intro ps h
    cases ps with
    | nil =>
      obtain ⟨hp, hqs⟩ := List.cons.inj h
      subst hp
      refine ⟨[], ls, ?_, ?_, rfl, ?_⟩
      · rw [PlacedToken.lexeme, ← hkind]
        rfl
      · rw [attachTrivia]
        rfl
      · show more = ⟨qs, more.stop⟩
        rw [← hqs]
    | cons p' ps =>
      obtain ⟨hp, hps⟩ := List.cons.inj h
      obtain ⟨before, after, hls, hbefore, hafter⟩ := ih hps
      obtain ⟨pieces, rfl, hpieces⟩ := exists_of_splitTrailing hls
      refine ⟨l :: pieces, after, rfl, ?_, hafter⟩
      rw [attachTrivia]
      simp only [hkind, hpieces]
      rw [hbefore, ← hp]

/-- The text of the pieces before a token. -/
theorem text_of_attachTrivia {offset stop : Nat} {leading left : List Trivia} {ls : List Lexeme}
    {ps : List PlacedToken} (h : attachTrivia offset leading ls = ⟨ps, .endAt stop left⟩) :
    Trivia.textOf leading ++ ls.flatMap Lexeme.text
      = ps.flatMap (·.token.fullText) ++ Trivia.textOf left := by
  have htext := text_attachTrivia offset leading ls
  rw [h, TokenStream.all, List.flatMap_append] at htext
  rw [← htext]
  simp [PlacedToken.endAt, Token.endOfFile, Token.fullText, Trivia.textOf]

/-- The text of pieces is that of the trivia cut off and of the rest. -/
theorem text_splitTrailing (ls : List Lexeme) : ls.flatMap Lexeme.text
    = Trivia.textOf (splitTrailing ls).1 ++ (splitTrailing ls).2.flatMap Lexeme.text := by
  have h := congrArg (·.flatMap Lexeme.text) (splitTrailing_append ls)
  simp only [List.flatMap_append, List.flatMap_map] at h
  exact h.symm

/-- Pieces of which nothing is made are none. -/
theorem eq_nil_of_attachTrivia {offset stop : Nat} {ls : List Lexeme}
    (h : attachTrivia offset [] ls = ⟨[], .endAt stop []⟩) : ls = [] := by
  have hlexemes := lexemes_attachTrivia offset [] ls
  rw [h, TokenStream.all] at hlexemes
  have hnil : ls.map Lexeme.bare = [] := by
    simpa [PlacedToken.endAt, Token.endOfFile, Token.lexemes] using hlexemes
  exact List.map_eq_nil_iff.1 hnil

namespace Follows

variable {p q stop : PlacedToken} {ls before after : List Lexeme} {ps qs : List PlacedToken}

/-- One token after the other. -/
theorem append (hbefore : Follows p before ps (.endAt q.offset q.token.leading))
    (hafter : Follows q after qs stop) :
    Follows p (before ++ q.lexeme :: after) (ps ++ q :: qs) stop := by
  constructor
  · rw [splitTrailing_append_token]
    exact hbefore.trailing_eq
  · rw [splitTrailing_append_token]
    exact attachTrivia_append hbefore.tokens_eq hafter

/-- Where another token follows, the pieces fall apart at it. -/
theorem exists_of_append (h : Follows p ls (ps ++ q :: qs) stop) :
    ∃ before after, ls = before ++ q.lexeme :: after ∧
      Follows p before ps (.endAt q.offset q.token.leading) ∧ Follows q after qs stop := by
  obtain ⟨inner, after, hls, hinner, hafter⟩ := exists_of_attachTrivia
    (congrArg TokenStream.tokens h.tokens_eq)
  obtain ⟨before, rfl, hbefore⟩ := exists_of_splitTrailing hls
  rw [h.tokens_eq] at hafter
  refine ⟨before, after, rfl, ⟨?_, ?_⟩, hafter⟩
  · rw [hbefore]
    exact h.trailing_eq
  · rw [hbefore]
    exact hinner

/-- The text of the pieces that follow a token. -/
theorem text_eq {offset : Nat} {left : List Trivia} (h : Follows p ls ps (.endAt offset left)) :
    ls.flatMap Lexeme.text = Trivia.textOf p.token.trailing ++ ps.flatMap (·.token.fullText)
      ++ Trivia.textOf left := by
  rw [text_splitTrailing, h.trailing_eq, List.append_assoc, ← text_of_attachTrivia h.tokens_eq]
  rfl

/-- The tokens that follow a token stand one after the other. -/
theorem tile (h : Follows p ls ps stop) :
    Tile (p.offset + p.token.fullSize) ps stop.offset := by
  have htile := tile_attachTrivia (p.offset + p.token.fullSize) [] (splitTrailing ls).2
  rwa [h.tokens_eq] at htile

/-- Where the tokens that follow a token end. -/
theorem offset_eq {offset : Nat} {left : List Trivia} (h : Follows p ls ps (.endAt offset left)) :
    offset + Trivia.sizeOf left = p.span.stop + Text.size (ls.flatMap Lexeme.text) := by
  have hstop : offset = _ := h.tile.stop_eq
  rw [hstop, h.text_eq]
  simp only [Text.size_append, Trivia.size_textOf, PlacedToken.span, Token.fullSize]
  omega

/-- A token that nothing follows. -/
theorem eq_nil {offset : Nat} (h : Follows p ls [] (.endAt offset [])) (ht : p.token.trailing = []) :
    ls = [] := by
  have happend := splitTrailing_append ls
  rw [h.trailing_eq, ht, eq_nil_of_attachTrivia h.tokens_eq] at happend
  exact List.map_eq_nil_iff.1 happend.symm

end Follows

/-! ## Somewhere else -/

/-- The token at another offset. -/
def PlacedToken.relocate (f : Nat → Nat) (p : PlacedToken) : PlacedToken :=
  { p with offset := f p.offset }

/-- **Where the pieces begin decides where the tokens stand, and nothing else.** -/
theorem attachTrivia_relocate {f : Nat → Nat} {offset : Nat} (leading : List Trivia)
    (ls : List Lexeme) (hf : ∀ n, f (offset + n) = f offset + n) :
    attachTrivia (f offset) leading ls
      = ⟨(attachTrivia offset leading ls).tokens.map (.relocate f),
        (attachTrivia offset leading ls).stop.relocate f⟩ := by
  fun_induction attachTrivia offset leading ls with
  | case1 => rw [attachTrivia]; rfl
  | case2 offset leading l ls kind hkind ih =>
    rw [attachTrivia]
    simp only [hkind]
    exact ih hf
  | case3 offset leading l ls kind hkind token more ih =>
    have hmore : ∀ n, f (offset + token.fullSize + n) = f (offset + token.fullSize) + n := by
      intro n
      rw [Nat.add_assoc, hf, hf, Nat.add_assoc]
    rw [attachTrivia]
    simp only [hkind]
    rw [← hf, ih hmore]
    rfl

/-- What follows a token follows a token that ends elsewhere. -/
theorem Follows.relocate {p p' stop : PlacedToken} {ls : List Lexeme} {ps : List PlacedToken}
    (h : Follows p ls ps stop) {f : Nat → Nat} (ht : p'.token.trailing = p.token.trailing)
    (hstop : f (p.offset + p.token.fullSize) = p'.offset + p'.token.fullSize)
    (hf : ∀ n, f (p.offset + p.token.fullSize + n) = f (p.offset + p.token.fullSize) + n) :
    Follows p' ls (ps.map (.relocate f)) (stop.relocate f) where
  trailing_eq := by rw [ht, h.trailing_eq]
  tokens_eq := by
    rw [← hstop, attachTrivia_relocate _ _ hf, h.tokens_eq]

end NginxConf
