import NginxConf.Proofs.Lexeme.Splice

/-!
# Tokens before another text

A token stays what it is when the text behind it is replaced, as long as the two texts are alike in
what the lexer looks at (`Adjoins`). Punctuation and strings end by themselves, so anything may
follow them. A word ends before a blank and before a `;` whatever it has ended before. The code of a
script ends before a `}` and nowhere else.
-/

namespace NginxConf

variable {mode : Mode} {s r' : Text} {step : LexStep}

/-- A word that is not at the end of a text ends where such a text follows it. -/
def EndsWords (s : Text) : Prop := ∀ c ∈ s.head?, isBlank c = true ∨ c = ';'

/-- The token ends by itself. -/
def TokenKind.isStandalone (kind : TokenKind) : Bool :=
  [.leftParen, .rightParen, .leftBrace, .rightBrace, .semicolon, .string].contains kind

/-- A token that is followed by one text is the same token where the other text follows it. -/
def Adjoins (kind : TokenKind) (old new : Text) : Prop :=
  old.head? = new.head? ∨ kind.isStandalone = true ∨
    (old ≠ [] ∧ EndsWords new ∧ (kind = .luaCode → old.head? ≠ some '}'))

/-! ## Words -/

theorem EndsWords.head {c : Char} (h : EndsWords (c :: s)) : endsWord c = true := by
  rcases h c rfl with hc | rfl
  · simp [endsWord, hc]
  · rfl

theorem EndsWords.not_word (h : EndsWords s) : ∀ c ∈ s.head?, (!endsWord c) = false := by
  cases s with
  | nil => simp
  | cons c s => simp [h.head]

theorem EndsWords.stops (h : EndsWords s) (depth : Option Nat) : stopsWord depth s = true := by
  cases s with
  | nil => rfl
  | cons c s => simp [stopsWord, h.head]

theorem EndsWords.not_leftBrace (h : EndsWords s) (r : Text) : s ≠ '{' :: r := by
  rintro rfl
  rcases h '{' rfl with hc | hc
  · exact absurd hc (by decide)
  · exact absurd hc (by decide)

/-- A run ends before an element that stops it, or at the end. -/
theorem takeWhile_append_stop {α : Type} {p : α → Bool} {w r : List α} (hw : ∀ a ∈ w, p a = true)
    (hr : ∀ a ∈ r.head?, p a = false) :
    (w ++ r).takeWhile p = w ∧ (w ++ r).dropWhile p = r := by
  rw [List.takeWhile_append_of_pos hw, List.dropWhile_append_of_pos hw]
  cases r with
  | nil => simp
  | cons a r => simp [hr a rfl]

theorem takeUnit_before (h : EndsWords r') (hs : (takeUnit s).2 ≠ []) :
    takeUnit ((takeUnit s).1 ++ r') = ((takeUnit s).1, r') := by
  revert hs
  fun_cases takeUnit s with
  | case1 => exact fun hs => absurd rfl hs
  | case2 d rest => exact fun _ => rfl
  | case3 rest after hdrop =>
    intro _
    obtain ⟨htake, hdrop⟩ := takeWhile_lookahead hdrop r'
    simp only [List.cons_append, List.append_assoc, List.nil_append]
    rw [takeUnit, htake, hdrop]
    rfl
  | case4 rest hdrop =>
    intro _
    obtain ⟨htake, hdrop'⟩ := takeWhile_append_stop (w := rest.takeWhile (!endsWord ·))
      (List.all_eq_true.1 List.all_takeWhile) h.not_word
    simp only [List.cons_append]
    rw [takeUnit, htake, hdrop']
    split
    · next heq =>
      -- a `}` does not end words
      rcases h '}' rfl with hc | hc <;> exact absurd hc (by decide)
    · rfl
  | case5 d rest hescape hbrace =>
    intro hs
    simp only [List.cons_append, List.nil_append]
    rw [takeUnit]
    · intro e t hd _
      obtain ⟨c, r, rfl⟩ := List.exists_cons_of_ne_nil hs
      exact hescape c r hd rfl
    · intro t _ ht
      exact h.not_leftBrace t ht

/-- A word that something follows ends before any text that ends words. -/
theorem scanWord_before (h : EndsWords r') {depth : Option Nat}
    (hs : (scanWord depth s).rest ≠ []) :
    scanWord depth ((scanWord depth s).word ++ r') = { scanWord depth s with rest := r' } := by
  fun_induction scanWord depth s with
  | case1 depth s first d hstop =>
    have hunit : takeUnit (first.1 ++ r') = (first.1, r') := takeUnit_before h hs
    rw [scanWord]
    simp only [hunit]
    rw [if_pos (h.stops _)]
  | case2 depth s first d hstop more ih =>
    have ih := ih hs
    have hmore := scanWord_append d first.2
    have hne : first.2 ≠ [] := by
      intro hnil
      rw [hnil] at hstop
      exact hstop rfl
    -- the unit is followed by the same character as before, the next one of the word
    obtain ⟨e, x, hx⟩ := List.exists_cons_of_ne_nil (scanWord_word_ne_nil d hne)
    rw [hx, List.cons_append] at hmore
    have hunit : takeUnit (first.1 ++ (e :: (x ++ r'))) = (first.1, e :: (x ++ r')) :=
      takeUnit_lookahead hmore.symm _
    have hstop' : stopsWord d (e :: (x ++ r')) = false := by
      rw [← hmore] at hstop
      simpa [stopsWord] using hstop
    rw [show more.word = (scanWord d first.2).word from rfl, hx, List.cons_append] at ih
    rw [scanWord]
    simp only [List.append_assoc]
    rw [show more.word = (scanWord d first.2).word from rfl, hx, List.cons_append, hunit]
    simp only
    rw [show countParens depth first.1 = d from rfl, hstop', ih]
    simp only [Bool.false_eq_true, if_false]
    rw [← hx]

/-! ## Tokens -/

/-- A word is never read as a token that ends by itself. -/
theorem isStandalone_classifyWord (inCondition : Bool) (word : Text) :
    (classifyWord inCondition word).isStandalone = false := by
  unfold classifyWord
  repeat' split
  all_goals rfl

theorem classifyWord_ne_luaCode (inCondition : Bool) (word : Text) :
    classifyWord inCondition word ≠ .luaCode := by
  unfold classifyWord
  repeat' split
  all_goals decide

namespace LexStep

variable {ch : Char} {rest x : Text} {kind : TokenKind}

theorem exists_kind_significant (mode : Mode) (ch : Char) (rest : Text) :
    ∃ kind, (significant mode ch rest).lexeme.kind = .token kind := by
  unfold significant
  repeat' split
  all_goals exact ⟨_, rfl⟩

/-- A lexeme that is a token does not begin like trivia. -/
theorem significant_of_kind (h : (plain mode ch rest).lexeme.kind = .token kind) :
    isBlank ch = false ∧ ch ≠ '#' := by
  by_cases hblank : isBlank ch = true
  · unfold plain at h
    rw [if_pos hblank] at h
    split at h
    · cases h
    · split at h <;> cases h
  · refine ⟨by simpa using hblank, ?_⟩
    rintro rfl
    cases h

theorem plain_eq_significant (hblank : isBlank ch = false) (hcomment : ch ≠ '#') (mode : Mode)
    (rest : Text) : plain mode ch rest = significant mode ch rest := by
  unfold plain
  rw [if_neg, if_neg, if_neg (by simp [hblank]), if_neg hcomment]
  · rintro ⟨rfl, -⟩
    exact absurd hblank (by decide)
  · rintro rfl
    exact absurd hblank (by decide)

/-- A token that ends by itself, or a word where words end. -/
theorem significant_before (hkind : (significant mode ch rest).lexeme.kind = .token kind)
    (hne : kind ≠ .malformed) (hx : (significant mode ch rest).lexeme.text = ch :: x)
    (h : kind.isStandalone = true ∨ ((significant mode ch rest).rest ≠ [] ∧ EndsWords r')) :
    significant mode ch (x ++ r') = { significant mode ch rest with rest := r' } := by
  unfold significant at hkind hx h ⊢
  by_cases hquote : ch = '"' ∨ ch = '\''
  · rw [if_pos hquote] at hkind hx h ⊢
    rw [if_pos hquote]
    cases hscan : scanQuoted ch rest with
    | none =>
      rw [hscan] at hkind
      cases hkind
      exact absurd rfl hne
    | some cut =>
      obtain ⟨quoted, after⟩ := cut
      rw [hscan] at hx
      cases hx
      rw [scanQuoted_lookahead hscan r']
      rfl
  · rw [if_neg hquote] at hkind hx h ⊢
    rw [if_neg hquote]
    cases hpunct : punctuation? mode ch with
    | some k =>
      rw [hpunct] at hx
      cases hx
      rfl
    | none =>
      rw [hpunct] at hkind hx h
      cases hkind
      rcases h with h | ⟨hrest, h⟩
      · rw [isStandalone_classifyWord] at h
        cases h
      have hscan := scanWord_before h hrest
      rw [show (scanWord mode.depth? (ch :: rest)).word = ch :: x from hx] at hscan
      simp only [← List.cons_append, hscan]
      rfl

end LexStep

theorem lexPlain_before {kind : TokenKind} (h : lexPlain mode s = some step)
    (hkind : step.lexeme.kind = .token kind) (hne : kind ≠ .malformed)
    (hr : kind.isStandalone = true ∨ (step.rest ≠ [] ∧ EndsWords r')) :
    lexPlain mode (step.lexeme.text ++ r') = some { step with rest := r' } := by
  cases s with
  | nil => cases h
  | cons ch rest =>
    cases h
    have happend := LexStep.plain_append mode ch rest
    obtain ⟨hblank, hcomment⟩ := LexStep.significant_of_kind hkind
    have hplain := LexStep.plain_eq_significant hblank hcomment mode
    cases hx : (LexStep.plain mode ch rest).lexeme.text with
    | nil => exact absurd hx (LexStep.plain_text_ne_nil mode ch rest)
    | cons c x =>
      rw [hx, List.cons_append] at happend
      obtain rfl := (List.cons.inj happend).1
      rw [List.cons_append, lexPlain, hplain]
      rw [hplain] at hkind hx hr ⊢
      rw [LexStep.significant_before hkind hne hx hr]

/-- Code is read nowhere but in a script. -/
theorem lexPlain_ne_luaCode (h : lexPlain mode s = some step) :
    step.lexeme.kind ≠ .token .luaCode := by
  intro hkind
  cases s with
  | nil => cases h
  | cons ch rest =>
    cases h
    obtain ⟨hblank, hcomment⟩ := LexStep.significant_of_kind hkind
    rw [LexStep.plain_eq_significant hblank hcomment] at hkind
    unfold LexStep.significant at hkind
    split at hkind
    · split at hkind <;> cases hkind
    · split at hkind
      · next k hpunct =>
        cases hkind
        unfold punctuation? at hpunct
        repeat' split at hpunct
        all_goals cases hpunct
      · exact classifyWord_ne_luaCode _ _ (by injection hkind)

/-- After the code of a script comes its closing brace. -/
theorem lexStep_luaCode (h : lexStep mode s = some step)
    (hkind : step.lexeme.kind = .token .luaCode) : step.rest.head? = some '}' := by
  unfold lexStep at h
  split at h
  · split at h
    · cases h; cases hkind
    · exact absurd hkind (lexPlain_ne_luaCode h)
    · next hbody => cases h; exact Lua.body_snd hbody
  · exact absurd hkind (lexPlain_ne_luaCode h)

/-- A token that is not the code of a script does not change before a text that may not go on with it. -/
theorem lexStep_before {kind : TokenKind} (h : lexStep mode s = some step)
    (hkind : step.lexeme.kind = .token kind) (hne : kind ≠ .malformed) (hcode : kind ≠ .luaCode)
    (hr : kind.isStandalone = true ∨ (step.rest ≠ [] ∧ EndsWords r')) :
    lexStep mode (step.lexeme.text ++ r') = some { step with rest := r' } := by
  have happend := lexStep_append h
  unfold lexStep at h ⊢
  by_cases hmode : mode = .luaBody
  · rw [if_pos hmode] at h ⊢
    cases hbody : Lua.body 0 s with
    | none =>
      rw [hbody] at h
      cases h
      cases hkind
      exact absurd rfl hne
    | some cut =>
      obtain ⟨code, after⟩ := cut
      rw [hbody] at h
      cases code with
      | nil =>
        -- a script without code ends at its brace at once, and so it does before the other text
        have hs := Lua.body_append hbody
        obtain ⟨t, rfl⟩ := List.head?_eq_some_iff.1 (Lua.body_snd hbody)
        rw [List.nil_append] at hs
        obtain ⟨y, hy⟩ : ∃ y, step.lexeme.text ++ r' = '}' :: y := by
          cases hx : step.lexeme.text with
          | nil => exact absurd hx (lexPlain_text_ne_nil h)
          | cons d x =>
            rw [hx, ← hs, List.cons_append] at happend
            exact ⟨x ++ r', by rw [(List.cons.inj happend).1, List.cons_append]⟩
        have hplain := lexPlain_before h hkind hne hr
        rw [hy] at hplain ⊢
        rw [Lua.body_end]
        exact hplain
      | cons d code =>
        cases h
        cases hkind
        exact absurd rfl hcode
  · rw [if_neg hmode] at h ⊢
    exact lexPlain_before h hkind hne hr

/-- **A token does not change when the text behind it is replaced by one that adjoins it.** -/
theorem lexStep_adjoins {kind : TokenKind} (h : lexStep mode s = some step)
    (hkind : step.lexeme.kind = .token kind) (hne : kind ≠ .malformed)
    (hr : Adjoins kind step.rest r') :
    lexStep mode (step.lexeme.text ++ r') = some { step with rest := r' } := by
  rcases hr with hhead | hr
  · cases hrest : step.rest with
    | nil =>
      rw [hrest] at hhead
      obtain rfl : r' = [] := List.head?_eq_none_iff.1 hhead.symm
      rw [← hrest, lexStep_append h, h]
    | cons c r =>
      rw [hrest] at hhead
      obtain ⟨r, rfl⟩ := List.head?_eq_some_iff.1 hhead.symm
      exact lexStep_lookahead h hrest r
  -- no code of a script ends before anything but its brace
  have hcode : kind ≠ .luaCode := by
    rintro rfl
    rcases hr with hr | ⟨-, -, hr⟩
    · cases hr
    · exact hr rfl (lexStep_luaCode h hkind)
  exact lexStep_before h hkind hne hcode (hr.imp id fun ⟨hold, hnew, _⟩ => ⟨hold, hnew⟩)

end NginxConf
