import NginxConf.Proofs.Lexeme.Shape

/-!
# How far the lexer looks

Where a piece ends depends on the character that follows it, and on nothing after that character
(`LexStep.plain_lookahead`). A string does not even depend on that one.
-/

namespace NginxConf

/-- Two texts that go on with the same character begin with the same character. -/
theorem exists_append_cons_eq (w : Text) (c : Char) (r r' : Text) :
    ∃ d t t', w ++ c :: r = d :: t ∧ w ++ c :: r' = d :: t' := by
  cases w with
  | nil => exact ⟨c, r, r', rfl, rfl⟩
  | cons d w => exact ⟨d, w ++ c :: r, w ++ c :: r', rfl, rfl⟩

/-- A run that stops before an element stops there whatever follows. -/
theorem takeWhile_lookahead {α : Type} {p : α → Bool} {s r : List α} {c : α}
    (h : s.dropWhile p = c :: r) (r' : List α) :
    (s.takeWhile p ++ c :: r').takeWhile p = s.takeWhile p ∧
      (s.takeWhile p ++ c :: r').dropWhile p = c :: r' := by
  induction s with
  | nil => cases h
  | cons d s ih =>
    by_cases hd : p d = true
    · rw [List.dropWhile_cons_of_pos hd] at h
      obtain ⟨h1, h2⟩ := ih h
      rw [List.takeWhile_cons_of_pos hd, List.cons_append, List.takeWhile_cons_of_pos hd,
        List.dropWhile_cons_of_pos hd, h1]
      exact ⟨rfl, h2⟩
    · rw [List.dropWhile_cons_of_neg hd] at h
      cases h
      rw [List.takeWhile_cons_of_neg hd, List.nil_append, List.takeWhile_cons_of_neg hd,
        List.dropWhile_cons_of_neg hd]
      exact ⟨rfl, rfl⟩

/-! ## Words -/

theorem takeUnit_lookahead {s r : Text} {c : Char} (h : (takeUnit s).2 = c :: r) (r' : Text) :
    takeUnit ((takeUnit s).1 ++ c :: r') = ((takeUnit s).1, c :: r') := by
  revert h
  fun_cases takeUnit s with
  | case1 => exact fun h => by cases h
  | case2 d rest => exact fun _ => rfl
  | case3 rest after hdrop =>
    rintro rfl
    obtain ⟨htake, hdrop⟩ := takeWhile_lookahead hdrop (c :: r')
    simp only [List.cons_append, List.append_assoc, List.nil_append]
    rw [takeUnit, htake, hdrop]
    rfl
  | case4 rest hdrop =>
    intro h
    obtain ⟨htake, hdrop'⟩ := takeWhile_lookahead h r'
    simp only [List.cons_append]
    rw [takeUnit, htake, hdrop']
    split
    · next heq =>
      cases heq
      exact (hdrop r h).elim
    · rfl
  | case5 d rest hescape hbrace =>
    rintro rfl
    simp only [List.cons_append, List.nil_append]
    rw [takeUnit]
    · intro e t hd _
      exact hescape c r hd rfl
    · intro t hd ht
      cases ht
      exact hbrace r hd rfl

/-- **A word ends where it does by the character that follows it.** -/
theorem scanWord_lookahead {depth : Option Nat} {s r : Text} {c : Char}
    (h : (scanWord depth s).rest = c :: r) (r' : Text) :
    scanWord depth ((scanWord depth s).word ++ c :: r')
      = { scanWord depth s with rest := c :: r' } := by
  fun_induction scanWord depth s with
  | case1 depth s first d hstop =>
    have hunit : takeUnit (first.1 ++ c :: r') = (first.1, c :: r') := takeUnit_lookahead h r'
    have hstop' : stopsWord d (c :: r') = true := by
      rw [show first.2 = c :: r from h] at hstop
      exact hstop
    rw [scanWord]
    simp only [hunit]
    rw [if_pos hstop']
  | case2 depth s first d hstop more ih =>
    have hmore := scanWord_append d first.2
    rw [show (scanWord d first.2).rest = c :: r from h] at hmore
    obtain ⟨e, t, t', ht, ht'⟩ := exists_append_cons_eq (scanWord d first.2).word c r r'
    have hunit : takeUnit (first.1 ++ (e :: t')) = (first.1, e :: t') :=
      takeUnit_lookahead (hmore.symm.trans ht) t'
    have hstop' : stopsWord d (e :: t') = false := by
      rw [← hmore, ht] at hstop
      simpa [stopsWord] using hstop
    rw [scanWord]
    simp only [List.append_assoc]
    have ih := ih h
    rw [show more.word = (scanWord d first.2).word from rfl, ht', hunit]
    simp only
    rw [show countParens depth first.1 = d from rfl, hstop']
    simp only [Bool.false_eq_true, if_false]
    rw [← ht', ih]

/-! ## Strings -/

/-- A character that begins no escape is no backslash. -/
theorem ne_backslash {c : Char} {rest : Text} (hend : c = '\\' → rest = [] → False)
    (hescape : ∀ d more, c = '\\' → rest = d :: more → False) : c ≠ '\\' := by
  intro hc
  cases rest with
  | nil => exact hend hc rfl
  | cons d more => exact hescape d more hc rfl

/-- A string ends with its closing quote, whatever follows. -/
theorem scanQuoted_lookahead {quote : Char} {s a b : Text} (h : scanQuoted quote s = some (a, b))
    (b' : Text) : scanQuoted quote (a ++ b') = some (a, b') := by
  fun_induction scanQuoted quote s generalizing a with
  | case1 => cases h
  | case2 => cases h
  | case3 c rest ih =>
    simp only [Option.map_eq_some_iff, Prod.mk.injEq, Prod.exists] at h
    obtain ⟨x, y, hxy, rfl, rfl⟩ := h
    simp [scanQuoted, ih hxy]
  | case4 rest hend hescape =>
    cases h
    have hquote := ne_backslash hend hescape
    rw [List.singleton_append, scanQuoted, if_pos rfl]
    · exact fun hq => (hquote hq).elim
    · exact fun _ _ hq => (hquote hq).elim
  | case5 c rest hend hescape hc ih =>
    simp only [Option.map_eq_some_iff, Prod.mk.injEq, Prod.exists] at h
    obtain ⟨x, y, hxy, rfl, rfl⟩ := h
    have hc' := ne_backslash hend hescape
    rw [List.cons_append, scanQuoted, if_neg hc, ih hxy]
    · rfl
    · exact fun hq => (hc' hq).elim
    · exact fun _ _ hq => (hc' hq).elim

/-! ## Pieces -/

namespace LexStep

variable {mode : Mode} {ch c : Char} {rest r x : Text}

theorem significant_lookahead (h : (significant mode ch rest).rest = c :: r)
    (hx : (significant mode ch rest).lexeme.text = ch :: x) (r' : Text) :
    significant mode ch (x ++ c :: r') = { significant mode ch rest with rest := c :: r' } := by
  unfold significant at h hx ⊢
  by_cases hquote : ch = '"' ∨ ch = '\''
  · rw [if_pos hquote] at h hx ⊢
    rw [if_pos hquote]
    cases hscan : scanQuoted ch rest with
    | none =>
      rw [hscan] at h
      cases h
    | some cut =>
      obtain ⟨quoted, after⟩ := cut
      rw [hscan] at h hx
      cases h
      cases hx
      rw [scanQuoted_lookahead hscan (c :: r')]
      rfl
  · rw [if_neg hquote] at h hx ⊢
    rw [if_neg hquote]
    cases hkind : punctuation? mode ch with
    | some kind =>
      rw [hkind] at hx
      cases hx
      rfl
    | none =>
      rw [hkind] at h hx
      have hword : (scanWord mode.depth? (ch :: rest)).word ++ c :: r' = ch :: (x ++ c :: r') := by
        rw [show (scanWord mode.depth? (ch :: rest)).word = ch :: x from hx]
        rfl
      have hscan := scanWord_lookahead
        (show (scanWord mode.depth? (ch :: rest)).rest = c :: r from h) r'
      rw [hword] at hscan
      simp only [hscan]
      rfl

/-- **What a piece is does not depend on more than the character after it.** -/
theorem plain_lookahead (h : (plain mode ch rest).rest = c :: r)
    (hx : (plain mode ch rest).lexeme.text = ch :: x) (r' : Text) :
    plain mode ch (x ++ c :: r') = { plain mode ch rest with rest := c :: r' } := by
  have hrest : rest = x ++ c :: r := by
    have happend := plain_append mode ch rest
    rw [h, hx] at happend
    exact (List.cons.inj happend).2.symm
  have hhead : (x ++ c :: r').head? = rest.head? := by
    obtain ⟨d, t, t', ht, ht'⟩ := exists_append_cons_eq x c r r'
    rw [hrest, ht, ht']
    rfl
  unfold plain at h hx ⊢
  by_cases hfeed : ch = '\n'
  · rw [if_pos hfeed] at hx ⊢
    rw [if_pos hfeed]
    cases hx
    rfl
  rw [if_neg hfeed] at h hx ⊢
  rw [if_neg hfeed]
  by_cases hreturn : ch = '\r' ∧ rest.head? = some '\n'
  · rw [if_pos hreturn] at hx ⊢
    cases hx
    rw [if_pos ⟨hreturn.1, rfl⟩]
    rfl
  rw [if_neg hreturn] at h hx ⊢
  rw [hhead, if_neg hreturn]
  by_cases hblank : isBlank ch = true
  · rw [if_pos hblank] at h hx ⊢
    rw [if_pos hblank]
    cases hx
    obtain ⟨htake, hdrop⟩ := takeWhile_lookahead h r'
    rw [htake, hdrop]
    rfl
  rw [if_neg hblank] at h hx ⊢
  rw [if_neg hblank]
  by_cases hcomment : ch = '#'
  · rw [if_pos hcomment] at h hx ⊢
    rw [if_pos hcomment]
    cases hx
    obtain ⟨htake, hdrop⟩ := takeWhile_lookahead h r'
    rw [htake, hdrop]
    rfl
  rw [if_neg hcomment] at h hx ⊢
  rw [if_neg hcomment]
  exact significant_lookahead h hx r'

end LexStep

end NginxConf
