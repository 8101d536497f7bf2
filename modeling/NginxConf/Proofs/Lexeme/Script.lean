import NginxConf.Proofs.Lexeme.Lookahead

/-!
# How far the lexer looks in scripts

What a `[` in a script is depends on all the equal signs after it, so pieces of a script look
further than others. No piece looks past a `}` that it does not take, though, and a script ends
before a `}`: where it ends does not depend on what follows that brace (`Lua.body_lookahead`).
-/

namespace NginxConf.Lua

variable {w r r' : Text}

/-- A run of equal signs ends before a `}`. -/
theorem takeWhile_append_brace (w r : Text) :
    (w ++ '}' :: r).takeWhile (· == '=') = w.takeWhile (· == '=') ∧
      (w ++ '}' :: r).dropWhile (· == '=') = w.dropWhile (· == '=') ++ '}' :: r := by
  induction w with
  | nil => exact ⟨rfl, rfl⟩
  | cons c w ih =>
    by_cases hc : (c == '=') = true
    · rw [List.cons_append]
      rw [List.takeWhile_cons, List.dropWhile_cons, List.takeWhile_cons, List.dropWhile_cons]
      simp only [hc, if_true]
      exact ⟨congrArg _ ih.1, ih.2⟩
    · rw [List.cons_append]
      rw [List.takeWhile_cons, List.dropWhile_cons, List.takeWhile_cons, List.dropWhile_cons]
      simp only [hc]
      exact ⟨rfl, rfl⟩

theorem longBracketLevel_append_brace (w r r' : Text) :
    longBracketLevel (w ++ '}' :: r') = longBracketLevel (w ++ '}' :: r) := by
  cases w with
  | nil => rfl
  | cons c w =>
    obtain ⟨htake, hdrop⟩ := takeWhile_append_brace w r
    obtain ⟨htake', hdrop'⟩ := takeWhile_append_brace w r'
    obtain ⟨d, t, t', ht, ht'⟩ := exists_append_cons_eq (w.dropWhile (· == '=')) '}' r r'
    rw [List.cons_append, List.cons_append]
    by_cases hc : c = '['
    · subst hc
      rw [longBracketLevel, longBracketLevel, htake, htake', hdrop, hdrop', ht, ht']
      by_cases hd : d = '['
      · subst hd
        rfl
      · split
        · next heq => cases heq; exact (hd rfl).elim
        · split
          · next heq => cases heq; exact (hd rfl).elim
          · rfl
    · rw [longBracketLevel, longBracketLevel]
      · exact fun _ h => hc (List.cons.inj h).1
      · exact fun _ h => hc (List.cons.inj h).1

theorem closesLongBracket_append_brace (level : Nat) (w r r' : Text) :
    closesLongBracket level (w ++ '}' :: r') = closesLongBracket level (w ++ '}' :: r) := by
  obtain ⟨htake, hdrop⟩ := takeWhile_append_brace w r
  obtain ⟨htake', hdrop'⟩ := takeWhile_append_brace w r'
  rw [closesLongBracket, closesLongBracket, htake, htake']
  by_cases hlevel : (w.takeWhile (· == '=')).length = level
  · -- the character after the run is the same in both texts
    have hcut : ∀ t : Text, (w ++ t).drop level = w.dropWhile (· == '=') ++ t := by
      intro t
      have hw : w ++ t = w.takeWhile (· == '=') ++ (w.dropWhile (· == '=') ++ t) := by
        rw [← List.append_assoc, List.takeWhile_append_dropWhile]
      rw [hw, ← hlevel, List.drop_left]
    obtain ⟨d, t, t', ht, ht'⟩ := exists_append_cons_eq (w.dropWhile (· == '=')) '}' r r'
    rw [hcut, hcut, ht, ht']
    rfl
  · have hfalse : ((w.takeWhile (· == '=')).length == level) = false := by simpa using hlevel
    rw [hfalse, Bool.false_and, Bool.false_and]

/-! ## Pieces -/

theorem shortString_cons {quote c : Char} (hc : c ≠ '\\') (s : Text) :
    shortString quote (c :: s)
      = if c = '\n' then ([], c :: s)
        else if c = quote then ([c], s)
        else (c :: (shortString quote s).1, (shortString quote s).2) := by
  rw [shortString]
  · exact fun h => (hc h).elim
  · exact fun _ _ h => (hc h).elim

/-- What a short string takes, it takes whatever follows the next brace. -/
theorem shortString_lookahead {quote : Char} {s : Text} (h : (shortString quote s).2 = w ++ '}' :: r)
    (r' : Text) : shortString quote ((shortString quote s).1 ++ (w ++ '}' :: r'))
      = ((shortString quote s).1, w ++ '}' :: r') := by
  fun_induction shortString quote s with
  | case1 => simp at h
  | case2 => simp at h
  | case3 c rest more ih =>
    have ih := ih h
    simp only [more, List.cons_append, shortString, ih]
  | case4 rest hend hescape =>
    obtain ⟨d, t, t', ht, ht'⟩ := exists_append_cons_eq w '}' r r'
    rw [ht] at h
    cases h
    rw [List.nil_append, ht', shortString_cons (by decide), if_pos rfl]
  | case5 rest hend hescape hfeed =>
    rw [List.singleton_append, shortString_cons (ne_backslash hend hescape), if_neg hfeed,
      if_pos rfl]
  | case6 c rest hend hescape hfeed hquote more ih =>
    have ih := ih h
    simp only [more, List.cons_append]
    rw [shortString_cons (ne_backslash hend hescape), if_neg hfeed, if_neg hquote, ih]

theorem longBracket_lookahead {level : Nat} {s : Text}
    (h : (longBracket level s).2 = w ++ '}' :: r) (r' : Text) :
    longBracket level ((longBracket level s).1 ++ (w ++ '}' :: r'))
      = ((longBracket level s).1, w ++ '}' :: r') := by
  fun_induction longBracket level s with
  | case1 => simp at h
  | case2 c rest hclose =>
    have hrest : rest = rest.take (level + 1) ++ (w ++ '}' :: r) := by
      rw [← show rest.drop (level + 1) = w ++ '}' :: r from h, List.take_append_drop]
    have hlength : (rest.take (level + 1)).length = level + 1 := by
      have hpos := congrArg List.length (show rest.drop (level + 1) = w ++ '}' :: r from h)
      simp only [List.length_drop, List.length_append, List.length_cons] at hpos
      rw [List.length_take]
      omega
    have hclose' : c = ']' ∧
        closesLongBracket level (rest.take (level + 1) ++ (w ++ '}' :: r')) = true := by
      refine ⟨hclose.1, ?_⟩
      rw [← List.append_assoc, closesLongBracket_append_brace _ _ r, List.append_assoc, ← hrest]
      exact hclose.2
    simp only [List.cons_append]
    rw [longBracket, if_pos hclose', List.take_left' hlength, List.drop_left' hlength]
  | case3 c rest hclose more ih =>
    have ih := ih h
    have hrest := longBracket_append level rest
    rw [show (longBracket level rest).2 = w ++ '}' :: r from h] at hrest
    have hclose' : ¬ (c = ']' ∧
        closesLongBracket level ((longBracket level rest).1 ++ (w ++ '}' :: r')) = true) := by
      rw [← List.append_assoc, closesLongBracket_append_brace _ _ r, List.append_assoc, hrest]
      exact hclose
    simp only [more, List.cons_append]
    rw [longBracket, if_neg hclose', ih]

theorem bracketed_lookahead {level : Nat} {s : Text}
    (h : (bracketed level s).2 = w ++ '}' :: r) (r' : Text) :
    bracketed level ((bracketed level s).1 ++ (w ++ '}' :: r'))
      = ((bracketed level s).1, w ++ '}' :: r') := by
  have hinner := longBracket_lookahead (s := s.drop (level + 2)) h r'
  have hdrop := longBracket_append level (s.drop (level + 2))
  have hlength : (s.take (level + 2)).length = level + 2 := by
    rw [show (longBracket level (s.drop (level + 2))).2 = w ++ '}' :: r from h] at hdrop
    have hpos := congrArg List.length hdrop
    simp only [List.length_append, List.length_cons, List.length_drop] at hpos
    rw [List.length_take]
    omega
  simp only [bracketed, List.append_assoc]
  rw [List.take_left' hlength, List.drop_left' hlength, hinner]

theorem comment_lookahead {s : Text} (h : (comment s).2 = w ++ '}' :: r) (r' : Text) :
    comment ((comment s).1 ++ (w ++ '}' :: r')) = ((comment s).1, w ++ '}' :: r') := by
  have hlevel : longBracketLevel ((comment s).1 ++ (w ++ '}' :: r')) = longBracketLevel s := by
    rw [← List.append_assoc, longBracketLevel_append_brace _ r r', List.append_assoc, ← h,
      comment_append]
  rw [comment, hlevel]
  cases hs : longBracketLevel s with
  | some level =>
    rw [comment, hs] at h ⊢
    exact bracketed_lookahead h r'
  | none =>
    rw [comment, hs] at h ⊢
    obtain ⟨d, t, t', ht, ht'⟩ := exists_append_cons_eq w '}' r r'
    obtain ⟨htake, hdrop⟩ := takeWhile_lookahead (show s.dropWhile (· != '\n') = d :: t from h.trans ht) t'
    simp only [ht', htake, hdrop]

theorem piece_cons {c : Char} {s : Text} (h : ¬ (c = '-' ∧ s.head? = some '-')) :
    piece (c :: s)
      = if c = '"' ∨ c = '\'' then (c :: (shortString c s).1, (shortString c s).2)
        else match longBracketLevel (c :: s) with
          | some level => bracketed level (c :: s)
          | none => ([c], s) := by
  unfold piece
  split
  · next heq => cases heq
  · next heq =>
    cases heq
    exact (h ⟨rfl, rfl⟩).elim
  · next heq =>
    cases heq
    rfl

/-- A piece begins with the first character. -/
theorem exists_piece_eq (c : Char) (s : Text) : ∃ a, (piece (c :: s)).1 = c :: a := by
  have happend := piece_append (c :: s)
  cases hp : (piece (c :: s)).1 with
  | nil => exact absurd hp (piece_fst_ne_nil (List.cons_ne_nil c s))
  | cons d a =>
    rw [hp, List.cons_append] at happend
    exact ⟨a, by rw [(List.cons.inj happend).1]⟩

/-- **What a piece takes, it takes whatever follows the next brace.** -/
theorem piece_lookahead {s : Text} (h : (piece s).2 = w ++ '}' :: r) (r' : Text) :
    piece ((piece s).1 ++ (w ++ '}' :: r')) = ((piece s).1, w ++ '}' :: r') := by
  cases s with
  | nil => simp [piece] at h
  | cons c s =>
    by_cases hdash : c = '-' ∧ s.head? = some '-'
    · obtain ⟨rfl, hdash⟩ := hdash
      obtain ⟨s, rfl⟩ := List.head?_eq_some_iff.1 hdash
      rw [piece] at h ⊢
      simp only [List.cons_append]
      rw [piece, comment_lookahead h r']
    · -- the same character follows the first one in both texts
      have happend := piece_append (c :: s)
      obtain ⟨a, ha⟩ := exists_piece_eq c s
      have hs : s = (a ++ w) ++ '}' :: r := by
        rw [h, ha, List.cons_append] at happend
        rw [List.append_assoc]
        exact (List.cons.inj happend).2.symm
      have hdash' : ¬ (c = '-' ∧ ((a ++ w) ++ '}' :: r').head? = some '-') := by
        obtain ⟨d, t, t', ht, ht'⟩ := exists_append_cons_eq (a ++ w) '}' r r'
        rw [hs, ht] at hdash
        rw [ht']
        exact hdash
      have hlevel : longBracketLevel (c :: ((a ++ w) ++ '}' :: r')) = longBracketLevel (c :: s) := by
        rw [hs]
        exact longBracketLevel_append_brace (c :: (a ++ w)) r r'
      rw [ha, List.cons_append, ← List.append_assoc, piece_cons hdash', hlevel]
      rw [piece_cons hdash] at h ha
      by_cases hquote : c = '"' ∨ c = '\''
      · rw [if_pos hquote] at h ha ⊢
        have hstring := shortString_lookahead h r'
        rw [show (shortString c s).1 = a from (List.cons.inj ha).2, ← List.append_assoc] at hstring
        rw [hstring]
      · rw [if_neg hquote] at h ha ⊢
        cases hl : longBracketLevel (c :: s) with
        | some level =>
          rw [hl] at h ha
          have hbracket := bracketed_lookahead h r'
          rw [ha, List.cons_append, ← List.append_assoc] at hbracket
          exact hbracket
        | none =>
          rw [hl] at ha
          cases ha
          simp

/-! ## Whole scripts -/

theorem body_open (depth : Nat) (s : Text) : body depth ('{' :: s)
    = (body (depth + 1) s).map fun (code, after) => ('{' :: code, after) := by
  rw [body.eq_def]
  simp only [if_true]

theorem body_close (depth : Nat) (s : Text) : body (depth + 1) ('}' :: s)
    = (body depth s).map fun (code, after) => ('}' :: code, after) := by
  rw [body.eq_def]
  simp only [if_neg (show ¬ '}' = '{' by decide), if_true]

theorem body_end (s : Text) : body 0 ('}' :: s) = some ([], '}' :: s) := by
  rw [body.eq_def]
  rfl

theorem body_piece {depth : Nat} {c : Char} {s : Text} (hopen : ¬ c = '{') (hclose : ¬ c = '}') :
    body depth (c :: s) = (body depth (piece (c :: s)).2).map fun (code, after) =>
      ((piece (c :: s)).1 ++ code, after) := by
  rw [body.eq_def]
  simp only [if_neg hopen, if_neg hclose]

/-- **Where a script ends does not depend on what follows its closing brace.** -/
theorem body_lookahead {depth : Nat} {s code : Text} (h : body depth s = some (code, '}' :: r))
    (r' : Text) : body depth (code ++ '}' :: r') = some (code, '}' :: r') := by
  fun_induction body depth s generalizing code with
  | case1 => cases h
  | case2 depth rest ih =>
    simp only [Option.map_eq_some_iff, Prod.mk.injEq, Prod.exists] at h
    obtain ⟨x, y, hxy, rfl, rfl⟩ := h
    rw [List.cons_append, body_open, ih hxy]
    rfl
  | case3 rest =>
    cases h
    exact body_end r'
  | case4 rest _ depth ih =>
    simp only [Option.map_eq_some_iff, Prod.mk.injEq, Prod.exists] at h
    obtain ⟨x, y, hxy, rfl, rfl⟩ := h
    rw [List.cons_append, body_close, ih hxy]
    rfl
  | case5 depth c rest hopen hclose ih =>
    simp only [Option.map_eq_some_iff, Prod.mk.injEq, Prod.exists] at h
    obtain ⟨x, y, hxy, rfl, rfl⟩ := h
    have hpiece := piece_lookahead (body_append hxy).symm r'
    obtain ⟨a, ha⟩ := exists_piece_eq c rest
    rw [ha, List.cons_append] at hpiece
    rw [ha, List.append_assoc, List.cons_append, body_piece hopen hclose, hpiece, ih hxy]
    rfl

end NginxConf.Lua
