import NginxConf.Proofs.Format.Neat

/-!
# Writing a gap again

A gap that has been written is written again as it would have been at first (`Gap.write_pieces`), if
the second style does not keep more blank lines than the first one. The first pass may only have
brought a number of line breaks down to its limit, and the second one has a limit that is no higher.
-/

namespace NginxConf

open Trivia

variable {c₁ c₂ : Style} {last : Prop} {old : List Trivia}

/-! ## As lines -/

namespace Style

/-- Numbers of line breaks that are the same up to the limit. -/
theorem breaks_congr (style : Style) {m n : Nat} (h : min m style.maxBreaks = min n style.maxBreaks) :
    style.breaks m = style.breaks n := by
  rw [breaks, breaks, h]

end Style

namespace Lines

variable (style : Style) (layout : Lines)

theorem writeFrom_blanks_append (opened : Bool) (count : Nat) (sameLine : Bool) (w : Text)
    (ts : List Trivia) : layout.writeFrom style opened count sameLine (blanks w ++ ts)
      = layout.writeFrom style opened count sameLine ts := by
  unfold blanks
  split
  · rfl
  · rw [List.singleton_append, writeFrom]

theorem writeFrom_blanks (opened : Bool) (count : Nat) (sameLine : Bool) (w : Text) :
    layout.writeFrom style opened count sameLine (blanks w)
      = layout.writeFrom style opened count sameLine [] := by
  have h := layout.writeFrom_blanks_append style opened count sameLine w []
  rwa [List.append_nil] at h

/-- Line breaks are counted. -/
theorem writeFrom_breakPieces (c₁ : Style) (sameLine : Bool) {count : Nat} (hcount : 0 < count)
    (ts : List Trivia) :
    layout.writeFrom style true 0 sameLine (breakPieces c₁ true count ++ ts)
      = layout.writeFrom style true (min count c₁.maxBreaks) false ts := by
  have hbreaks : ∀ (n start : Nat) (line : Bool),
      layout.writeFrom style true start line
          (List.replicate (n + 1) ⟨.newline, c₁.lineEnding.text⟩ ++ ts)
        = layout.writeFrom style true (start + (n + 1)) false ts := by
    intro n
    induction n with
    | zero => intro start line; rfl
    | succ n ih =>
      intro start line
      rw [List.replicate_succ, List.cons_append, writeFrom]
      simp only
      rw [ih, Nat.add_assoc, Nat.add_comm 1]
  obtain ⟨n, hn⟩ : ∃ n, min count c₁.maxBreaks = n + 1 :=
    Nat.exists_eq_add_one.2 (by rw [Style.maxBreaks]; omega)
  rw [breakPieces, if_pos rfl, hn, hbreaks, Nat.zero_add]

end Lines

/-- Where nothing has been written before, a layout without comments writes nothing. -/
structure Lines.Fresh (layout : Lines) : Prop where
  indent : layout.indent = 0
  minBreaks : layout.minBreaks = 0
  sameLine : layout.sameLine = []

/-- Before a comment the same is written again, and then the comment and what follows. Where no line has
ended before the comment, it is known whether one has ended earlier in the gap (`hhead`). -/
theorem Lines.writeFrom_before_comment (layout : Lines) (hkeep : c₂.maxBreaks ≤ c₁.maxBreaks)
    {t : Trivia} {ts ps : List Trivia} (hkind : t.kind = .comment) {opened sameLine again : Bool}
    {count : Nat} (hhead : count = 0 → again = sameLine) (hline : sameLine = true → count = 0)
    (hrest : ∀ again, layout.writeFrom c₂ true 0 again ps = layout.writeFrom c₂ true 0 sameLine ts) :
    layout.writeFrom c₂ opened 0 again
        ((if sameLine && opened then blanks [' ']
          else breakPieces c₁ opened count ++ blanks (c₁.indent layout.commentIndent)) ++ t :: ps)
      = layout.writeFrom c₂ opened count sameLine (t :: ts) := by
  have hcomment : ∀ (opened again : Bool) (n : Nat), layout.writeFrom c₂ opened n again (t :: ps)
      = (if again && opened then [' ']
          else breaks c₂ opened n ++ c₂.indent layout.commentIndent) ++ t.text
        ++ layout.writeFrom c₂ true 0 sameLine ts := by
    intro opened again n
    rw [writeFrom, hkind]
    simp only
    rw [hrest]
  rw [writeFrom.eq_2, hkind]
  by_cases hbefore : (sameLine && opened) = true
  · obtain ⟨hsame, rfl⟩ := Bool.and_eq_true_iff.1 hbefore
    rw [if_pos hbefore, writeFrom_blanks_append, hcomment, hhead (hline hsame), hsame]
    rfl
  rw [if_neg hbefore]
  simp only
  rw [if_neg hbefore]
  cases opened with
  | false =>
    rw [breakPieces, if_neg Bool.false_ne_true, List.nil_append, writeFrom_blanks_append, hcomment,
      Bool.and_false, if_neg Bool.false_ne_true]
    rfl
  | true =>
    obtain rfl : sameLine = false := by simpa using hbefore
    by_cases hcount : count = 0
    · subst hcount
      rw [hhead rfl, breakPieces, if_pos rfl, Nat.zero_min, List.replicate_zero, List.nil_append,
        writeFrom_blanks_append, hcomment]
      rfl
    · rw [List.append_assoc, writeFrom_breakPieces _ _ _ _ (Nat.pos_of_ne_zero hcount),
        writeFrom_blanks_append, hcomment]
      have hbreaks : breaks c₂ true (min count c₁.maxBreaks) = breaks c₂ true count :=
        c₂.breaks_congr (by omega)
      rw [hbreaks]
      rfl

/-- **What has been written as lines is written again as it would have been at first.** -/
theorem Lines.writeFrom_piecesFrom {layout : Lines} {limit : Nat} (hkeep : c₂.maxBreaks ≤ c₁.maxBreaks)
    (hlimit : limit ≤ layout.maxBreaks) (hmax : 0 < layout.maxBreaks)
    (hmaxBreaks : layout.maxBreaks ≤ c₁.maxBreaks) (hmin : layout.minBreaks ≤ 1)
    (hold : Neat last old) {opened : Bool} {count : Nat} {sameLine again : Bool}
    (hopened : opened = false → layout.Fresh)
    (hagain : count = 0 → again = sameLine ∨ ∀ u ∈ old.head?, u.kind = .newline)
    (hline : sameLine = true → count = 0) :
    { layout with maxBreaks := limit }.writeFrom c₂ opened 0 again
        (layout.piecesFrom c₁ opened count sameLine old)
      = { layout with maxBreaks := limit }.writeFrom c₂ opened count sameLine old := by
  fun_induction layout.piecesFrom c₁ opened count sameLine old generalizing again with
  | case1 opened count sameLine count' hcount =>
    rw [writeFrom_blanks, writeFrom, writeFrom, if_pos (show max 0 layout.minBreaks = 0 by omega),
      if_pos hcount]
  | case2 opened count sameLine count' hcount =>
    cases opened with
    | false =>
      obtain ⟨hindent, hnone, hempty⟩ := hopened rfl
      rw [breakPieces, if_neg Bool.false_ne_true, List.nil_append, writeFrom_blanks, writeFrom,
        if_pos (show max 0 layout.minBreaks = 0 by omega), writeFrom, if_neg hcount]
      simp [breaks, hindent, hempty]
    | true =>
      -- at least one line break has been written
      have hpositive : 0 < min count' layout.maxBreaks := by omega
      rw [writeFrom_breakPieces _ _ _ _ hpositive, writeFrom_blanks, writeFrom, writeFrom,
        if_neg (by simp only; omega), if_neg hcount]
      have hbreaks : breaks c₂ true
            (min (max (min (min count' layout.maxBreaks) c₁.maxBreaks) layout.minBreaks) limit)
          = breaks c₂ true (min count' limit) := c₂.breaks_congr (by omega)
      exact congrArg (· ++ c₂.indent layout.indent) hbreaks
  | case3 opened count sameLine t ts hkind ih =>
    rw [writeFrom, hkind]
    exact ih hold.2 hopened (by rintro ⟨⟩) (by rintro ⟨⟩)
  | case4 opened count sameLine t ts hkind ih =>
    rw [writeFrom, hkind]
    refine ih hold.2 hopened (fun hcount => .inl ?_) hline
    refine (hagain hcount).resolve_right fun hnewline => ?_
    have := hnewline t rfl
    rw [hkind] at this
    cases this
  | case5 opened count sameLine t ts hkind before ih =>
    have hhere := hold.1
    unfold NeatBefore at hhere
    rw [hkind] at hhere
    refine writeFrom_before_comment { layout with maxBreaks := limit } hkeep hkind (fun hcount => ?_)
      hline fun again => ?_
    · refine (hagain hcount).resolve_right fun hnewline => ?_
      have := hnewline t rfl
      rw [hkind] at this
      cases this
    · -- behind the comment a line ends, so it does not matter whether one has ended before
      exact ih hold.2 (by rintro ⟨⟩) (fun _ => .inr hhere.2.2) (fun _ => rfl)

/-! ## As it was -/

/-- **What has been written as it was is written again as it would have been at first.** -/
theorem writeVerbatim_verbatimPieces (c₁ c₂ : Style) (hold : Neat last old) :
    writeVerbatim c₂ (verbatimPieces c₁ old) = writeVerbatim c₂ old := by
  induction old with
  | nil => rfl
  | cons t ts ih =>
    have hrest := ih hold.2
    cases hkind : t.kind with
    | newline =>
      rw [verbatimPieces_of_newline c₁ hkind, writeVerbatim, writeVerbatim, hkind, hrest]
    | comment =>
      rw [verbatimPieces_of_comment c₁ hkind, writeVerbatim, writeVerbatim, hkind, hrest]
    | whitespace =>
      rw [writeVerbatim, hkind]
      rcases verbatimPieces_of_whitespace c₁ hkind hold.1 with
        ⟨u, us, rfl, hu, h⟩ | ⟨hold', hnew, h⟩
      · rw [h, hrest]
        simp [hu]
      · have hno : ∀ {ps : List Trivia}, (∀ u ∈ ps.head?, u.kind = .comment) →
            ps.head?.any (·.kind == .newline) = false := by
          intro ps hps
          cases hhead : ps.head? with
          | none => rfl
          | some u => simp [hps u hhead]
        rw [h, writeVerbatim, hkind, hrest]
        simp only [hno hold', hno hnew]

/-! ## In another style -/

/-- The gap of one style and that of another, which allows no more line breaks. -/
inductive Gap.Restyled (c₁ : Style) : Gap → Gap → Prop
  | lines (layout : Lines) (limit : Nat) (hlimit : limit ≤ layout.maxBreaks)
    (hmax : 0 < layout.maxBreaks) (hmaxBreaks : layout.maxBreaks ≤ c₁.maxBreaks)
    (hmin : layout.minBreaks ≤ 1) :
    Restyled c₁ (.lines layout) (.lines { layout with maxBreaks := limit })
  | nothing : Restyled c₁ .nothing .nothing
  | verbatim : Restyled c₁ .verbatim .verbatim

/-- **A gap that has been written is written again as it would have been at first.** -/
theorem Gap.write_pieces {opened : Bool} {gap gap' : Gap} (h : Restyled c₁ gap gap')
    (hkeep : c₂.maxBreaks ≤ c₁.maxBreaks)
    (hopened : ∀ layout, gap = .lines layout → opened = false → layout.Fresh)
    (hold : Neat last old) :
    gap'.write c₂ opened (gap.pieces c₁ opened old) = gap'.write c₂ opened old := by
  cases h with
  | lines layout limit hlimit hmax hmaxBreaks hmin =>
    exact Lines.writeFrom_piecesFrom hkeep hlimit hmax hmaxBreaks hmin hold (hopened layout rfl)
      (fun _ => .inl rfl) (fun _ => rfl)
  | nothing => rfl
  | verbatim => exact writeVerbatim_verbatimPieces c₁ c₂ hold

namespace NodeRef

/-- **How a gap is written depends on the style by its limit alone.** -/
theorem restyled_gapBefore (hkeep : c₂.maxBreaks ≤ c₁.maxBreaks) (starts : List Nat)
    (previous : Option TokenRef) (t : TokenRef) :
    Gap.Restyled c₁ (gapBefore c₁ starts previous t).1 (gapBefore c₂ starts previous t).1 := by
  have hpositive : 0 < c₁.maxBreaks := Nat.succ_pos _
  cases previous with
  | none =>
    rw [gapBefore, gapBefore, Gap.first, Gap.first]
    split
    · exact .lines ⟨0, 0, 0, 1, []⟩ 1 (Nat.le_refl 1) Nat.one_pos hpositive (Nat.zero_le 1)
    · exact .lines ⟨0, 0, 0, c₁.maxBreaks, []⟩ c₂.maxBreaks hkeep hpositive (Nat.le_refl _)
        (Nat.zero_le 1)
  | some p =>
    -- only the limits differ, so both styles take the same branch
    simp only [gapBefore, Gap.between]
    by_cases hend : t.token.kind = .endOfFile
    · rw [if_pos hend, if_pos hend]
      exact .lines ⟨0, 0, 0, 1, []⟩ 1 (Nat.le_refl 1) Nat.one_pos hpositive (Nat.zero_le 1)
    rw [if_neg hend, if_neg hend]
    by_cases hscript : p.beforeScript t = true
    · rw [if_pos hscript, if_pos hscript]
      exact .verbatim
    rw [if_neg hscript, if_neg hscript]
    by_cases hbrace : t.token.kind = .rightBrace ∧ t.parent.kind.isBlock = true
    · rw [if_pos hbrace, if_pos hbrace]
      exact .lines ⟨_, _, _, c₁.maxBreaks, _⟩ c₂.maxBreaks hkeep hpositive (Nat.le_refl _)
        (by simp only; split <;> omega)
    rw [if_neg hbrace, if_neg hbrace]
    by_cases hstart : starts.contains t.span.start = true
    · rw [if_pos hstart, if_pos hstart]
      exact .lines ⟨_, _, _, c₁.maxBreaks, _⟩ c₂.maxBreaks hkeep hpositive (Nat.le_refl _)
        (by simp only; split <;> omega)
    rw [if_neg hstart, if_neg hstart]
    split
    · exact .nothing
    · split
      · exact .lines ⟨_, _, _, c₁.maxBreaks, _⟩ c₂.maxBreaks hkeep hpositive (Nat.le_refl _)
          (Nat.zero_le 1)
      · exact .verbatim

end NodeRef

end NginxConf
