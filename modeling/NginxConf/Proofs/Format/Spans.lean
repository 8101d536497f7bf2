import NginxConf.Proofs.Format.Reading

/-!
# Blocks that go over several lines

Whether a block goes over several lines decides how its braces are written, and formatting does not
change it: a block that does has its `}` on a line of its own when it is written
(`newline_mem_written`), and where a line break is written inside a block there has been one in the
block before (`spansLines_of_newline_mem_written`).
-/

namespace NginxConf

open Trivia

namespace NodeRef

/-! ## The text of a node without trivia at its ends -/

/-- The text of some tokens with what stands between them. -/
def textBetween : List TokenRef → Text
  | [] => []
  | t :: ts => t.token.text ++ Row.textOf (oldRows (some t) ts)

theorem textBetween_append_left (ss : List TokenRef) (ts : List TokenRef) :
    textBetween ts <:+ textBetween (ss ++ ts) := by
  induction ss with
  | nil => exact List.suffix_refl _
  | cons s ss ih =>
    refine ih.trans ?_
    rw [List.cons_append]
    cases hmore : ss ++ ts with
    | nil => exact List.nil_suffix
    | cons u us =>
      rw [textBetween, textBetween, oldRows_cons, Row.textOf_cons]
      exact (List.suffix_append _ _).trans (List.suffix_append _ _)

theorem textBetween_append_right (ss ts : List TokenRef) :
    textBetween ss <+: textBetween (ss ++ ts) := by
  cases ss with
  | nil => exact List.nil_prefix
  | cons s ss =>
    rw [List.cons_append, textBetween, textBetween, oldRows_append, Row.textOf_append,
      ← List.append_assoc]
    exact List.prefix_append _ _

theorem trimmedText_eq (n : NodeRef) : n.trimmedText = textBetween n.allTokens := by
  have htrim : ∀ (t : Token) (ts : List Token),
      (Token.trimTrailing (t :: ts)).flatMap Token.fullText
        = Trivia.textOf t.leading ++ (t.text ++ Row.textOf (Token.rows t.trailing ts)) := by
    intro t ts
    induction ts generalizing t with
    | nil => simp [Token.trimTrailing, Token.fullText, Token.rows, Row.textOf]
    | cons u us ih =>
      rw [Token.trimTrailing, List.flatMap_cons, ih, Token.rows, Row.textOf_cons, Token.fullText,
        textOf_append]
      · simp only [List.append_assoc]
      · exact List.cons_ne_nil u us
  have hmap := n.map_token_allTokens
  rw [trimmedText, trimmedTokens, ← hmap]
  cases n.allTokens with
  | nil => rfl
  | cons t ts =>
    rw [List.map_cons, List.modifyHead_cons, htrim]
    rfl

theorem spansLines_iff (n : NodeRef) :
    n.spansLines = true ↔ '\n' ∈ textBetween n.allTokens := by
  rw [spansLines_eq, trimmedText_eq]
  simp

/-- **A node goes over several lines if one below it does.** -/
theorem spansLines_of_mem_descendants {m n : NodeRef} (hm : m ∈ n.descendants)
    (h : m.spansLines = true) : n.spansLines = true := by
  rw [spansLines_iff] at h ⊢
  obtain ⟨left, right, hsplit⟩ := infix_allTokens hm
  rw [← hsplit, List.append_assoc]
  exact (textBetween_append_left left _).subset ((textBetween_append_right _ right).subset h)

/-- A node goes over several lines if the node that holds one of its tokens does. -/
theorem spansLines_of_parent {n : NodeRef} {t : TokenRef} (ht : t ∈ n.allTokens)
    (h : t.parent.spansLines = true) : n.spansLines = true :=
  spansLines_of_mem_descendants (parent_mem_descendants ht).1 h

end NodeRef

/-! ## Line breaks in what is written -/

theorem LineEnding.newline_mem (ending : LineEnding) : '\n' ∈ ending.text := by
  cases ending <;> simp [LineEnding.text]

theorem Lines.newline_mem_breaks (style : Style) {count : Nat} (h : 0 < count) :
    '\n' ∈ Lines.breaks style true count := by
  obtain ⟨n, hn⟩ : ∃ n, min count style.maxBreaks = n + 1 :=
    Nat.exists_eq_add_one.2 (by rw [Style.maxBreaks]; omega)
  rw [Lines.breaks, if_pos rfl, Style.breaks, hn, List.replicate_succ, List.flatten_cons]
  exact List.mem_append_left _ style.lineEnding.newline_mem

/-- A line break is written where one has to be. -/
theorem Lines.newline_mem_writeFrom {layout : Lines} (hmin : 0 < layout.minBreaks)
    (hmax : 0 < layout.maxBreaks) (style : Style) (count : Nat) (sameLine : Bool)
    (old : List Trivia) : '\n' ∈ layout.writeFrom style true count sameLine old := by
  induction old generalizing count sameLine with
  | nil =>
    rw [writeFrom, if_neg (by omega)]
    exact List.mem_append_left _ (newline_mem_breaks style (by omega))
  | cons t ts ih =>
    rw [writeFrom]
    split
    · exact ih _ _
    · exact ih _ _
    · exact List.mem_append_right _ (ih _ _)

theorem Trivia.newline_notMem_of_isInlineBlank {w : Text} (hw : ∀ c ∈ w, isInlineBlank c = true) :
    '\n' ∉ w :=
  fun hmem => absurd (hw _ hmem) (by decide)

/-- A line break holds a line feed. -/
theorem Trivia.Fits.newline_mem {t : Trivia} {next : Text} (h : t.Fits next)
    (ht : t.kind = .newline) : '\n' ∈ t.text := by
  unfold Fits at h
  rw [ht] at h
  rcases h with h | h <;> simp [h]

/-- Lines are broken only where they have been, or where they have to be. -/
theorem Lines.newline_mem_of_writeFrom {layout : Lines} {style : Style}
    (hsame : ∀ c ∈ layout.sameLine, isInlineBlank c = true) (hmin : layout.minBreaks = 0)
    {next : Text} {old : List Trivia} (hold : Cut next old) {opened : Bool} {count : Nat}
    {sameLine : Bool} (h : '\n' ∈ layout.writeFrom style opened count sameLine old) :
    0 < count ∨ '\n' ∈ textOf old := by
  have hbreaks : ∀ {opened : Bool} {n : Nat}, '\n' ∈ breaks style opened n → 0 < n := by
    intro opened n hmem
    refine Nat.pos_of_ne_zero fun hn => ?_
    rw [hn] at hmem
    cases opened <;> simp [breaks] at hmem
  have hindent : ∀ level, '\n' ∉ style.indent level := fun level =>
    newline_notMem_of_isInlineBlank (style.isInlineBlank_indent level)
  -- a line break of the gap that has been read before is in the count
  induction old generalizing opened count sameLine with
  | nil =>
    rw [writeFrom] at h
    split at h
    · exact absurd h (newline_notMem_of_isInlineBlank hsame)
    · rcases List.mem_append.1 h with h | h
      · have := hbreaks h
        omega
      · exact absurd h (hindent _)
  | cons t ts ih =>
    rw [textOf_cons, List.mem_append]
    rw [writeFrom] at h
    cases hkind : t.kind with
    | newline => exact .inr (.inl (hold.1.newline_mem hkind))
    | whitespace =>
      rw [hkind] at h
      rcases ih hold.2 h with h | h
      · exact .inl h
      · exact .inr (.inr h)
    | comment =>
      rw [hkind] at h
      rcases List.mem_append.1 h with h | h
      · rcases List.mem_append.1 h with h | h
        · split at h
          · simp at h
          · rcases List.mem_append.1 h with h | h
            · exact .inl (hbreaks h)
            · exact absurd h (hindent _)
        · exact .inr (.inl h)
      · rcases ih hold.2 h with h | h
        · exact absurd h (Nat.lt_irrefl 0)
        · exact .inr (.inr h)

/-- What is written as it was has line breaks only where there has been one. -/
theorem newline_mem_of_writeVerbatim {style : Style} {next : Text} {old : List Trivia}
    (hold : Cut next old) (h : '\n' ∈ writeVerbatim style old) : '\n' ∈ textOf old := by
  induction old with
  | nil => exact h
  | cons t ts ih =>
    rw [textOf_cons, List.mem_append]
    rw [writeVerbatim] at h
    rcases List.mem_append.1 h with h | h
    · cases hkind : t.kind with
      | newline => exact .inl (hold.1.newline_mem hkind)
      | whitespace =>
        rw [hkind] at h
        simp only at h
        split at h
        · cases h
        · exact .inl h
      | comment =>
        rw [hkind] at h
        exact .inl h
    · exact .inr (ih hold.2 h)

/-- **A line break is written in a gap only where there has been one, or where there has to be.** -/
theorem Gap.newline_mem_of_write {gap : Gap} {style : Style} {opened : Bool} {next : Text}
    {old : List Trivia} (hold : Cut next old)
    (hsame : ∀ layout, gap = .lines layout → ∀ c ∈ layout.sameLine, isInlineBlank c = true)
    (h : '\n' ∈ gap.write style opened old) :
    '\n' ∈ textOf old ∨ ∃ layout, gap = .lines layout ∧ 0 < layout.minBreaks := by
  cases gap with
  | lines layout =>
    by_cases hmin : layout.minBreaks = 0
    · have hmem := layout.newline_mem_of_writeFrom (hsame layout rfl) hmin hold h
      exact .inl (hmem.resolve_left (Nat.lt_irrefl 0))
    · exact .inr ⟨layout, rfl, Nat.pos_of_ne_zero hmin⟩
  | nothing => cases h
  | verbatim => exact .inl (newline_mem_of_writeVerbatim hold h)

/-- There has to be a line break at the braces of a block that goes over several lines, and nowhere
else. -/
theorem Gap.spansLines_of_minBreaks {style : Style} {starts : List Nat} {old : List Trivia}
    {p t : TokenRef} {layout : Lines} (h : Gap.between style starts old p t = .lines layout)
    (hmin : 0 < layout.minBreaks) : t.parent.spansLines = true ∨ p.parent.spansLines = true := by
  unfold Gap.between at h
  split at h
  · cases h
    cases hmin
  · split at h
    · cases h
    · split at h
      · cases h
        by_cases hspans : t.parent.spansLines = true
        · exact .inl hspans
        · simp [hspans] at hmin
      · split at h
        · cases h
          by_cases hspans : p.parent.spansLines = true
          · exact .inr hspans
          · simp [hspans] at hmin
        · split at h
          · cases h
          · split at h
            · cases h
              cases hmin
            · cases h

/-- The gap before the `}` of a block. -/
theorem Gap.between_rightBrace (style : Style) (starts : List Nat) (old : List Trivia)
    {p t : TokenRef} (ht : t.token.kind = .rightBrace) (hblock : t.parent.kind.isBlock = true)
    (hp : p.beforeScript t = false) : ∃ layout, Gap.between style starts old p t = .lines layout ∧
      0 < layout.maxBreaks ∧ (t.parent.spansLines = true → 0 < layout.minBreaks) := by
  rw [Gap.between, if_neg (by rw [ht]; decide), if_neg (by simp [hp]), if_pos ⟨ht, hblock⟩]
  exact ⟨_, rfl, Nat.succ_pos _, fun hspans => by simp [hspans]⟩

/-! ## Blocks in a text without errors -/

open NodeRef

/-- A character of what has been written stands in a gap or in a token. -/
theorem exists_of_mem_writtenRows {style : Style} {starts : List Nat} {c : Char}
    (previous : Option TokenRef) {ts : List TokenRef}
    (h : c ∈ Row.textOf (writtenRows style starts previous ts)) :
    ∃ before t after, ts = before ++ t :: after ∧ (c ∈ t.token.text ∨
      c ∈ (gapBefore style starts (lastOf previous before) t).1.write style
        (lastOf previous before).isSome
        (triviaBefore (lastOf previous before) ++ t.token.leading)) := by
  induction ts generalizing previous with
  | nil => cases h
  | cons t ts ih =>
    rw [writtenRows_cons, Row.textOf_cons, Gap.textOf_pieces] at h
    rcases List.mem_append.1 h with h | h
    · exact ⟨[], t, ts, rfl, .inr h⟩
    · rcases List.mem_append.1 h with h | h
      · exact ⟨[], t, ts, rfl, .inl h⟩
      · obtain ⟨before, u, after, rfl, hmem⟩ := ih (some t) h
        exact ⟨t :: before, u, after, rfl, by rwa [lastOf_cons]⟩

section Clean

variable {s : Text} (h : (parse s).hasErrors = false)

include h

/-- **A block that goes over several lines does so when it has been written.** Its `}` is then on a
line of its own. -/
theorem newline_mem_written (style : Style) {n : NodeRef}
    (hn : n ∈ (root (parse s).tree).descendants) (hblock : n.kind.isBlock = true)
    (hspans : n.spansLines = true) {t : TokenRef} {ts : List TokenRef}
    (htokens : n.allTokens = t :: ts) :
    '\n' ∈ Row.textOf (writtenRows style (root (parse s).tree).itemStarts (some t) ts) := by
  obtain ⟨first, inner, last, hall, -, hl, hr, hfirst, hlast, hinner⟩ :=
    exists_tokens_of_block h hn hblock
  obtain ⟨rfl, hts⟩ := List.cons.inj (htokens.symm.trans hall)
  -- the token before the brace is the opening brace, or ends a statement
  obtain ⟨p, hp, hscript⟩ : ∃ p, lastOf (some t) inner = some p ∧ p.beforeScript last = false := by
    have hcode : last.token.kind ≠ .luaCode := by rw [hr]; decide
    rcases List.eq_nil_or_concat inner with rfl | ⟨init, p, rfl⟩
    · exact ⟨t, rfl, TokenRef.beforeScript_eq_false hcode (.inl ⟨hl, hfirst ▸ hblock⟩)⟩
    · refine ⟨p, by rw [List.concat_eq_append, lastOf_append]; rfl, ?_⟩
      exact TokenRef.beforeScript_eq_false hcode (.inr (hinner p (by simp)))
  obtain ⟨layout, hgap, hmax, hmin⟩ := Gap.between_rightBrace style
    (root (parse s).tree).itemStarts (p.token.trailing ++ last.token.leading) hr
    (hlast ▸ hblock) hscript
  rw [show ts = inner ++ [last] from hts, writtenRows_append, Row.textOf_append, writtenRows_cons,
    Row.textOf_cons, Gap.textOf_pieces, hp]
  refine List.mem_append_right _ (List.mem_append_left _ ?_)
  rw [gapBefore, hgap]
  exact layout.newline_mem_writeFrom (hmin (hlast ▸ hspans)) hmax style 0 true _

/-- **A node that has been written over several lines went over several lines before.** -/
theorem spansLines_of_newline_mem_written (style : Style) {n : NodeRef}
    (hn : n ∈ (root (parse s).tree).descendants) {t : TokenRef} {ts : List TokenRef}
    (htokens : n.allTokens = t :: ts)
    (hmem : '\n' ∈ t.token.text
      ++ Row.textOf (writtenRows style (root (parse s).tree).itemStarts (some t) ts)) :
    n.spansLines = true := by
  have hspans := n.spansLines_iff
  rw [htokens, textBetween] at hspans
  rcases List.mem_append.1 hmem with hmem | hmem
  · exact hspans.2 (List.mem_append_left _ hmem)
  obtain ⟨before, u, after, rfl, hwhere⟩ := exists_of_mem_writtenRows (some t) hmem
  rw [oldRows_append, oldRows_cons, Row.textOf_append, Row.textOf_cons] at hspans
  rcases hwhere with htext | hwritten
  · exact hspans.2 (by simp [htext])
  obtain ⟨p, hpmem, hp⟩ := exists_lastOf t before
  rw [hp] at hwritten hspans
  -- the gap as the lexer has found it
  obtain ⟨left, right, hsplit⟩ := infix_allTokens hn
  have hparting : Parting s (left ++ t :: before) u (after ++ right) :=
    parting_of_split h (by rw [← hsplit, htokens]; simp)
  have hcut := hparting.cut
  rw [lastOf_append, lastOf_cons, hp] at hcut
  rcases Gap.newline_mem_of_write hcut (fun layout hgap => Gap.isInlineBlank_sameLine hgap) hwritten with
    hold | ⟨layout, hgap, hmin⟩
  · exact hspans.2 (List.mem_append_right _ (List.mem_append_right _ (List.mem_append_left _ hold)))
  · rcases Gap.spansLines_of_minBreaks hgap hmin with hparent | hparent
    · exact spansLines_of_parent (by rw [htokens]; simp) hparent
    · have hpn : p ∈ (t :: before) ++ u :: after := List.mem_append_left _ hpmem
      exact spansLines_of_parent (htokens ▸ hpn) hparent

end Clean

end NginxConf
