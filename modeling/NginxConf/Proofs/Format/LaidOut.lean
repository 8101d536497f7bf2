import NginxConf.Proofs.Format.BeforeItem
import NginxConf.Proofs.Format.Layout
import NginxConf.Proofs.Parse.Partners

/-!
# The layout of a formatted file

Before an item, and before the `}` of a block, a formatted file is laid out on the level of the
blocks around the token (`format_laidOut`). Each line that begins there begins with the indent of its
level, comments before a `}` with one more. Blanks stand at the end of no line but that of a comment,
and there are no more blank lines than the style keeps. A block that goes over several lines has line
breaks at both of its braces.
-/

namespace NginxConf

open NodeRef Trivia

variable {s : Text}

/-! ## How the gaps are written -/

/-- There has to be a line break between two tokens: at the braces of a block that goes over several
lines. -/
def TokenRef.Broken (p x : TokenRef) : Prop :=
  x.closesBlock = true ∧ '\n' ∈ x.parent.trimmedText ∨
    p.opensBlock = true ∧ '\n' ∈ p.parent.trimmedText

theorem NodeRef.spansLines_of_mem {n : NodeRef} (h : '\n' ∈ n.trimmedText) :
    n.spansLines = true := by
  rw [spansLines_eq]
  simpa using h

namespace Gap

variable {style : Style} {starts : List Nat} {old : List Trivia} {p x : TokenRef}

/-- The gap before the `}` of a block is written as lines. -/
theorem exists_lines_of_closesBlock (hx : x.closesBlock = true)
    (hscript : p.beforeScript x = false)
    (hopens : p.opensBlock = true → p.parent = x.parent) :
    ∃ layout, Gap.between style starts old p x = .lines layout ∧ layout.indent = x.depth ∧
      layout.commentIndent = x.depth + 1 ∧ 0 < layout.maxBreaks ∧
      (p.Broken x → 0 < layout.minBreaks) := by
  obtain ⟨hkind, hblock⟩ := Bool.and_eq_true_iff.1 hx
  have hkind := beq_iff_eq.1 hkind
  rw [Gap.between, if_neg (by rw [hkind]; decide), if_neg (by simp [hscript]),
    if_pos ⟨hkind, hblock⟩, TokenRef.level_of_closesBlock hx]
  refine ⟨_, rfl, rfl, rfl, Nat.succ_pos _, fun hbroken => ?_⟩
  have hspans : x.parent.spansLines = true := by
    rcases hbroken with ⟨-, hfeed⟩ | ⟨hp, hfeed⟩
    · exact spansLines_of_mem hfeed
    · rw [← hopens hp]
      exact spansLines_of_mem hfeed
  simp [hspans]

/-- The gap before an item is written as lines. -/
theorem exists_lines_of_isHead (hx : x.token.kind.isHead = true) (hstart : x.span.start ∈ starts)
    (hscript : p.beforeScript x = false) :
    ∃ layout, Gap.between style starts old p x = .lines layout ∧ layout.indent = x.depth ∧
      layout.commentIndent = x.depth ∧ 0 < layout.maxBreaks ∧
      (p.Broken x → 0 < layout.minBreaks) := by
  have hkind : x.token.kind ≠ .endOfFile ∧ x.token.kind ≠ .rightBrace := by
    constructor <;> intro hkind <;> rw [hkind] at hx <;> cases hx
  rw [Gap.between, if_neg hkind.1, if_neg (by simp [hscript]), if_neg (by simp [hkind.2]),
    if_pos (by simpa using hstart), TokenRef.level_of_isHead hx]
  refine ⟨_, rfl, rfl, rfl, Nat.succ_pos _, fun hbroken => ?_⟩
  rcases hbroken with ⟨hcloses, -⟩ | ⟨hp, hfeed⟩
  · simp [TokenRef.closesBlock, hkind.2] at hcloses
  · rw [TokenRef.opensBlock] at hp
    rw [if_pos (by rw [hp, spansLines_of_mem hfeed]; rfl)]
    exact Nat.one_pos

end Gap

/-- The level of comments before a token. -/
def TokenRef.commentDepth (x : TokenRef) : Nat := if x.closesBlock then x.depth + 1 else x.depth

section Clean

variable (h : (parse s).hasErrors = false)

include h

/-- **Before an item and before the `}` of a block, a gap is written as lines**, on the level of the
blocks around the token. -/
theorem exists_lines {before after : List TokenRef} {p x : TokenRef} (style : Style)
    (old : List Trivia) (hsplit : tokensOf s = before ++ p :: x :: after)
    (hx : x.BeginsItem (root (parse s).tree) ∨ x.closesBlock = true) :
    x.token.kind ≠ .endOfFile ∧
      ∃ layout, Gap.between style (root (parse s).tree).itemStarts old p x = .lines layout ∧
        layout.indent = x.depth ∧ layout.commentIndent = x.commentDepth ∧ 0 < layout.maxBreaks ∧
        (p.Broken x → 0 < layout.minBreaks) := by
  by_cases hcloses : x.closesBlock = true
  · obtain ⟨hkind, hblock⟩ := Bool.and_eq_true_iff.1 hcloses
    have hkind := beq_iff_eq.1 hkind
    have hbefore := before_rightBrace h hsplit hkind hblock
    have hscript : p.beforeScript x = false := by
      refine TokenRef.beforeScript_eq_false (by rw [hkind]; decide) ?_
      exact hbefore.imp_left fun ⟨hp, hparent, _⟩ => ⟨hp, hparent ▸ hblock⟩
    have hopens : p.opensBlock = true → p.parent = x.parent := by
      intro hp
      have hp := beq_iff_eq.1 (Bool.and_eq_true_iff.1 hp).1
      rcases hbefore with ⟨-, hparent, -⟩ | hother | hother
      · exact hparent
      · rw [hother] at hp
        cases hp
      · rw [hother] at hp
        cases hp
    rw [TokenRef.commentDepth, if_pos hcloses]
    exact ⟨by rw [hkind]; decide, Gap.exists_lines_of_closesBlock hcloses hscript hopens⟩
  · have hbegins := hx.resolve_right hcloses
    have hhead := isHead_of_beginsItem hbegins
    obtain ⟨m, hm, item, hitem, hfirst⟩ := exists_items h hbegins
    have hkind : x.token.kind ≠ .endOfFile ∧ x.token.kind ≠ .luaCode := by
      constructor <;> intro hkind <;> rw [hkind] at hhead <;> cases hhead
    have hscript :=
      TokenRef.beforeScript_eq_false hkind.2 (before_item h hm hitem hfirst hsplit)
    rw [TokenRef.commentDepth, if_neg hcloses]
    exact ⟨hkind.1, Gap.exists_lines_of_isHead hhead (start_mem_itemStarts h hbegins) hscript⟩

end Clean

/-! ## What is written -/

/--
**The layout of a formatted file.** What is written between two tokens, the second of which begins a
statement or an entry of a geo block, or is the `}` of a block, is a text with the line breaks of
the style for line feeds. That text is laid out on the level of the blocks around the second token,
and it has a line break at the braces of a block that goes over several lines.
-/
theorem format_laidOut {style : Style} {out : Text} {before after : List TokenRef}
    {p x : TokenRef} (hreturns : s.ReturnsPaired) (hformat : format style s = .ok out)
    (hsplit : tokensOf s = before ++ p :: x :: after)
    (hx : x.BeginsItem (root (parse s).tree) ∨ x.closesBlock = true) :
    ∃ plain,
      out = writeTokens style (root (parse s).tree).itemStarts none (before ++ [p])
        ++ style.lineEnding.write plain ++ x.token.text
        ++ writeTokens style (root (parse s).tree).itemStarts (some x) after ∧
      '\r' ∉ plain ∧ plain.LaidOut style x.depth x.commentDepth ∧
      (p.Broken x → '\n' ∈ plain) := by
  obtain ⟨h, rfl⟩ := format_eq_ok_iff.1 hformat
  have hall : (root (parse s).tree).allTokens = (before ++ [p]) ++ x :: after := by
    rw [← List.append_cons]
    exact hsplit
  have hlast : lastOf none (before ++ [p]) = some p := by rw [lastOf_append]; rfl
  obtain ⟨hend, layout, hgap, hindent, hcomment, hmax, hbroken⟩ :=
    exists_lines h style (p.token.trailing ++ x.token.leading) hsplit hx
  have hneat := (parting_of_split h hall).neat hreturns
  rw [hlast] at hneat
  obtain ⟨plain, hwrites⟩ := layout.exists_writesAs style (Gap.isInlineBlank_sameLine hgap) hmax
    (hneat.mono hend)
  refine ⟨plain, ?_, hwrites.noReturn, ?_, fun hp => ?_⟩
  · rw [NodeRef.format, hall, writeTokens_append, hlast, writeTokens_cons, ← hwrites.text_eq,
      gapBefore, hgap]
    simp only [List.append_assoc]
    rfl
  · rw [← hindent, ← hcomment]
    exact hwrites.laidOut
  · refine Decidable.byContradiction fun hfeed => ?_
    have hmem := layout.newline_mem_writeFrom (hbroken hp) hmax style 0 true
      (triviaBefore (some p) ++ x.token.leading)
    rw [hwrites.text_eq, LineEnding.write_of_notMem hfeed] at hmem
    exact hfeed hmem

/-- The `}` of a block that goes over several lines, with a comment before it. -/
theorem format_laidOut_block :
    Text.ReturnsPaired "a\x7bb;# c\n\x7d".toList ∧
      format {} "a\x7bb;# c\n\x7d".toList = .ok "a \x7b\n    b; # c\n\x7d".toList ∧
      ∃ (before : List TokenRef) (p x : TokenRef) (after : List TokenRef) (plain : Text),
        tokensOf "a\x7bb;# c\n\x7d".toList = before ++ p :: x :: after ∧
        x.closesBlock = true ∧ plain.LaidOut {} x.depth x.commentDepth ∧ '\n' ∈ plain := by
  have hreturns : Text.ReturnsPaired "a\x7bb;# c\n\x7d".toList := by decide
  have hformat : format {} "a\x7bb;# c\n\x7d".toList
      = .ok "a \x7b\n    b; # c\n\x7d".toList :=
    format_eq_ok_iff.2 ⟨by decide +kernel, by decide +kernel⟩
  have hcloses : (tokensOf "a\x7bb;# c\n\x7d".toList).map
        (fun t => decide (t.closesBlock = true ∧ '\n' ∈ t.parent.trimmedText))
      = [false, false, false] ++ [false, true, false] := by decide +kernel
  obtain ⟨before, rest, htokens, -, hrest⟩ := List.map_eq_append_iff.1 hcloses
  obtain ⟨p, more, rfl, -, hmore⟩ := List.map_eq_cons_iff.1 hrest
  obtain ⟨x, after, rfl, hx, -⟩ := List.map_eq_cons_iff.1 hmore
  have hx := of_decide_eq_true hx
  obtain ⟨plain, -, -, hlaid, hbroken⟩ := format_laidOut hreturns hformat htokens (.inr hx.1)
  exact ⟨hreturns, hformat, before, p, x, after, plain, htokens, hx.1, hlaid, hbroken (.inl hx)⟩

end NginxConf
