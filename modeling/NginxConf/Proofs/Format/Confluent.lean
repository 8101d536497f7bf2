import NginxConf.Proofs.Format.Choice

/-!
# Formatting a formatted file

A formatted file is formatted as the file would have been, if the second style does not keep more blank
lines than the first one (`format_format`). The tokens of the two files correspond. At each of them the
gap that the first pass has written is written in the way in which the second style would have written
the gap of the file (`gapBefore_format`), and then it does not matter that it has been written before
(`Gap.write_pieces`). From this a whole file follows by induction along its tokens
(`writeTokens_format`).
-/

namespace NginxConf

open Trivia NodeRef

variable {c₁ c₂ : Style}

/-- Comments and line breaks are seen again in a gap that is not written as lines. -/
theorem Gap.Restyled.hasBreak_pieces {gap gap' : Gap} {old : List Trivia} (h : Restyled c₁ gap gap')
    (hlines : gap' ∈ [.nothing, Gap.verbatim]) (hnothing : gap' = .nothing → hasBreak old = false)
    (opened : Bool) : hasBreak (gap.pieces c₁ opened old) = hasBreak old := by
  cases h with
  | lines => simp at hlines
  | nothing => exact (hnothing rfl).symm
  | verbatim => exact hasBreak_verbatimPieces c₁ old

namespace NodeRef

/-- Nothing is written before the first gap, which is fresh for that. -/
theorem fresh_gapBefore {style : Style} {starts : List Nat} {previous : Option TokenRef} {t : TokenRef}
    (layout : Lines) (hgap : (gapBefore style starts previous t).1 = .lines layout)
    (hnone : previous.isSome = false) : layout.Fresh := by
  cases previous with
  | none =>
    cases hgap
    exact ⟨rfl, rfl, rfl⟩
  | some p => cases hnone

end NodeRef

section Clean

variable {s : Text} (h : (parse s).hasErrors = false) (hreturns : s.ReturnsPaired)
  (hkeep : c₂.maxBreaks ≤ c₁.maxBreaks)

include h hreturns hkeep

/-- **Where the first pass has written a gap, the second style writes it in the way in which it would
have written the gap of the file.** -/
theorem gapBefore_format {previous previous' : Option TokenRef} {t t' : TokenRef}
    (ht : t ∈ (root (parse s).tree).allTokens)
    (ht' : t' ∈ (root (parse ((root (parse s).tree).format c₁)).tree).allTokens)
    (hprevious : ∀ p ∈ previous, p ∈ (root (parse s).tree).allTokens)
    (hprevious' : ∀ p ∈ previous', p ∈ (root (parse ((root (parse s).tree).format c₁)).tree).allTokens)
    (htt : t.bare = t'.bare) (hpp : previous.map TokenRef.bare = previous'.map TokenRef.bare)
    (hold : triviaBefore previous' ++ t'.token.leading
      = (gapBefore c₁ (root (parse s).tree).itemStarts previous t).1.pieces c₁ previous.isSome
          (triviaBefore previous ++ t.token.leading)) :
    (gapBefore c₂ (root (parse ((root (parse s).tree).format c₁)).tree).itemStarts previous' t').1
      = (gapBefore c₂ (root (parse s).tree).itemStarts previous t).1 := by
  have hbare := bare_root_format h hreturns c₁
  have hclean := hasErrors_format h (commentsEnd_written h hreturns c₁)
  -- which blocks go over several lines is the same
  have hspans : ∀ {u u' : TokenRef}, u ∈ (root (parse s).tree).allTokens →
      u' ∈ (root (parse ((root (parse s).tree).format c₁)).tree).allTokens → u.bare = u'.bare →
      u.parent.kind.isBlock = true → u'.parent.spansLines = u.parent.spansLines :=
    fun hu hu' huu => spansLines_of_bare h hreturns (parent_mem_descendants hu).1
      (parent_mem_descendants hu').1 (TokenRef.parent_of_bare huu)
  have hrestyled := restyled_gapBefore hkeep (root (parse s).tree).itemStarts previous t
  cases previous with
  | none =>
    obtain rfl : previous' = none := Option.map_eq_none_iff.1 hpp.symm
    rw [gapBefore, gapBefore, Gap.first, Gap.first, TokenRef.kind_of_bare htt]
  | some p =>
    obtain ⟨p', rfl, hp⟩ := Option.map_eq_some_iff.1 hpp.symm
    have hpmem := hprevious p rfl
    have hpmem' := hprevious' p' rfl
    refine Gap.between_congr hp.symm htt (contains_itemStarts h hbare hclean ht ht' htt)
      (hspans ht ht' htt) (hspans hpmem hpmem' hp.symm) fun hlines => ?_
    rw [show p'.token.trailing ++ t'.token.leading = _ from hold]
    refine hrestyled.hasBreak_pieces hlines (fun hnothing => ?_) true
    rcases Gap.between_cases c₂ (root (parse s).tree).itemStarts
      (p.token.trailing ++ t.token.leading) p t with ⟨layout, hgap, -⟩ | ⟨-, -, -, hbreak⟩ | ⟨hgap, -⟩
    · cases hgap.symm.trans hnothing
    · exact hbreak
    · cases hgap.symm.trans hnothing

/-- **The rest of a formatted file is written as the rest of the file.** -/
theorem writeTokens_format (us us' ts ts' : List TokenRef)
    (hall : (root (parse s).tree).allTokens = ts ++ us)
    (hall' : (root (parse ((root (parse s).tree).format c₁)).tree).allTokens = ts' ++ us')
    (hbare : us.map TokenRef.bare = us'.map TokenRef.bare)
    (hlast : (lastOf none ts).map TokenRef.bare = (lastOf none ts').map TokenRef.bare)
    (hrows : oldRows (lastOf none ts') us'
      = writtenRows c₁ (root (parse s).tree).itemStarts (lastOf none ts) us) :
    writeTokens c₂ (root (parse ((root (parse s).tree).format c₁)).tree).itemStarts
        (lastOf none ts') us'
      = writeTokens c₂ (root (parse s).tree).itemStarts (lastOf none ts) us := by
  induction us generalizing ts ts' us' with
  | nil =>
    obtain rfl : us' = [] := List.map_eq_nil_iff.1 hbare.symm
    rfl
  | cons t us ih =>
    obtain ⟨t', us', rfl, ht, hus⟩ := List.map_eq_cons_iff.1 hbare.symm
    rw [oldRows_cons, writtenRows_cons] at hrows
    obtain ⟨hrow, hrest⟩ := List.cons.inj hrows
    have hold := (Row.mk.inj hrow).1
    have hlastOf : ∀ {ts us : List TokenRef}, ∀ p ∈ lastOf none ts, p ∈ ts ++ us :=
      fun p hp => List.mem_append_left _ (mem_of_mem_lastOf hp)
    have hgap := gapBefore_format h hreturns hkeep (by rw [hall]; simp) (by rw [hall']; simp)
      (hall ▸ hlastOf) (hall' ▸ hlastOf) ht.symm hlast hold
    have hopened : (lastOf none ts').isSome = (lastOf none ts).isSome := by
      simpa using (congrArg Option.isSome hlast).symm
    have hmore := ih us' (ts ++ [t]) (ts' ++ [t']) (by rw [hall]; simp) (by rw [hall']; simp) hus.symm
      (by simp [lastOf_append, ht]) (by rw [lastOf_append, lastOf_append]; exact hrest)
    rw [lastOf_append, lastOf_append] at hmore
    rw [writeTokens_cons, writeTokens_cons, hgap, hold, hopened, TokenRef.text_of_bare ht]
    rw [Gap.write_pieces (restyled_gapBefore hkeep _ _ _) hkeep fresh_gapBefore
      ((parting_of_split h hall).neat hreturns)]
    congr 1

end Clean

/--
**A formatted file is formatted as the file is**, in any style that does not keep more blank lines,
if each carriage return of the file is the first half of a line end.
-/
theorem format_format {s out : Text} (hreturns : s.ReturnsPaired)
    (hkeep : c₂.keepBlankLines ≤ c₁.keepBlankLines) (hformat : format c₁ s = .ok out) :
    ∃ again, format c₂ out = .ok again ∧ format c₂ s = .ok again := by
  obtain ⟨h, rfl⟩ := format_eq_ok_iff.1 hformat
  have hclean := hasErrors_format h (commentsEnd_written h hreturns c₁)
  refine ⟨_, format_eq_ok_iff.2 ⟨hclean, ?_⟩, format_eq_ok_iff.2 ⟨h, rfl⟩⟩
  refine writeTokens_format h hreturns (Nat.succ_le_succ hkeep) _ _ [] [] rfl rfl
    (map_bare_allTokens (bare_root_format h hreturns c₁)) rfl ?_
  rw [lastOf_nil, oldRows_allTokens]
  exact rowsOf_format_eq h hreturns c₁

/-- Blank lines that are kept at first, and dropped in the second style. -/
theorem format_format_block :
    Text.ReturnsPaired "a\x7b\r\n\r\n\r\nb;# c\r\n\x7d".toList ∧
      format { useTabs := true, keepBlankLines := 1 } "a\x7b\r\n\r\n\r\nb;# c\r\n\x7d".toList
        = .ok "a \x7b\n\n\tb; # c\n\x7d".toList ∧
      ∃ again,
        format { keepBlankLines := 0, lineEnding := .crlf } "a \x7b\n\n\tb; # c\n\x7d".toList
          = .ok again ∧
        format { keepBlankLines := 0, lineEnding := .crlf }
          "a\x7b\r\n\r\n\r\nb;# c\r\n\x7d".toList = .ok again := by
  have hreturns : Text.ReturnsPaired "a\x7b\r\n\r\n\r\nb;# c\r\n\x7d".toList := by decide
  have hformat : format { useTabs := true, keepBlankLines := 1 }
      "a\x7b\r\n\r\n\r\nb;# c\r\n\x7d".toList = .ok "a \x7b\n\n\tb; # c\n\x7d".toList :=
    format_eq_ok_iff.2 ⟨by decide +kernel, by decide +kernel⟩
  exact ⟨hreturns, hformat, format_format hreturns (Nat.zero_le 1) hformat⟩

end NginxConf
