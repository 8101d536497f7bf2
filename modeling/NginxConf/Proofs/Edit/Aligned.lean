import NginxConf.Proofs.Edit.Reports
import NginxConf.Proofs.Parse.Aligned
import NginxConf.Proofs.Parse.Origin

/-!
# Reports after an edit begin and end where tokens do

What comes of parsing again has its reports in order, each of them aligned to the tokens of the new
tree (`diagnostics_wellPlaced`). Where a block is taken alone, this is argued from where reports and
tokens are, and not from the parse of the edited text, which need not be the same: a report before
the block is aligned to tokens before it, one found in the block alone to tokens of the block, and
one behind the block to tokens behind it, and all of these are tokens of the new tree.
-/

namespace NginxConf

/-- What stands behind a row of tokens follows it. -/
theorem Tile.join {ps qs : List PlacedToken} {start middle stop : Nat} (hps : Tile start ps middle)
    (hqs : Tile middle qs stop) : Tile start (ps ++ qs) stop := by
  induction ps generalizing start with
  | nil => exact (show start = middle from hps) ▸ hqs
  | cons p ps ih => exact ⟨hps.1, ih hps.2⟩

/-- A token with text does not end where it begins. -/
theorem PlacedToken.start_lt_stop {p : PlacedToken} (h : p.token.text ≠ []) :
    p.span.start < p.span.stop :=
  Nat.lt_add_of_pos_right (Nat.pos_of_ne_zero fun h0 => h (Text.size_eq_zero.1 h0))

namespace Taken

variable {s edited : Text} {e : Edit} {b : ClosedBlock} (h : Taken s e edited b)

/-! ## The tokens that are put together -/

/-- The tokens that are put together. -/
def tokens : List PlacedToken :=
  h.old.tokensBefore ++ h.opening :: (h.within.map (.relocate (· + b.left.span.start))
    ++ h.closing :: h.old.tokensAfter.map (.relocate e.move))

/-- The tokens stand one after the other, and the end follows them. -/
theorem tile_tokens (hlost : h.new.lost = []) :
    ∃ stop, Tile 0 (h.tokens ++ [(tokenize s).stop.relocate e.move]) stop := by
  obtain ⟨-, -, after, -, -, -, hafter⟩ := h.old.exists_lexemes
  obtain ⟨pieces, -, htext, hpieces⟩ := h.new.exists_lexemes hlost
  have hopening := h.follows_opening hpieces
  have hclosing := h.follows_closing htext hopening hafter
  have hbehind : Tile h.closing.offset (h.closing :: h.old.tokensAfter.map (.relocate e.move)) _ :=
    ⟨rfl, hclosing.tile⟩
  have hblock : Tile h.opening.offset (h.opening :: _) _ := ⟨rfl, hopening.tile.join hbehind⟩
  exact ⟨_, (h.old.tiles.1.join hblock).concat rfl⟩

/-- The tokens of the tree are those that are put together. -/
theorem leaves_tree : h.tree.leaves
    = (h.tokens ++ [(tokenize s).stop.relocate e.move]).map PlacedToken.token := by
  have hrelocate (f : Nat → Nat) (ps : List PlacedToken) :
      (ps.map (.relocate f)).map PlacedToken.token = ps.map PlacedToken.token := List.map_map
  rw [tree, Enclosed.plug, Node.leaves, h.new.surrounded_eq]
  simp only [List.flatMap_append, List.flatMap_cons, Tree.leaves_fill, Tree.leavesBefore_map,
    Tree.leavesAfter_map, Tree.flatMap_leaves_map, Tree.leaves_braces, tokens, List.map_append,
    List.map_cons, hrelocate, Enclosed.tokensBefore, Enclosed.tokensAfter, List.append_assoc,
    List.cons_append, List.map_nil, List.flatMap_nil, List.nil_append]
  rfl

/-- The end of the text is not among them. -/
theorem kind_tokens : ∀ p ∈ h.tokens, p.token.kind ≠ .endOfFile := by
  have hold : ∀ p ∈ (tokenize s).tokens, p.token.kind ≠ .endOfFile :=
    fun p hp => (tokenize_shaped hp).not_endOfFile
  have hnew : ∀ p ∈ h.within, p.token.kind ≠ .endOfFile := by
    intro p hp
    refine (tokenize_shaped (s := '{' :: (h.inside ++ ['}'])) ?_).not_endOfFile
    rw [h.new.tokens_eq, h.new.rest_tokens]
    exact List.mem_cons_of_mem _ (List.mem_append_left _ hp)
  rw [h.old.tokens_eq] at hold
  intro p hp
  rcases List.mem_append.1 hp with hp | hp
  · exact hold p (List.mem_append_left _ hp)
  rcases List.mem_cons.1 hp with rfl | hp
  · rw [opening, h.new.opening_kind]
    decide
  rcases List.mem_append.1 hp with hp | hp
  · obtain ⟨q, hq, rfl⟩ := List.mem_map.1 hp
    exact hnew q hq
  rcases List.mem_cons.1 hp with rfl | hp
  · rw [closing, h.new.closing_kind]
    decide
  · obtain ⟨q, hq, rfl⟩ := List.mem_map.1 hp
    exact hold q (by simp [hq])

theorem map_span_tree (hlost : h.new.lost = []) :
    h.tree.significantTokens.map TokenRef.span = h.tokens.map PlacedToken.span := by
  obtain ⟨stop, htile⟩ := h.tile_tokens hlost
  exact SyntaxTree.map_span_significantTokens htile h.leaves_tree h.kind_tokens
    (kind_stop_tokenize s)

/-! ## Where the reports are -/

/-- The reports about the old text, and its tokens, the block among them. -/
theorem aligned_old {d : Diagnostic} (hd : d ∈ (parse s).diagnostics) :
    Span.Aligned ((h.old.tokensBefore ++ h.old.opening ::
      (h.old.inside ++ h.old.closing :: h.old.tokensAfter)).map PlacedToken.span) d.span := by
  have haligned := (wellPlaced_parse s).aligned d hd
  rwa [map_span_significantTokens_parse, h.old.tokens_eq] at haligned

/-- The tokens up to the `}` are not empty, and end before it. -/
theorem solid_up_to_closing {p : PlacedToken}
    (hp : p ∈ h.old.tokensBefore ++ h.old.opening :: h.old.inside) :
    p.span.start < p.span.stop ∧ p.span.stop ≤ b.right.span.start := by
  have hsplit : (tokenize s).tokens = (h.old.tokensBefore ++ h.old.opening :: h.old.inside)
      ++ h.old.closing :: h.old.tokensAfter := by
    rw [h.old.tokens_eq, List.append_assoc, List.cons_append]
  have htext := pairwise_text_tokenize s
  have hstop := pairwise_tokens s
  rw [hsplit] at htext hstop
  refine ⟨PlacedToken.start_lt_stop ((List.pairwise_append.1 htext).2.2 p hp _ List.mem_cons_self), ?_⟩
  have hle := (List.pairwise_append.1 hstop).2.2 p hp _ List.mem_cons_self
  rwa [h.old.closing_span] at hle

/-- **A report before the block is aligned to tokens before it.** -/
theorem aligned_before {d : Diagnostic} (hd : d ∈ h.before) :
    Span.Aligned ((h.old.tokensBefore ++ [h.old.opening]).map PlacedToken.span) d.span := by
  rw [(Diagnostic.around?_eq_some h.around_eq).1, List.mem_filter] at hd
  obtain ⟨hd, hbefore⟩ := hd
  have hstop : d.span.stop ≤ b.left.span.stop :=
    of_decide_eq_true (Bool.and_eq_true_iff.1 hbefore).2
  have hbraces : b.left.span.stop < b.right.span.stop := by
    rw [h.old.left_span, h.old.right_span]
    simp only
    omega
  have haligned := h.aligned_old hd
  rw [List.append_cons, List.map_append] at haligned
  refine haligned.of_stop_lt (List.forall_mem_map.2 fun p hp => ?_)
  rcases List.mem_append.1 hp with hp | hp
  · have hstart := (h.old.between_braces hp).1
    have hsolid := (h.solid_up_to_closing (List.mem_append_right _ (List.mem_cons_of_mem _ hp))).1
    omega
  rcases List.mem_cons.1 hp with rfl | hp
  · rw [h.old.closing_span]
    omega
  · have hoffset := h.old.right_le_offset hp
    have hstart := p.offset_le_start
    have hle := p.start_le_stop
    omega

/-- **A report behind the block is aligned to tokens behind it.** -/
theorem aligned_after {d : Diagnostic} (hd : d ∈ h.after) :
    Span.Aligned ((h.old.closing :: h.old.tokensAfter).map PlacedToken.span) d.span := by
  obtain ⟨-, hafter, hcases⟩ := Diagnostic.around?_eq_some h.around_eq
  rw [hafter, List.mem_filter] at hd
  obtain ⟨hd, hbehind⟩ := hd
  simp only [Diagnostic.isAfter, Bool.and_eq_true, Bool.not_eq_true'] at hbehind
  have hinside : b.left.span.stop ≤ b.right.span.start := by
    rw [h.old.left_span, h.old.right_span]
    exact Nat.le_add_right _ _
  -- it begins at the `}` or behind it, and it does not lie between the braces
  have hstart : b.right.span.start ≤ d.span.start := by
    rcases hcases d hd with hin | hstop | hstart
    · exact absurd (hbehind.1.symm.trans hin) Bool.false_ne_true
    · exact absurd hstop (of_decide_eq_false hbehind.2)
    · exact hstart
  have hstop : b.right.span.start < d.span.stop := by
    refine Nat.lt_of_not_le fun hle => ?_
    have hin : b.interior.contains d.span = true :=
      Span.contains_iff.2 ⟨Nat.le_trans hinside hstart, hle⟩
    exact Bool.false_ne_true (hbehind.1.symm.trans hin)
  have haligned := h.aligned_old hd
  rw [← List.cons_append, ← List.append_assoc, List.map_append] at haligned
  refine haligned.of_start_gt (List.forall_mem_map.2 fun p hp => ?_)
  have hsolid := h.solid_up_to_closing hp
  omega

/-- **What is found in the block alone is aligned to its tokens.** -/
theorem aligned_within {i : Issue PlacedToken} (hi : i ∈ h.new.issues) :
    Span.Aligned ((h.new.opening :: h.within).map PlacedToken.span) i.place.span := by
  have hruns : Runs h.new.room [] [] (Rule.items b.shape) h.new.opening h.new.rest
      ((Rule.items b.shape).run h.new.room h.new.opening h.new.rest) :=
    Rule.runs_items b.shape h.new.opening h.new.rest
  have hread : h.within = ((Rule.items b.shape).run h.new.room h.new.opening h.new.rest).read := rfl
  have htokens := h.new.tokens_eq
  have hstops := pairwise_tokens ('{' :: (h.inside ++ ['}']))
  have hordered := (Machine.ordered_tokenize ('{' :: (h.inside ++ ['}']))).stops
  rw [htokens] at hstops hordered
  have hle := Machine.Ordered.start_le_stop hruns
    ⟨(List.pairwise_cons.1 hordered).2, by simp⟩ i hi
  rw [h.new.rest_tokens, ← List.cons_append] at hstops
  refine Place.Among.aligned ?_ (List.pairwise_append.1 hstops).1 hle
  exact (hruns.place_among i hi).mono (List.subset_cons_self _ _) (List.Subset.refl _)

/-! ## The reports that are put together -/

/-- Where the tokens of the block alone are put, and those behind the block. -/
theorem map_span_tokens (hlost : h.new.lost = []) : h.tokens.map PlacedToken.span
    = h.old.tokensBefore.map PlacedToken.span
      ++ ((h.new.opening :: h.within).map PlacedToken.span).map (·.shift b.left.span.start)
      ++ ((h.old.closing :: h.old.tokensAfter).map PlacedToken.span).map e.moveSpan := by
  have hopening : h.opening.span = h.new.opening.span.shift b.left.span.start := h.span_left.2.2
  have hclosing := (h.closing_span hlost).1
  rw [← h.old.closing_span] at hclosing
  have hwithin : (h.within.map (PlacedToken.relocate (· + b.left.span.start))).map PlacedToken.span
      = (h.within.map PlacedToken.span).map (·.shift b.left.span.start) := by
    rw [List.map_map, List.map_map]
    exact List.map_congr_left fun p hp => (h.span_within hlost (List.mem_map_of_mem hp)).1
  have hafter : (h.old.tokensAfter.map (PlacedToken.relocate e.move)).map PlacedToken.span
      = (h.old.tokensAfter.map PlacedToken.span).map e.moveSpan := by
    rw [List.map_map, List.map_map]
    exact List.map_congr_left fun p hp => (h.span_after hlost (List.mem_map_of_mem hp)).1
  rw [tokens, List.map_append, List.map_cons, List.map_append, List.map_cons, hopening, hwithin,
    hclosing, hafter, List.append_assoc]
  rfl

/-- **The reports that are put together are aligned to the tokens that are.** -/
theorem aligned_diagnostics (hlost : h.new.lost = []) : ∀ d ∈ h.diagnostics,
    Span.Aligned (h.tokens.map PlacedToken.span) d.span := by
  intro d hd
  rw [diagnostics, (Diagnostic.sort_perm _).mem_iff, List.mem_append, List.mem_append] at hd
  rw [h.map_span_tokens hlost]
  rcases hd with (hd | hd) | hd
  · -- the `{` is a token of both texts
    have hopening : h.new.opening.span.shift b.left.span.start = h.old.opening.span :=
      (h.span_left.2.2.symm.trans h.span_left.2.1).trans h.span_left.1.symm
    have haligned := (h.aligned_before hd).append []
      ((h.within.map PlacedToken.span).map (·.shift b.left.span.start)
        ++ ((h.old.closing :: h.old.tokensAfter).map PlacedToken.span).map e.moveSpan)
    simpa [hopening] using haligned
  · obtain ⟨c, hc, rfl⟩ := List.mem_map.1 hd
    rw [(Diagnostic.sort_perm _).mem_iff] at hc
    obtain ⟨i, hi, rfl⟩ := List.mem_map.1 hc
    exact ((h.aligned_within hi).map (· + b.left.span.start)).append _ _
  · obtain ⟨c, hc, rfl⟩ := List.mem_map.1 hd
    have haligned := ((h.aligned_after hc).map e.move).append
      (h.old.tokensBefore.map PlacedToken.span
        ++ ((h.new.opening :: h.within).map PlacedToken.span).map (·.shift b.left.span.start)) []
    rw [List.append_nil] at haligned
    exact haligned

/-- **What is put together has its reports well placed.** -/
theorem wellPlaced {tree : SyntaxTree} (hbuild : Builder.build edited h.tree.calls = .ok tree) :
    Parse.WellPlaced ⟨tree, h.diagnostics⟩ := by
  have hlost := h.lost_eq_nil hbuild
  rw [Builder.eq_of_build_calls (h.text_tree_of_lost hlost) hbuild]
  refine Parse.wellPlaced_of_aligned (Diagnostic.sort_sorted _) fun d hd => ?_
  rw [h.map_span_tree hlost]
  exact h.aligned_diagnostics hlost d hd

end Taken

/-! ## Parsing again -/

/-- An edit that does not fit gives no parse. -/
theorem exists_apply_of_reparse {s : Text} {e : Edit} {p : Parse}
    (h : reparse (parse s) e = .ok p) : ∃ edited, e.apply s = .ok edited := by
  rw [reparse, text_parse] at h
  cases ha : e.apply s with
  | ok edited => exact ⟨edited, rfl⟩
  | error error =>
    rw [ha] at h
    cases h

/-- **The reports about a text are well placed, and so are those that parsing again gives after an
edit.** -/
theorem diagnostics_wellPlaced : (∀ s : Text, (parse s).WellPlaced) ∧
    ∀ (s : Text) (e : Edit) (p : Parse), e.removed.start ≤ e.removed.stop →
      reparse (parse s) e = .ok p → p.WellPlaced := by
  refine ⟨wellPlaced_parse, fun s e p hle h => ?_⟩
  obtain ⟨edited, ha⟩ := exists_apply_of_reparse h
  rcases reparse_cases hle ha h with rfl | ⟨b, -, taken, tree, hbuild, rfl⟩
  · exact wellPlaced_parse edited
  · exact taken.wellPlaced hbuild

/-- A second word in a block, where a `;` is missing. -/
theorem diagnostics_wellPlaced_missing_semicolon :
    reparse (parse ['a', ' ', '{', 'b', '}']) ⟨⟨4, 4⟩, [' ', 'c']⟩
        = .ok (parse ['a', ' ', '{', 'b', ' ', 'c', '}']) ∧
      (parse ['a', ' ', '{', 'b', ' ', 'c', '}']).WellPlaced := by
  have hreparse : reparse (parse ['a', ' ', '{', 'b', '}']) ⟨⟨4, 4⟩, [' ', 'c']⟩
      = .ok (parse ['a', ' ', '{', 'b', ' ', 'c', '}']) := by
    have hsome : (reparse (parse ['a', ' ', '{', 'b', '}']) ⟨⟨4, 4⟩, [' ', 'c']⟩).toOption
        = some (parse ['a', ' ', '{', 'b', ' ', 'c', '}']) := by decide +kernel
    cases h : reparse (parse ['a', ' ', '{', 'b', '}']) ⟨⟨4, 4⟩, [' ', 'c']⟩ with
    | error => rw [h] at hsome; cases hsome
    | ok p => rw [h] at hsome; exact congrArg _ (Option.some.inj hsome)
  exact ⟨hreparse, diagnostics_wellPlaced.2 _ _ _ (by decide) hreparse⟩

end NginxConf
