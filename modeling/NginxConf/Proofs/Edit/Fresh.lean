import NginxConf.Proofs.Edit.Reports

/-!
# Parsing again is parsing

Where a block is taken alone and its `{` opens no script, the tree that is put together is that of
the edited text, with the same tokens and the same trivia (`Spliced.tree_eq`). So parsing again
gives what parsing from the start gives, after one edit and after any number of them
(`reparse_fresh`).
-/

namespace NginxConf

namespace Spliced

variable {s edited : Text} {e : Edit} {b : ClosedBlock} {h : Taken s e edited b} (w : Spliced h)

/-- The tokens outside of the block stay the same. -/
theorem map_hole : (w.hole.map Version.new).map PlacedToken.token
    = (⟨h.old.before, h.old.frames, h.old.after⟩ : Hole PlacedToken).map PlacedToken.token := by
  rw [← w.hole_eq, Hole.map_map, Hole.map_map]
  refine w.hole.map_congr (fun v hv => ?_) fun v hv => ?_
  · rw [w.leavesBefore_eq] at hv
    obtain ⟨p, -, rfl⟩ := List.mem_map.1 hv
    rfl
  · rw [w.leavesAfter_eq] at hv
    obtain ⟨p, -, rfl⟩ := List.mem_map.1 hv
    rfl

end Spliced

namespace Taken

variable {s edited : Text} {e : Edit} {b : ClosedBlock} (h : Taken s e edited b)

/-- The tokens between the braces are those of the block alone. -/
theorem map_items : (h.itemsOutcome.trees.map (Tree.map Version.new)).map (Tree.map PlacedToken.token)
    = h.new.items.map (Tree.map PlacedToken.token) := by
  have hitems : h.new.items = h.itemsOutcome.trees.map (Tree.map Version.alone) :=
    congrArg Outcome.trees h.items_alone
  have hmap : ∀ f : Version → PlacedToken,
      (h.itemsOutcome.trees.map (Tree.map f)).map (Tree.map PlacedToken.token)
        = h.itemsOutcome.trees.map (Tree.map (PlacedToken.token ∘ f)) := by
    intro f
    rw [List.map_map]
    exact List.map_congr_left fun t _ => t.map_map PlacedToken.token f
  rw [hitems, hmap, hmap]
  refine Tree.map_map_congr fun v hv => ?_
  rw [show h.itemsOutcome.trees.flatMap Tree.leaves = h.versionsWithin from h.read_itemsOutcome]
    at hv
  obtain ⟨p, -, rfl⟩ := List.mem_map.1 hv
  rfl

/-- The block in the edited text is the block alone with the trivia of the old one around it. -/
theorem map_block : (h.block.map Version.new).map PlacedToken.token
    = h.new.surrounded h.old.opening.token.leading h.old.closing.token.trailing := by
  rw [h.new.surrounded_eq, ← h.map_items, block, Tree.braces, Tree.braces]
  simp [Tree.map, Tree.forestMap_eq, leftVersion, rightVersion, opening, closing]

end Taken

/-- **The tree of the edited text is the one that is put together.** -/
theorem Spliced.tree_eq {s edited : Text} {e : Edit} {b : ClosedBlock} {h : Taken s e edited b}
    (w : Spliced h) (hlost : h.new.lost = [])
    (hscript : opensScript (h.old.tokensBefore.map (·.token.kind)) = false) :
    (parse edited).tree = h.tree := by
  have hstop : (tokenize edited).stop.token = (tokenize s).stop.token := by
    rw [h.tokenize_edited hlost hscript]
    rfl
  rw [parse_tree, w.edited_trees, Hole.map_fill, Hole.map_fill, w.map_hole, h.map_block, hstop,
    Taken.tree, Enclosed.plug, Hole.fill, List.append_assoc, List.cons_append]
  rfl

/-! ## Edits outside of scripts -/

/-- The kinds of the tokens of a text before a block. -/
def ClosedBlock.kindsBefore (b : ClosedBlock) (s : Text) : List TokenKind :=
  ((tokenize s).tokens.takeWhile fun p => p.span.stop ≤ b.left.span.start).map (·.token.kind)

/-- If a closed block encloses the edit, the `{` of the innermost one opens no script. -/
def Edit.AvoidsScripts (e : Edit) (p : Parse) : Prop :=
  ∀ b ∈ (NodeRef.root p.tree).enclosingBlock? e.removed,
    opensScript (b.kindsBefore p.text) = false

instance (e : Edit) (p : Parse) : Decidable (e.AvoidsScripts p) :=
  inferInstanceAs (Decidable (∀ b ∈ (NodeRef.root p.tree).enclosingBlock? e.removed, _))

theorem Enclosed.kindsBefore_eq {s : Text} {b : ClosedBlock} (h : Enclosed s b) :
    b.kindsBefore s = h.tokensBefore.map (·.token.kind) := by
  have hleft : ¬ h.opening.span.stop ≤ b.left.span.start := by
    rw [h.opening_span, h.left_span]
    exact Nat.not_succ_le_self _
  rw [ClosedBlock.kindsBefore, h.tokens_eq, List.takeWhile_append_of_pos, List.takeWhile_cons_of_neg,
    List.append_nil]
  · simpa using hleft
  · exact fun p hp => decide_eq_true (h.stop_le_left hp)

/-- **Where the brace of a block opens no script, what is put together is what parsing the edited
text gives.** -/
theorem Taken.eq_parse {s edited : Text} {e : Edit} {b : ClosedBlock} (h : Taken s e edited b)
    {tree : SyntaxTree} (hbuild : Builder.build edited h.tree.calls = .ok tree)
    (hscript : opensScript (b.kindsBefore s) = false) :
    (⟨tree, h.diagnostics⟩ : Parse) = parse edited := by
  rw [h.old.kindsBefore_eq] at hscript
  have hlost := h.lost_eq_nil hbuild
  obtain ⟨w⟩ := h.nonempty_spliced hlost hscript
  rw [Builder.eq_of_build_calls (h.text_tree_of_lost hlost) hbuild, ← w.tree_eq hlost hscript, ← w.diagnostics_eq hlost]

/-- A text and a parse that come about from a text by edits that fit and avoid scripts, one after
the other, each followed by parsing again. -/
inductive Session (s : Text) : Text → Parse → Prop
  | start : Session s s (parse s)
  | edit {t edited : Text} {p p' : Parse} {e : Edit} (before : Session s t p)
    (hle : e.removed.start ≤ e.removed.stop) (fits : e.apply t = .ok edited)
    (avoids : e.AvoidsScripts p) (again : reparse p e = .ok p') : Session s edited p'

/-- **Parsing again after one edit gives what parsing from the start gives.** -/
theorem eq_parse_of_reparse {s edited : Text} {e : Edit} {p : Parse}
    (hle : e.removed.start ≤ e.removed.stop) (ha : e.apply s = .ok edited)
    (havoids : e.AvoidsScripts (parse s)) (h : reparse (parse s) e = .ok p) : p = parse edited := by
  rcases reparse_cases hle ha h with rfl | ⟨b, hb, taken, tree, hbuild, rfl⟩
  · rfl
  · have hscript := havoids b hb
    rw [text_parse] at hscript
    exact taken.eq_parse hbuild hscript

/-- **Parsing again gives what parsing from the start gives**, after an edit that avoids scripts and
after any sequence of them. -/
theorem reparse_fresh :
    (∀ (s : Text) (e : Edit) (edited : Text) (p : Parse), e.removed.start ≤ e.removed.stop →
      e.apply s = .ok edited → e.AvoidsScripts (parse s) → reparse (parse s) e = .ok p →
      p = parse edited) ∧
    ∀ (s t : Text) (p : Parse), Session s t p → p = parse t := by
  refine ⟨fun s e edited p => eq_parse_of_reparse, fun s t p h => ?_⟩
  induction h with
  | start => rfl
  | edit _ hle fits avoids again ih =>
    subst ih
    exact eq_parse_of_reparse hle fits avoids again

/-- Typing in a block, and then before it. -/
theorem reparse_fresh_of_typing : ∃ p q,
    reparse (parse ['a', ' ', '{', '}']) ⟨⟨3, 3⟩, ['b', ';']⟩ = .ok p ∧
    p = parse ['a', ' ', '{', 'b', ';', '}'] ∧
    Session ['a', ' ', '{', '}'] ['c', 'a', ' ', '{', 'b', ';', '}'] q ∧
    q = parse ['c', 'a', ' ', '{', 'b', ';', '}'] := by
  have eq_ok : ∀ {r : Except ReparseError Parse} {p : Parse}, r.toOption = some p → r = .ok p := by
    intro r p h
    cases r with
    | error => cases h
    | ok => exact congrArg _ (Option.some.inj h)
  have hfirst : reparse (parse ['a', ' ', '{', '}']) ⟨⟨3, 3⟩, ['b', ';']⟩
      = .ok (parse ['a', ' ', '{', 'b', ';', '}']) := eq_ok (by decide +kernel)
  have hsecond : reparse (parse ['a', ' ', '{', 'b', ';', '}']) ⟨⟨0, 0⟩, ['c']⟩
      = .ok (parse ['c', 'a', ' ', '{', 'b', ';', '}']) := eq_ok (by decide +kernel)
  have hinside : Edit.AvoidsScripts ⟨⟨3, 3⟩, ['b', ';']⟩ (parse ['a', ' ', '{', '}']) := by
    decide +kernel
  have hsession : Session ['a', ' ', '{', '}'] ['c', 'a', ' ', '{', 'b', ';', '}']
      (parse ['c', 'a', ' ', '{', 'b', ';', '}']) :=
    .edit (.edit .start (by decide) rfl hinside hfirst) (by decide) rfl (by decide +kernel) hsecond
  exact ⟨_, _, hfirst, reparse_fresh.1 _ _ _ _ (by decide) rfl hinside hfirst, hsession,
    reparse_fresh.2 _ _ _ hsession⟩

end NginxConf
