import NginxConf.Proofs.Arena.Capacity
import NginxConf.Proofs.Edit.Alone
import NginxConf.Proofs.Edit.Enclosed

/-!
# What comes of parsing again

Parsing again after an edit gives a tree of the edited text, or says why the edit does not fit, with
one exception: the block is taken alone although a comment reaches over the place of its old `}`,
and the comment is lost (`Edit.Strands`). The tree can be stored if its arena fits
(`Parse.arena_of_reparseBlock?`).
-/

namespace NginxConf

/-! ## Which blocks are taken alone -/

/-- The text of the block with an edit in it. -/
def ClosedBlock.editedText (b : ClosedBlock) (e : Edit) (edited : Text) : Text :=
  edited.slice b.left.span.start (e.move b.right.span.stop)

/-- The block is parsed alone when its text is this one: no report crosses its braces, and the text
is a closed block without a malformed token. -/
structure ClosedBlock.TakenAlone (b : ClosedBlock) (reports : List Diagnostic) (s : Text) :
    Prop where
  around : (Diagnostic.around? b.interior reports).isSome
  block : ∃ block issues, parseBlock? b.depth b.shape (tokenize s).tokens = some (block, issues) ∧
    ∀ i ∈ issues, i.problem.isLexical = false

/-- What is found by the lexer stays so when reports are put in order. -/
theorem any_sort_lexer (issues : List (Issue PlacedToken)) :
    (Diagnostic.sort (issues.map Issue.diagnostic)).any (·.origin == .lexer)
      = issues.any (·.problem.isLexical) := by
  rw [(Diagnostic.sort_perm _).any_eq, List.any_map]
  congr 1
  funext i
  simp only [Function.comp, Issue.diagnostic]
  cases i.problem.isLexical <;> rfl

namespace Parse

variable (old : Parse) (e : Edit) (edited : Text) (b : ClosedBlock)

/-- A block that cannot be taken alone gives no answer. -/
theorem reparseBlock?_of_not
    (h : ¬ b.TakenAlone old.diagnostics (b.editedText e edited)) :
    old.reparseBlock? e edited b = none := by
  cases hround : Diagnostic.around? b.interior old.diagnostics with
  | none => simp only [reparseBlock?, hround, bind, Option.bind]
  | some reports =>
    cases hblock : parseBlock? b.depth b.shape (tokenize (b.editedText e edited)).tokens with
    | none =>
      rw [ClosedBlock.editedText] at hblock
      simp only [reparseBlock?, hround, hblock, bind, Option.bind]
    | some found =>
      have hany : (Diagnostic.sort (found.2.map Issue.diagnostic)).any (·.origin == .lexer)
          = true := by
        rw [any_sort_lexer]
        refine Classical.byContradiction fun hnone => h ⟨by rw [hround]; rfl, _, _, hblock, ?_⟩
        simpa using hnone
      rw [ClosedBlock.editedText] at hblock
      simp only [reparseBlock?, hround, hblock, hany, bind, Option.bind]
      rfl

/-- **A block that can be taken alone is put in the place of the old one.** -/
theorem exists_reparseBlock? (h : b.TakenAlone old.diagnostics (b.editedText e edited)) :
    ∃ before after block issues,
      Diagnostic.around? b.interior old.diagnostics = some (before, after) ∧
      parseBlock? b.depth b.shape (tokenize (b.editedText e edited)).tokens
        = some (block, issues) ∧
      (∀ i ∈ issues, i.problem.isLexical = false) ∧
      old.reparseBlock? e edited b = some (do
        let tree ← Builder.build edited (old.tree.callsWith b.node
          ((block.map PlacedToken.token).surround b.left.token.leading b.right.token.trailing))
        return ⟨tree, Diagnostic.sort (before
          ++ (Diagnostic.sort (issues.map Issue.diagnostic)).map
            (fun d => d.withSpan (d.span.shift b.left.span.start))
          ++ after.map (fun d => d.withSpan (e.moveSpan d.span)))⟩) := by
  obtain ⟨around, block, issues, hblock, hlexical⟩ := h
  obtain ⟨⟨before, after⟩, hround⟩ := Option.isSome_iff_exists.1 around
  refine ⟨before, after, block, issues, hround, hblock, hlexical, ?_⟩
  have hany : (Diagnostic.sort (issues.map Issue.diagnostic)).any (·.origin == .lexer) = false := by
    rw [any_sort_lexer, List.any_eq_false]
    intro i hi
    simp [hlexical i hi]
  rw [ClosedBlock.editedText] at hblock
  simp only [reparseBlock?, hround, hblock, hany, bind, Option.bind]
  rfl

/-- **What the builder of an arena makes of a block that is put in.** It stores the tree that is
built if the arena fits, and only then; where no tree is built, it refuses the calls as well. -/
theorem arena_of_reparseBlock? {result : Except BuildError Parse}
    (h : old.reparseBlock? e edited b = some result) :
    ∃ block issues, parseBlock? b.depth b.shape (tokenize (b.editedText e edited)).tokens
        = some (block, issues) ∧
      let calls := old.tree.callsWith b.node
        ((block.map PlacedToken.token).surround b.left.token.leading b.right.token.trailing)
      (∀ p, result = .ok p →
        (Arena.build edited calls = .ok (.ofTree p.tree) ↔ (Arena.ofTree p.tree).Fits)) ∧
      ∀ error, result = .error error → Arena.build edited calls = .error (.refused error) ∨
        ∃ full, (∀ r, full ≠ .refused r) ∧ Arena.build edited calls = .error full := by
  have htaken : b.TakenAlone old.diagnostics (b.editedText e edited) := by
    refine Classical.byContradiction fun hnot => ?_
    rw [old.reparseBlock?_of_not e edited b hnot] at h
    cases h
  obtain ⟨before, after, block, issues, -, hblock, -, hreparse⟩ :=
    old.exists_reparseBlock? e edited b htaken
  refine ⟨block, issues, hblock, ?_⟩
  rw [hreparse] at h
  cases Option.some.inj h
  cases hbuild : Builder.build edited (old.tree.callsWith b.node
    ((block.map PlacedToken.token).surround b.left.token.leading b.right.token.trailing)) with
  | ok tree =>
    refine ⟨?_, nofun⟩
    rintro _ ⟨⟩
    exact Arena.build_eq_ok_iff hbuild
  | error error =>
    refine ⟨nofun, ?_⟩
    rintro _ ⟨⟩
    exact Arena.build_eq_error hbuild

end Parse

/-! ## Where trivia is lost -/

/--
The edit leaves trivia after the brace that closes its block now, and the block is taken alone
all the same.
-/
def Edit.Strands (e : Edit) (s : Text) : Prop :=
  ∃ edited b, e.apply s = .ok edited ∧
    (NodeRef.root (parse s).tree).enclosingBlock? e.removed = some b ∧
    b.TakenAlone (parse s).diagnostics (b.editedText e edited) ∧
    (b.editedText e edited).EndsInTrivia

variable {s edited : Text} {e : Edit}

/-- A parse of a text that is complete: the tree has the text, piece by piece. -/
structure Parse.Covers (p : Parse) (s : Text) : Prop where
  text : p.text = s
  pieces : Tiled 0 (NodeRef.root p.tree).leaves s

theorem covers_parse (s : Text) : (parse s).Covers s :=
  ⟨text_parse s, (isFileOf_parse s).pieces⟩

/-- What is built over a text covers the text. -/
theorem covers_of_build {calls : List BuildCall} {tree : SyntaxTree} {reports : List Diagnostic}
    (h : Builder.build s calls = .ok tree) : (⟨tree, reports⟩ : Parse).Covers s := by
  obtain ⟨htext, -⟩ := Builder.build_eq_ok h
  have hpieces := (NodeRef.root tree).tiled_leaves
  rw [NodeRef.text_root, htext] at hpieces
  exact ⟨htext, hpieces⟩

/-- How a parse is made when the edit fits. -/
theorem reparse_eq (ha : e.apply s = .ok edited) : reparse (parse s) e
    = match ((NodeRef.root (parse s).tree).enclosingBlock? e.removed).bind
        ((parse s).reparseBlock? e edited) with
      | some result => result.mapError .build
      | none => .ok (parse edited) := by
  rw [reparse, text_parse, ha]
  rfl

/-- Where no block is taken alone, the whole text is parsed. -/
theorem reparse_of_not_taken (ha : e.apply s = .ok edited)
    (h : ∀ b, (NodeRef.root (parse s).tree).enclosingBlock? e.removed = some b →
      ¬ b.TakenAlone (parse s).diagnostics (b.editedText e edited)) :
    reparse (parse s) e = .ok (parse edited) := by
  have hnone : ((NodeRef.root (parse s).tree).enclosingBlock? e.removed).bind
      ((parse s).reparseBlock? e edited) = none := by
    cases hb : (NodeRef.root (parse s).tree).enclosingBlock? e.removed with
    | none => rfl
    | some b => exact (parse s).reparseBlock?_of_not e edited b (h b hb)
  rw [reparse_eq ha, hnone]

/-- A block taken alone: the block in the old text, what stands between its braces now, and the
reports around it. -/
structure Taken (s : Text) (e : Edit) (edited : Text) (b : ClosedBlock) where
  old : Enclosed s b
  inside : Text
  new : Alone b.depth b.shape inside
  before : List Diagnostic
  after : List Diagnostic
  edited_eq : edited = old.textBefore ++ '{' :: (inside ++ '}' :: old.textAfter)
  size_inside : Text.size inside + e.removed.size = Text.size old.textInside + Text.size e.inserted
  size_removed : e.removed.size ≤ Text.size old.textInside
  around_eq : Diagnostic.around? b.interior (parse s).diagnostics = some (before, after)
  not_lexical : ∀ i ∈ new.issues, i.problem.isLexical = false

namespace Taken

variable {b : ClosedBlock} (h : Taken s e edited b)

/-- The tree that is put together. -/
def tree : SyntaxTree :=
  h.old.plug (h.new.surrounded h.old.opening.token.leading h.old.closing.token.trailing)

/-- The reports that are put together. -/
def diagnostics : List Diagnostic :=
  Diagnostic.sort (h.before
    ++ (Diagnostic.sort (h.new.issues.map Issue.diagnostic)).map
      (fun d => d.withSpan (d.span.shift b.left.span.start))
    ++ h.after.map (fun d => d.withSpan (e.moveSpan d.span)))

/-- The text of the block is its braces and what stands between them. -/
theorem editedText_eq : b.editedText e edited = '{' :: (h.inside ++ ['}']) := by
  have hslice := h.old.slice_eq h.size_inside h.size_removed
  rwa [← h.edited_eq] at hslice

/-- The tree has the edited text, but for the trivia that is lost. -/
theorem text_tree : h.tree.text = h.old.textBefore ++ h.new.core ++ h.old.textAfter := by
  rw [tree, h.old.text_plug, h.new.text_surrounded]
  simp [Enclosed.textBefore, Enclosed.textAfter]

theorem edited_eq_core :
    edited = h.old.textBefore ++ (h.new.core ++ Trivia.textOf h.new.lost) ++ h.old.textAfter := by
  rw [← h.new.text_eq]
  exact h.edited_eq.trans (by simp)

/-- Where no trivia is lost, the tree has the edited text. -/
theorem text_tree_of_lost (hlost : h.new.lost = []) : h.tree.text = edited := by
  rw [h.text_tree]
  refine Eq.trans ?_ h.edited_eq_core.symm
  simp [hlost, Trivia.textOf]

/-- Where trivia is lost, the tree is too short to be one of the edited text. -/
theorem lost_eq_nil {tree : SyntaxTree} (hbuild : Builder.build edited h.tree.calls = .ok tree) :
    h.new.lost = [] := by
  refine Classical.byContradiction fun hlost => ?_
  have hpos := h.new.sizeOf_lost_pos hlost
  have hshort := Builder.size_of_build_calls hbuild
  have hshort := (congrArg Text.size h.edited_eq_core).symm.trans hshort
  rw [h.text_tree] at hshort
  simp only [Text.size_append, Trivia.size_textOf] at hshort
  omega

end Taken

/-- **Where a block is taken alone, the parse is what has been put together, if it can be built.** -/
theorem exists_taken {b : ClosedBlock} (hle : e.removed.start ≤ e.removed.stop)
    (ha : e.apply s = .ok edited)
    (hb : (NodeRef.root (parse s).tree).enclosingBlock? e.removed = some b)
    (ht : b.TakenAlone (parse s).diagnostics (b.editedText e edited)) :
    ∃ h : Taken s e edited b, reparse (parse s) e
      = match Builder.build edited h.tree.calls with
        | .ok tree => .ok ⟨tree, h.diagnostics⟩
        | .error error => .error (.build error) := by
  obtain ⟨before, after, block, issues, hround, hblock, hlexical, htaken⟩ :=
    (parse s).exists_reparseBlock? e edited b ht
  obtain ⟨⟨old⟩, hcontains⟩ := nonempty_enclosed hb
  obtain ⟨inside, hedited, hinside, hremoved⟩ := old.apply_eq_ok hcontains hle ha
  have hslice : b.editedText e edited = '{' :: (inside ++ ['}']) := by
    rw [ClosedBlock.editedText, hedited]
    exact old.slice_eq hinside hremoved
  rw [hslice] at hblock
  obtain ⟨new, rfl, rfl⟩ := Alone.exists_of_parseBlock? hblock
  refine ⟨⟨old, inside, new, before, after, hedited, hinside, hremoved, hround, hlexical⟩, ?_⟩
  rw [reparse_eq ha, hb, Option.bind, htaken, old.callsWith_eq, old.left_token, old.right_token]
  cases hbuild : Builder.build edited
    (old.plug (new.surrounded old.opening.token.leading old.closing.token.trailing)).calls <;>
  · simp only [Alone.surrounded] at hbuild
    simp only [Taken.tree, Alone.surrounded, hbuild]
    rfl

/-- A parse again is that of the edited text, or it is put together around a block taken alone. -/
theorem reparse_cases {p : Parse} (hle : e.removed.start ≤ e.removed.stop)
    (ha : e.apply s = .ok edited) (h : reparse (parse s) e = .ok p) : p = parse edited ∨
      ∃ b, (NodeRef.root (parse s).tree).enclosingBlock? e.removed = some b ∧
        ∃ (taken : Taken s e edited b) (tree : SyntaxTree),
          Builder.build edited taken.tree.calls = .ok tree ∧ p = ⟨tree, taken.diagnostics⟩ := by
  by_cases ht : ∃ b, (NodeRef.root (parse s).tree).enclosingBlock? e.removed = some b ∧
      b.TakenAlone (parse s).diagnostics (b.editedText e edited)
  · obtain ⟨b, hb, ht⟩ := ht
    obtain ⟨taken, hreparse⟩ := exists_taken hle ha hb ht
    rw [hreparse] at h
    split at h
    · next tree hbuild => exact .inr ⟨b, hb, taken, tree, hbuild, (Except.ok.inj h).symm⟩
    · cases h
  · rw [reparse_of_not_taken ha fun b hb hnot => ht ⟨b, hb, hnot⟩] at h
    exact .inl (Except.ok.inj h).symm

/-- **An edit that leaves trivia after the brace gives no tree, and any other one does.** -/
theorem reparse_of_taken {b : ClosedBlock} (hle : e.removed.start ≤ e.removed.stop)
    (hsize : Text.size edited < Overflow.offsetBound) (ha : e.apply s = .ok edited)
    (hb : (NodeRef.root (parse s).tree).enclosingBlock? e.removed = some b)
    (ht : b.TakenAlone (parse s).diagnostics (b.editedText e edited)) :
    ((b.editedText e edited).EndsInTrivia → ∃ error, reparse (parse s) e = .error (.build error)) ∧
    (¬ (b.editedText e edited).EndsInTrivia →
      ∃ p, reparse (parse s) e = .ok p ∧ p.Covers edited) := by
  obtain ⟨h, hreparse⟩ := exists_taken hle ha hb ht
  rw [h.editedText_eq, h.new.endsInTrivia_iff, hreparse]
  constructor
  · intro hlost
    cases hbuild : Builder.build edited h.tree.calls with
    | error error => exact ⟨error, rfl⟩
    | ok tree => exact absurd (h.lost_eq_nil hbuild) hlost
  · intro hnone
    have hlost : h.new.lost = [] := Classical.byContradiction hnone
    have hbuild := Builder.build_calls_of_text (h.text_tree_of_lost hlost) hsize
    rw [hbuild]
    exact ⟨_, rfl, covers_of_build hbuild⟩

/-- **What comes of parsing again after an edit.** -/
theorem reparse_outcome (s : Text) (e : Edit) (hle : e.removed.start ≤ e.removed.stop)
    (hsize : Text.size s - e.removed.size + Text.size e.inserted < Overflow.offsetBound) :
    (Text.size s < e.removed.stop →
      reparse (parse s) e = .error (.edit (.outOfBounds e.removed (Text.size s)))) ∧
    (e.removed.stop ≤ Text.size s →
      ¬ (s.isBoundary e.removed.start = true ∧ s.isBoundary e.removed.stop = true) →
      reparse (parse s) e = .error (.edit (.notABoundary
        (if s.isBoundary e.removed.start then e.removed.stop else e.removed.start)))) ∧
    (e.removed.stop ≤ Text.size s →
      s.isBoundary e.removed.start = true → s.isBoundary e.removed.stop = true →
      ∃ before removed after, s = before ++ removed ++ after ∧
        Text.size before = e.removed.start ∧
        e.removed.start + Text.size removed = e.removed.stop ∧
        (e.Strands s → ∃ error, reparse (parse s) e = .error (.build error)) ∧
        (¬ e.Strands s → ∃ p, reparse (parse s) e = .ok p ∧
          p.Covers (before ++ e.inserted ++ after))) := by
  refine ⟨fun h => ?_, fun h hb => ?_, fun h hstart hstop => ?_⟩
  · rw [reparse, text_parse, Edit.apply_outOfBounds h]
    rfl
  · rw [reparse, text_parse, Edit.apply_notABoundary h hb]
    rfl
  · obtain ⟨edited, ha⟩ := Edit.exists_apply_eq_ok h hstart hstop
    obtain ⟨before, removed, after, hs, hbefore, hremoved, rfl⟩ := Edit.apply_eq_ok hle ha
    refine ⟨before, removed, after, hs, hbefore, hremoved, ?_⟩
    have hedited : Text.size (before ++ e.inserted ++ after) < Overflow.offsetBound := by
      rw [hs, Span.size] at hsize
      simp only [Text.size_append] at hsize ⊢
      omega
    by_cases hb : ∃ b, (NodeRef.root (parse s).tree).enclosingBlock? e.removed = some b ∧
        b.TakenAlone (parse s).diagnostics (b.editedText e (before ++ e.inserted ++ after))
    · obtain ⟨b, hb, ht⟩ := hb
      obtain ⟨hstrands, hcovers⟩ := reparse_of_taken hle hedited ha hb ht
      constructor
      · rintro ⟨edited', b', ha', hb', -, htrivia⟩
        cases ha.symm.trans ha'
        cases hb.symm.trans hb'
        exact hstrands htrivia
      · exact fun hnot => hcovers fun htrivia => hnot ⟨_, b, ha, hb, ht, htrivia⟩
    · constructor
      · rintro ⟨edited', b', ha', hb', ht', -⟩
        cases ha.symm.trans ha'
        exact absurd ⟨b', hb', ht'⟩ hb
      · intro _
        refine ⟨_, reparse_of_not_taken ha fun b hb' ht' => hb ⟨b, hb', ht'⟩, covers_parse _⟩

/-- An edit that fits, and that closes its block early. -/
theorem reparse_outcome_of_closing :
    (3 ≤ 3 ∧ Text.size ['a', ' ', '{', 'b', '}'] - 0 + 3 < Overflow.offsetBound) ∧
    ∃ before removed after, ['a', ' ', '{', 'b', '}'] = before ++ removed ++ after ∧
      Text.size before = 3 ∧ 3 + Text.size removed = 3 ∧
      (Edit.Strands ⟨⟨3, 3⟩, ['}', ' ', '#']⟩ ['a', ' ', '{', 'b', '}'] →
        ∃ error, reparse (parse ['a', ' ', '{', 'b', '}']) ⟨⟨3, 3⟩, ['}', ' ', '#']⟩
          = .error (.build error)) ∧
      (¬ Edit.Strands ⟨⟨3, 3⟩, ['}', ' ', '#']⟩ ['a', ' ', '{', 'b', '}'] →
        ∃ p, reparse (parse ['a', ' ', '{', 'b', '}']) ⟨⟨3, 3⟩, ['}', ' ', '#']⟩ = .ok p ∧
          p.Covers (before ++ ['}', ' ', '#'] ++ after)) :=
  ⟨by decide, (reparse_outcome ['a', ' ', '{', 'b', '}'] ⟨⟨3, 3⟩, ['}', ' ', '#']⟩ (by decide)
    (by decide)).2.2 (by decide) (by decide) (by decide)⟩

/-- The edit closes its block early and hides the old brace in a comment: it fits, and there is no
tree of the edited text. -/
theorem reparse_closing_comment :
    Edit.apply ⟨⟨3, 3⟩, ['}', ' ', '#']⟩ ['a', ' ', '{', 'b', '}']
      = .ok ['a', ' ', '{', '}', ' ', '#', 'b', '}'] ∧
    reparse (parse ['a', ' ', '{', 'b', '}']) ⟨⟨3, 3⟩, ['}', ' ', '#']⟩
      = .error (.build .uncoveredText) := by
  have herror : (match reparse (parse ['a', ' ', '{', 'b', '}']) ⟨⟨3, 3⟩, ['}', ' ', '#']⟩ with
      | .error error => some error
      | .ok _ => none) = some (.build .uncoveredText) := by
    decide +kernel
  refine ⟨rfl, ?_⟩
  split at herror
  · next hreparse =>
    cases herror
    exact hreparse
  · cases herror

end NginxConf
