import NginxConf.Proofs.Edit.Apply
import NginxConf.Proofs.Parse.Lossless
import NginxConf.Proofs.SyntaxTree.Descent

/-!
# The block around an edit

The block that is taken alone when a text is edited stands in a hole of what the rule for a file
has built (`Enclosed`). With it the tokens of the text, and the text itself, fall apart into what is
before the block, between its braces and after it (`Enclosed.tokens_eq`, `Enclosed.text_eq`), and
an edit between the braces changes nothing outside of them (`Enclosed.apply_eq_ok`).
-/

namespace NginxConf

/-- A closed block of the tree of a text, found where the rule for a file has built it. -/
structure Enclosed (s : Text) (b : ClosedBlock) where
  before : List (Tree PlacedToken)
  frames : List (Frame PlacedToken)
  after : List (Tree PlacedToken)
  opening : PlacedToken
  items : List (Tree PlacedToken)
  closing : PlacedToken
  trees_eq : (fileOutcome s).trees
    = before ++ Tree.fill frames (.braces b.shape opening items closing) :: after
  opening_kind : opening.token.kind = .leftBrace
  closing_kind : closing.token.kind = .rightBrace
  left_token : b.left.token = opening.token
  left_start : b.left.start = Text.size ((before.flatMap Tree.leaves ++ Tree.leavesBefore frames).flatMap
    (·.token.fullText))
  right_token : b.right.token = closing.token
  right_start : b.right.start = b.left.start
    + Text.size ((opening :: items.flatMap Tree.leaves).flatMap (·.token.fullText))
  depth_eq : b.depth = Frame.blocks frames
  address_eq : b.node.address.reverse = before.length :: Tree.path frames

theorem BlockShape.kind_of_ofKind? {kind : NodeKind} {shape : BlockShape}
    (h : BlockShape.ofKind? kind = some shape) : kind = shape.kind := by
  cases kind <;> cases h <;> rfl

namespace NodeRef

/-- What a closed block is made of. -/
theorem closedBlock?_eq_some {n : NodeRef} {b : ClosedBlock} (h : n.closedBlock? = some b) :
    b.node = n ∧ n.kind = b.shape.kind ∧ n.tokens.head? = some b.left ∧
      n.tokens.tail.getLast? = some b.right := by
  simp only [closedBlock?, bind, Option.bind_eq_some_iff] at h
  obtain ⟨shape, hshape, left, hleft, right, hright, h⟩ := h
  split at h
  · cases h
    exact ⟨rfl, BlockShape.kind_of_ofKind? hshape, hleft, hright⟩
  · cases h

end NodeRef

/-- A node below the root of the tree of a text, in what the rule for a file has built. -/
theorem exists_fileOutcome_of_frames {s : Text} {n : NodeRef} {frames : List (Frame Token)}
    (hin : NodeRef.In (parse s).tree.toTree n frames) (hframes : frames ≠ []) :
    ∃ before inner after children, (fileOutcome s).trees
        = before ++ Tree.fill inner (.node n.kind children) :: after ∧
      n.children = children.map (Tree.map PlacedToken.token) ∧
      frames = ⟨.sourceFile, before.map (Tree.map PlacedToken.token),
        after.map (Tree.map PlacedToken.token) ++ [.leaf (tokenize s).stop.token]⟩
          :: inner.map (Frame.map PlacedToken.token) := by
  have htree := hin.tree
  rw [parse_tree] at htree
  cases frames with
  | nil => exact absurd rfl hframes
  | cons frame frames =>
    obtain ⟨kind, before, after⟩ := frame
    obtain ⟨rfl, hchildren⟩ := Tree.node.inj htree
    rcases append_eq_append_cons hchildren with ⟨more, htrees, rfl⟩ | ⟨more, -, hstop⟩
    · obtain ⟨before, rest, htrees, rfl, hrest⟩ := List.map_eq_append_iff.1 htrees
      obtain ⟨t, after, rfl, ht, rfl⟩ := List.map_eq_cons_iff.1 hrest
      obtain ⟨inner, u, rfl, rfl, hu⟩ := Tree.exists_of_map_eq_fill ht
      cases u with
      | leaf a => cases hu
      | node kind children =>
        rw [Tree.map, Tree.forestMap_eq] at hu
        obtain ⟨rfl, hchildren⟩ := Tree.node.inj hu
        exact ⟨before, inner, after, children, htrees, hchildren, rfl⟩
    · exact absurd (singleton_eq_append_cons hstop).2.1.symm (Tree.fill_ne_leaf _ _ _ _)

/-- A block of the tree of a text, in what the rule for a file has built. -/
theorem exists_fileOutcome_of_in {s : Text} {n : NodeRef} {frames : List (Frame Token)}
    (hin : NodeRef.In (parse s).tree.toTree n frames) (hk : n.kind ≠ .sourceFile) :
    ∃ before inner after children, (fileOutcome s).trees
        = before ++ Tree.fill inner (.node n.kind children) :: after ∧
      n.children = children.map (Tree.map PlacedToken.token) ∧
      frames = ⟨.sourceFile, before.map (Tree.map PlacedToken.token),
        after.map (Tree.map PlacedToken.token) ++ [.leaf (tokenize s).stop.token]⟩
          :: inner.map (Frame.map PlacedToken.token) := by
  refine exists_fileOutcome_of_frames hin ?_
  rintro rfl
  exact hk (Tree.node.inj hin.tree).1.symm

/-- A closed block among the nodes of a text is found where the rule for a file has built it. -/
theorem nonempty_enclosed_of_mem {s : Text} {n : NodeRef} {b : ClosedBlock}
    (hn : n ∈ (NodeRef.root (parse s).tree).descendants) (hb : n.closedBlock? = some b) :
    Nonempty (Enclosed s b) := by
  obtain ⟨node, shape, left, right⟩ := b
  obtain ⟨hnode, hkind, hleft, hright⟩ : node = n ∧ n.kind = shape.kind ∧
    n.tokens.head? = some left ∧ n.tokens.tail.getLast? = some right :=
    NodeRef.closedBlock?_eq_some hb
  subst hnode
  obtain ⟨frames, hin⟩ := NodeRef.exists_in_of_mem_descendants hn
  have hfile : node.kind ≠ .sourceFile := by
    rw [hkind]
    cases shape <;> simp [BlockShape.kind]
  obtain ⟨before, inner, after, children, htrees, hchildren, rfl⟩ :=
    exists_fileOutcome_of_in hin hfile
  rw [hkind] at htrees
  obtain ⟨opening, items, closing, hopening, hitems, hclosing, rfl⟩ :=
    (runs_fileOutcome s).children_of_block htrees
  have hnodes : ∀ u ∈ items.map (Tree.map PlacedToken.token), u.IsNode := by
    intro u hu
    obtain ⟨v, hv, rfl⟩ := List.mem_map.1 hu
    exact (hitems v hv).map _
  have hclosed : node.children = .leaf opening.token :: items.map (Tree.map PlacedToken.token)
      ++ ((closing.map PlacedToken.token).map Tree.leaf).toList := by
    cases closing <;> simp [hchildren, Tree.map]
  rw [NodeRef.tokens_of_block hnodes hclosed] at hleft hright
  cases closing with
  | none => cases hright
  | some closing =>
    cases hleft
    cases hright
    refine ⟨⟨before, inner, after, opening, items, closing, htrees, hopening, hclosing closing rfl,
      rfl, ?_, rfl, ?_, ?_, ?_⟩⟩
    · show node.start = _
      rw [hin.start, Tree.leavesBefore_cons, Tree.leavesBefore_map, Tree.flatMap_leaves_map,
        ← List.map_append, List.flatMap_map]
    · show node.start + Text.size (Tree.forestText (.leaf opening.token :: _)) = node.start + _
      rw [Tree.forestText_cons, Tree.text_leaf, List.flatMap_cons, Tree.forestText_map]
    · exact hin.countP_above.trans (by simp [Frame.blocks_cons, NodeKind.isBlock])
    · exact hin.address.trans (by simp [Tree.path, Frame.map])

/-- **The innermost closed block around a range is found where the rule for a file has built it.** -/
theorem nonempty_enclosed {s : Text} {range : Span} {b : ClosedBlock}
    (h : (NodeRef.root (parse s).tree).enclosingBlock? range = some b) :
    Nonempty (Enclosed s b) ∧ b.interior.contains range = true := by
  obtain ⟨hmem, hrange⟩ := List.mem_filter.1 (List.mem_of_getLast? h)
  obtain ⟨n, hn, hb⟩ := List.mem_filterMap.1 hmem
  exact ⟨nonempty_enclosed_of_mem hn hb, hrange⟩

namespace Enclosed

variable {s edited : Text} {b : ClosedBlock} (h : Enclosed s b) {e : Edit}

/-! ## The tokens and the text around the braces -/

/-- The tokens before the block. -/
def tokensBefore : List PlacedToken := h.before.flatMap Tree.leaves ++ Tree.leavesBefore h.frames

/-- The tokens between the braces. -/
def inside : List PlacedToken := h.items.flatMap Tree.leaves

/-- The tokens after the block. -/
def tokensAfter : List PlacedToken := Tree.leavesAfter h.frames ++ h.after.flatMap Tree.leaves

/-- The text before the `{`. -/
def textBefore : Text :=
  h.tokensBefore.flatMap (·.token.fullText) ++ Trivia.textOf h.opening.token.leading

/-- The text between the braces. -/
def textInside : Text :=
  Trivia.textOf h.opening.token.trailing ++ h.inside.flatMap (·.token.fullText)
    ++ Trivia.textOf h.closing.token.leading

/-- The text after the `}`. -/
def textAfter : Text :=
  Trivia.textOf h.closing.token.trailing ++ h.tokensAfter.flatMap (·.token.fullText)
    ++ (tokenize s).stop.token.fullText

theorem tokens_eq : (tokenize s).tokens
    = h.tokensBefore ++ h.opening :: (h.inside ++ h.closing :: h.tokensAfter) := by
  rw [← read_fileOutcome, Outcome.read, h.trees_eq, List.flatMap_append, List.flatMap_cons,
    Tree.leaves_fill, Tree.braces, Tree.leaves, Tree.forestLeaves_eq]
  simp [tokensBefore, inside, tokensAfter, Tree.leaves]

theorem opening_text : h.opening.token.text = ['{'] :=
  (tokenize_shaped (s := s) (by simp [h.tokens_eq])).leftBrace h.opening_kind

theorem closing_text : h.closing.token.text = ['}'] :=
  (tokenize_shaped (s := s) (by simp [h.tokens_eq])).rightBrace h.closing_kind

/-- **The text is what stands before, between and after the braces.** -/
theorem text_eq : s = h.textBefore ++ '{' :: (h.textInside ++ '}' :: h.textAfter) := by
  have htext := text_tokenize s
  rw [TokenStream.all, h.tokens_eq] at htext
  refine htext.symm.trans ?_
  simp [textBefore, textInside, textAfter, Token.fullText, h.opening_text, h.closing_text]

/-! ## Where the braces stand -/

/-- The tokens stand one after the other, with the block among them. -/
theorem tiles : Tile 0 h.tokensBefore h.opening.offset ∧
    Tile (h.opening.offset + h.opening.token.fullSize) h.inside h.closing.offset ∧
    ∃ stop, Tile (h.closing.offset + h.closing.token.fullSize) h.tokensAfter stop := by
  have htile := tile_attachTrivia 0 [] (lex s)
  rw [show (attachTrivia 0 [] (lex s)).tokens = _ from h.tokens_eq] at htile
  obtain ⟨middle, hbefore, rfl, hmore⟩ := htile.append
  obtain ⟨middle', hinside, rfl, hafter⟩ := hmore.append
  exact ⟨hbefore, hinside, _, hafter⟩

theorem offset_eq : h.opening.offset = b.left.start ∧ h.closing.offset = b.right.start := by
  obtain ⟨hbefore, hinside, -⟩ := h.tiles
  have hleft := hbefore.stop_eq
  have hright := hinside.stop_eq
  rw [h.right_start, h.left_start, List.flatMap_cons, Text.size_append, Token.size_fullText]
  refine ⟨by rw [hleft, Nat.zero_add]; rfl, ?_⟩
  rw [hright, hleft, Nat.zero_add, Nat.add_assoc]
  rfl

/-- The token that opens the block stands where the block begins. -/
theorem opening_span : h.opening.span = b.left.span := by
  rw [PlacedToken.span, TokenRef.span, h.offset_eq.1, h.left_token]

theorem closing_span : h.closing.span = b.right.span := by
  rw [PlacedToken.span, TokenRef.span, h.offset_eq.2, h.right_token]

/-- The tokens before the block end before it. -/
theorem stop_le_left {p : PlacedToken} (hp : p ∈ h.tokensBefore) :
    p.span.stop ≤ b.left.span.start := by
  rw [← h.opening_span]
  exact Nat.le_trans (h.tiles.1.between.2 p hp).2 h.opening.offset_le_start

/-- The tokens between the braces stand between them. -/
theorem between_braces {p : PlacedToken} (hp : p ∈ h.inside) :
    b.left.span.stop ≤ p.span.start ∧ p.span.stop ≤ b.right.span.start := by
  rw [← h.opening_span, ← h.closing_span]
  obtain ⟨hstart, hstop⟩ := h.tiles.2.1.between.2 p hp
  exact ⟨Nat.le_trans h.opening.stop_le_fullStop hstart,
    Nat.le_trans hstop h.closing.offset_le_start⟩

/-- The tokens after the block begin after it. -/
theorem right_le_offset {p : PlacedToken} (hp : p ∈ h.tokensAfter) :
    b.right.span.stop ≤ p.offset := by
  obtain ⟨-, -, stop, hafter⟩ := h.tiles
  rw [← h.closing_span]
  exact Nat.le_trans h.closing.stop_le_fullStop (hafter.le_offset p hp)

theorem left_span : b.left.span = ⟨Text.size h.textBefore, Text.size h.textBefore + 1⟩ := by
  rw [TokenRef.span, h.left_token, h.left_start, textBefore, Token.size, h.opening_text,
    Token.leadingSize, Text.size_append, Trivia.size_textOf]
  rfl

theorem right_span : b.right.span = ⟨Text.size h.textBefore + 1 + Text.size h.textInside,
    Text.size h.textBefore + 1 + Text.size h.textInside + 1⟩ := by
  have hstart : b.right.start + h.closing.token.leadingSize
      = Text.size h.textBefore + 1 + Text.size h.textInside := by
    rw [h.right_start, h.left_start, textBefore, textInside, List.flatMap_cons, Token.fullText,
      h.opening_text, Token.leadingSize]
    simp only [Text.size_append, Trivia.size_textOf, show Text.size ['{'] = 1 from rfl,
      tokensBefore, inside]
    omega
  rw [TokenRef.span, h.right_token, hstart, Token.size, h.closing_text]
  rfl

theorem interior_eq : b.interior
    = ⟨Text.size h.textBefore + 1, Text.size h.textBefore + 1 + Text.size h.textInside⟩ := by
  rw [ClosedBlock.interior, h.left_span, h.right_span]

/-! ## Edits between the braces -/

/-- **An edit between the braces changes what stands there, and nothing else.** -/
theorem apply_eq_ok (hc : b.interior.contains e.removed = true)
    (hle : e.removed.start ≤ e.removed.stop) (ha : e.apply s = .ok edited) :
    ∃ inside, edited = h.textBefore ++ '{' :: (inside ++ '}' :: h.textAfter) ∧
      Text.size inside + e.removed.size = Text.size h.textInside + Text.size e.inserted ∧
      e.removed.size ≤ Text.size h.textInside := by
  obtain ⟨x, removed, y, hs, hx, hremoved, rfl⟩ := Edit.apply_eq_ok hle ha
  rw [h.interior_eq, Span.contains] at hc
  simp only [Bool.and_eq_true, decide_eq_true_eq] at hc
  have hopening : Text.size (h.textBefore ++ ['{']) = Text.size h.textBefore + 1 := by
    rw [Text.size_append]
    rfl
  have htext : (h.textBefore ++ ['{']) ++ (h.textInside ++ '}' :: h.textAfter)
      = x ++ (removed ++ y) := by
    rw [← List.append_assoc x, ← hs]
    refine Eq.trans ?_ h.text_eq.symm
    simp
  -- what is kept in front reaches past the `{`, what is kept behind begins before the closing brace
  obtain ⟨front, rfl, hrest⟩ := Text.exists_of_append_eq_append htext (by omega)
  rw [Text.size_append] at hx
  obtain ⟨back, hinside, rfl⟩ := Text.exists_of_append_eq_append
    (show (front ++ removed) ++ y = h.textInside ++ '}' :: h.textAfter by
      rw [List.append_assoc, ← hrest])
    (by rw [Text.size_append]; omega)
  refine ⟨front ++ e.inserted ++ back, by simp, ?_⟩
  have hsize : e.removed.size = Text.size removed := by
    rw [Span.size]
    omega
  rw [hinside, hsize]
  simp only [Text.size_append]
  omega

/-- The text of the block with the edit in it is its braces and what stands between them now. -/
theorem slice_eq {inside : Text} (hsize : Text.size inside + e.removed.size
      = Text.size h.textInside + Text.size e.inserted)
    (hle : e.removed.size ≤ Text.size h.textInside) :
    Text.slice (h.textBefore ++ '{' :: (inside ++ '}' :: h.textAfter)) b.left.span.start
      (e.move b.right.span.stop) = '{' :: (inside ++ ['}']) := by
  have htext : h.textBefore ++ '{' :: (inside ++ '}' :: h.textAfter)
      = h.textBefore ++ '{' :: (inside ++ ['}']) ++ h.textAfter := by simp
  rw [htext, h.left_span, h.right_span, Edit.move]
  refine Text.slice_append rfl ?_
  simp only [Text.size_cons, Text.size_append, Text.size_nil, show '{'.utf8Size = 1 from rfl,
    show '}'.utf8Size = 1 from rfl]
  omega

/-! ## Another block in the place of the old one -/

/-- The tree of the text with another tree in the place of the block. -/
def plug (new : Tree Token) : SyntaxTree :=
  ⟨.sourceFile, h.before.map (Tree.map PlacedToken.token)
    ++ Tree.fill (h.frames.map (Frame.map PlacedToken.token)) new
      :: (h.after.map (Tree.map PlacedToken.token) ++ [.leaf (tokenize s).stop.token])⟩

/-- **The calls with which a block is put in the place of the old one build the plugged tree.** -/
theorem callsWith_eq (new : Tree Token) :
    (parse s).tree.callsWith b.node new = (h.plug new).calls := by
  have htree : (parse s).tree.toTree
      = Tree.fill (⟨.sourceFile, h.before.map (Tree.map PlacedToken.token),
          h.after.map (Tree.map PlacedToken.token) ++ [.leaf (tokenize s).stop.token]⟩
            :: h.frames.map (Frame.map PlacedToken.token))
        ((Tree.braces b.shape h.opening h.items h.closing).map PlacedToken.token) := by
    rw [parse_tree, h.trees_eq, Node.toTree, Tree.fill]
    simp [Tree.map_fill]
  have hpath : b.node.address.reverse
      = Tree.path (⟨.sourceFile, h.before.map (Tree.map PlacedToken.token),
          h.after.map (Tree.map PlacedToken.token) ++ [.leaf (tokenize s).stop.token]⟩
            :: h.frames.map (Frame.map PlacedToken.token)) := by
    rw [h.address_eq, ← Tree.path_map PlacedToken.token h.frames]
    simp [Tree.path]
  rw [SyntaxTree.callsWith, htree, hpath, Tree.replaceAt_fill]
  rfl

theorem text_plug (new : Tree Token) : (h.plug new).text
    = h.tokensBefore.flatMap (·.token.fullText) ++ new.text
      ++ (h.tokensAfter.flatMap (·.token.fullText) ++ (tokenize s).stop.token.fullText) := by
  rw [SyntaxTree.text, Node.leaves, plug]
  simp only [List.flatMap_append, List.flatMap_cons, Tree.leaves_fill, Tree.leavesBefore_map,
    Tree.leavesAfter_map, Tree.flatMap_leaves_map]
  simp [tokensBefore, tokensAfter, Tree.text, Tree.leaves, List.flatMap_map]

end Enclosed

end NginxConf
