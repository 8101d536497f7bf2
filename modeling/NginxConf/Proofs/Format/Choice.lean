import NginxConf.Proofs.Format.Spans
import NginxConf.Proofs.Format.Tidy
import NginxConf.Proofs.SyntaxTree.Alike

/-!
# How a gap is written does not change

The tree of a formatted file is the tree of the file but for trivia (`bare_root_format`). What decides
how a gap is written is the same in both: the kinds of the tokens and of the nodes around them, where
items begin (`contains_itemStarts`), and which blocks go over several lines
(`spansLines_of_bare`). So a gap is written in the same way again (`Gap.between_congr`).
-/

namespace NginxConf

open Trivia NodeRef

/-! ## What can be seen without trivia -/

namespace TokenRef

variable {t u : TokenRef}

theorem kind_of_bare (h : t.bare = u.bare) : t.token.kind = u.token.kind :=
  show t.bare.token.kind = u.bare.token.kind by rw [h]

theorem text_of_bare (h : t.bare = u.bare) : t.token.text = u.token.text :=
  show t.bare.token.text = u.bare.token.text by rw [h]

theorem address_of_bare (h : t.bare = u.bare) : t.address = u.address :=
  show t.bare.address = u.bare.address by rw [h]

theorem parent_of_bare (h : t.bare = u.bare) : t.parent.bare = u.parent.bare :=
  show t.bare.parent = u.bare.parent by rw [h]

theorem parentKind_of_bare (h : t.bare = u.bare) : t.parent.kind = u.parent.kind :=
  NodeRef.kind_of_bare (parent_of_bare h)

theorem level_bare (t : TokenRef) : t.bare.level = t.level := by
  have hcount : ∀ (p : NodeKind → Bool) (above : List Site) (s : Site),
      (withAncestors s.bare (above.map Site.bare)).countP (fun n => p n.kind)
        = (withAncestors s above).countP fun n => p n.kind := by
    intro p above
    induction above with
    | nil => intro s; rfl
    | cons q above ih =>
      intro s
      rw [List.map_cons, withAncestors, withAncestors, List.countP_cons, List.countP_cons, ih]
      rfl
  rw [level, level]
  congr 1
  exact hcount NodeKind.isBlock t.parent.above t.parent.toSite

theorem level_of_bare (h : t.bare = u.bare) : t.level = u.level := by
  rw [← level_bare t, ← level_bare u, h]

theorem same_of_bare {p q : TokenRef} (hp : p.bare = q.bare) (ht : t.bare = u.bare) :
    p.parent.same t.parent = q.parent.same u.parent := by
  rw [same, same, NodeRef.address_of_bare (parent_of_bare hp),
    NodeRef.address_of_bare (parent_of_bare ht)]

end TokenRef

/-! ## Items -/

namespace NodeRef

theorem exists_mem_items {m n : NodeRef} (h : m.bare = n.bare) {k : NodeRef} (hk : k ∈ m.items) :
    ∃ l ∈ n.items, k.bare = l.bare := by
  rw [mem_items] at hk
  obtain ⟨l, hl, hbare⟩ := exists_mem_nodes h hk.1
  refine ⟨l, mem_items.2 ⟨hl, ?_⟩, hbare⟩
  rw [← kind_of_bare h, ← kind_of_bare hbare]
  exact hk.2

/-- The first token of a node that is the same without trivia. -/
theorem exists_allTokens_cons {m n : NodeRef} (h : m.bare = n.bare) {t : TokenRef}
    {ts : List TokenRef} (hm : m.allTokens = t :: ts) : ∃ u us, n.allTokens = u :: us ∧
      t.bare = u.bare ∧ ts.map TokenRef.bare = us.map TokenRef.bare := by
  have hmap := map_bare_allTokens h
  rw [hm, List.map_cons] at hmap
  obtain ⟨u, us, hn, hu, hus⟩ := List.map_eq_cons_iff.1 hmap.symm
  exact ⟨u, us, hn, hu.symm, hus.symm⟩

end NodeRef

section Pair

variable {s s' : Text} (h : (parse s).hasErrors = false)
  (hbare : (root (parse s).tree).bare = (root (parse s').tree).bare)

include h hbare

/-- Where an item begins in one text, one begins in the other. -/
theorem mem_itemStarts {t t' : TokenRef} (ht : t ∈ (root (parse s).tree).allTokens)
    (ht' : t' ∈ (root (parse s').tree).allTokens) (htt : t.bare = t'.bare)
    (hstart : t.span.start ∈ (root (parse s).tree).itemStarts) :
    t'.span.start ∈ (root (parse s').tree).itemStarts := by
  obtain ⟨m, hm, hstart⟩ := List.mem_flatMap.1 hstart
  obtain ⟨item, hitem, hstart⟩ := List.mem_map.1 hstart
  obtain ⟨u, us, htokens, -⟩ := exists_first_of_mem_items h hm hitem
  rw [trimmedSpan_start htokens] at hstart
  have hbelow : item ∈ (root (parse s).tree).descendants :=
    descendants_subset hm (mem_descendants_of_mem_nodes (mem_nodes_of_mem_items hitem))
  have hmem : u ∈ (root (parse s).tree).allTokens :=
    (infix_allTokens hbelow).subset (htokens ▸ List.mem_cons_self)
  obtain rfl := eq_of_start_eq h hmem ht hstart
  -- the corresponding item begins at the corresponding token
  obtain ⟨m', hm', hmm⟩ := exists_mem_descendants hbare hm
  obtain ⟨item', hitem', hii⟩ := exists_mem_items hmm hitem
  obtain ⟨u', us', htokens', huu, -⟩ := exists_allTokens_cons hii htokens
  have hbelow' : item' ∈ (root (parse s').tree).descendants :=
    descendants_subset hm' (mem_descendants_of_mem_nodes (mem_nodes_of_mem_items hitem'))
  have hmem' : u' ∈ (root (parse s').tree).allTokens :=
    (infix_allTokens hbelow').subset (htokens' ▸ List.mem_cons_self)
  obtain rfl : u' = t' := eq_of_address_eq hmem' ht'
    ((TokenRef.address_of_bare huu).symm.trans (TokenRef.address_of_bare htt))
  exact List.mem_flatMap.2 ⟨m', hm', List.mem_map.2 ⟨item', hitem', trimmedSpan_start htokens'⟩⟩

/-- **Items begin at corresponding tokens.** -/
theorem contains_itemStarts (h' : (parse s').hasErrors = false) {t t' : TokenRef}
    (ht : t ∈ (root (parse s).tree).allTokens) (ht' : t' ∈ (root (parse s').tree).allTokens)
    (htt : t.bare = t'.bare) : (root (parse s').tree).itemStarts.contains t'.span.start
      = (root (parse s).tree).itemStarts.contains t.span.start := by
  rw [Bool.eq_iff_iff, List.contains_iff_mem, List.contains_iff_mem]
  exact ⟨mem_itemStarts h' hbare.symm ht' ht htt.symm, mem_itemStarts h hbare ht ht' htt⟩

omit h in
/-- The tokens of corresponding nodes stand in corresponding places. -/
theorem exists_split_of_bare (h' : (parse s').hasErrors = false) {n n' : NodeRef}
    (hn : n ∈ (root (parse s).tree).descendants) (hn' : n' ∈ (root (parse s').tree).descendants)
    (hnn : n.bare = n'.bare) {t : TokenRef} {ts : List TokenRef} (htokens : n.allTokens = t :: ts) :
    ∃ left right left' right' t' ts', (root (parse s).tree).allTokens = left ++ t :: ts ++ right ∧
      (root (parse s').tree).allTokens = left' ++ t' :: ts' ++ right' ∧
      n'.allTokens = t' :: ts' ∧ t.bare = t'.bare ∧ left.length = left'.length ∧
      ts.length = ts'.length := by
  obtain ⟨left, right, hsplit⟩ := infix_allTokens hn
  obtain ⟨left', right', hsplit'⟩ := infix_allTokens hn'
  obtain ⟨t', ts', htokens', htt, hts⟩ := exists_allTokens_cons hnn htokens
  rw [htokens] at hsplit
  rw [htokens'] at hsplit'
  refine ⟨left, right, left', right', t', ts', hsplit.symm, hsplit'.symm, htokens', htt, ?_,
    by simpa using congrArg List.length hts⟩
  -- the token at the place of the first token has the same address as the other first token
  have hmap := map_bare_allTokens hbare
  rw [← hsplit, List.append_assoc, List.map_append, List.cons_append, List.map_cons] at hmap
  obtain ⟨before, rest, hall, hbefore, hrest⟩ := List.map_eq_append_iff.1 hmap.symm
  obtain ⟨u, more, rfl, hu, -⟩ := List.map_eq_cons_iff.1 hrest
  have hmem : t' ∈ (root (parse s').tree).allTokens := by rw [← hsplit']; simp
  obtain rfl : u = t' := eq_of_address_eq (by rw [hall]; simp) hmem
    ((TokenRef.address_of_bare hu).trans (TokenRef.address_of_bare htt))
  have hpairwise := pairwise_allTokens h'
  rw [hall] at hpairwise
  rw [List.append_assoc, List.cons_append] at hsplit'
  have hsame : before = left' := left_eq_of_pairwise hpairwise (hall.symm.trans hsplit'.symm)
  rw [← hsame]
  simpa using (congrArg List.length hbefore).symm

end Pair

/-! ## The tree of a formatted file -/

/-- The trees of texts whose tokens look the same are the same but for trivia. -/
theorem bare_root_of_look {s s' : Text}
    (h : (tokenize s').tokens.map PlacedToken.look = (tokenize s).tokens.map PlacedToken.look) :
    (root (parse s).tree).bare = (root (parse s').tree).bare := by
  have hchildren : (parse s).tree.children.map (Tree.map Token.bare)
      = (parse s').tree.children.map (Tree.map Token.bare) :=
    congrArg Node.children (skeleton_of_look h)
  simp only [NodeRef.bare, root, Site.bare, hchildren]
  rfl

section Clean

variable {s : Text} {style : Style} (h : (parse s).hasErrors = false)
  (hreturns : s.ReturnsPaired)

include h hreturns

/-- **The tree of a formatted file is the tree of the file but for trivia.** -/
theorem bare_root_format (style : Style) :
    (root (parse s).tree).bare = (root (parse ((root (parse s).tree).format style)).tree).bare :=
  bare_root_of_look (look_format h (commentsEnd_written h hreturns style))

/-- The rows of a node of a formatted file are the rows that have been written for the node. -/
theorem exists_oldRows_format {n n' : NodeRef} (hn : n ∈ (root (parse s).tree).descendants)
    (hn' : n' ∈ (root (parse ((root (parse s).tree).format style)).tree).descendants)
    (hnn : n.bare = n'.bare) {t : TokenRef} {ts : List TokenRef} (htokens : n.allTokens = t :: ts) :
    ∃ t' ts', n'.allTokens = t' :: ts' ∧ t.bare = t'.bare ∧
      oldRows (some t') ts'
        = writtenRows style (root (parse s).tree).itemStarts (some t) ts := by
  have hended := commentsEnd_written h hreturns style
  obtain ⟨left, right, left', right', t', ts', hall, hall', htokens', htt, hleft, hts⟩ :=
    exists_split_of_bare (bare_root_format h hreturns style) (hasErrors_format h hended) hn hn'
      hnn htokens
  refine ⟨t', ts', htokens', htt, ?_⟩
  have hrows := rowsOf_format_eq h hreturns style
  rw [← oldRows_allTokens, hall, hall', List.append_assoc, List.append_assoc, oldRows_append,
    writtenRows_append] at hrows
  have hrest := List.append_inj_right hrows (by rw [length_oldRows, length_writtenRows, hleft])
  rw [List.cons_append, List.cons_append, oldRows_cons, writtenRows_cons] at hrest
  have hmore := (List.cons.inj hrest).2
  rw [oldRows_append, writtenRows_append] at hmore
  exact List.append_inj_left hmore (by rw [length_oldRows, length_writtenRows, hts])

/-- **Formatting does not change which blocks go over several lines.** -/
theorem spansLines_of_bare {n n' : NodeRef} (hn : n ∈ (root (parse s).tree).descendants)
    (hn' : n' ∈ (root (parse ((root (parse s).tree).format style)).tree).descendants)
    (hnn : n.bare = n'.bare) (hblock : n.kind.isBlock = true) : n'.spansLines = n.spansLines := by
  obtain ⟨t, inner, last, htokens, -⟩ := exists_tokens_of_block h hn hblock
  obtain ⟨t', ts', htokens', htt, hrows⟩ :=
    exists_oldRows_format h hreturns hn hn' hnn (by rw [htokens]; rfl)
  rw [Bool.eq_iff_iff, spansLines_iff n', htokens', textBetween, hrows,
    ← TokenRef.text_of_bare htt]
  constructor
  · exact spansLines_of_newline_mem_written h style hn (by rw [htokens]; rfl)
  · exact fun hspans => List.mem_append_right _
      (newline_mem_written h style hn hblock hspans (by rw [htokens]; rfl))

end Clean

/-! ## How a gap is written -/

theorem hasBreak_verbatimPieces (style : Style) (old : List Trivia) :
    hasBreak (verbatimPieces style old) = hasBreak old := by
  induction old with
  | nil => rfl
  | cons t ts ih =>
    rw [verbatimPieces, hasBreak, hasBreak, List.any_append, List.any_cons]
    rw [show (verbatimPieces style ts).any (·.kind != .whitespace)
      = ts.any (·.kind != .whitespace) from ih]
    congr 1
    cases hkind : t.kind with
    | newline => rfl
    | whitespace =>
      simp only
      split
      · rfl
      · simp [hkind]
    | comment => simp [hkind]

/-- **A gap between tokens that are the same without trivia is written in the same way**, where items
begin at both or at neither, and where the blocks that they belong to go over several lines or not. -/
theorem Gap.between_congr {style : Style} {starts starts' : List Nat} {old old' : List Trivia}
    {p t p' t' : TokenRef} (hp : p.bare = p'.bare) (ht : t.bare = t'.bare)
    (hstart : starts'.contains t'.span.start = starts.contains t.span.start)
    (htspans : t.parent.kind.isBlock = true → t'.parent.spansLines = t.parent.spansLines)
    (hpspans : p.parent.kind.isBlock = true → p'.parent.spansLines = p.parent.spansLines)
    (hbreak : Gap.between style starts old p t ∈ [.nothing, Gap.verbatim] →
      hasBreak old' = hasBreak old) :
    Gap.between style starts' old' p' t' = Gap.between style starts old p t := by
  have hscript : p'.beforeScript t' = p.beforeScript t := by
    rw [TokenRef.beforeScript, TokenRef.beforeScript, TokenRef.kind_of_bare hp,
      TokenRef.kind_of_bare ht, TokenRef.parentKind_of_bare hp]
  -- all that is looked at is the same, and is looked at in the order of the definition
  unfold Gap.between at hbreak ⊢
  rw [← TokenRef.kind_of_bare ht, ← TokenRef.kind_of_bare hp, ← TokenRef.parentKind_of_bare ht,
    ← TokenRef.parentKind_of_bare hp, ← TokenRef.level_of_bare ht,
    ← TokenRef.same_of_bare hp ht, hscript, hstart]
  by_cases hend : t.token.kind = .endOfFile
  · rw [if_pos hend, if_pos hend]
  rw [if_neg hend] at hbreak ⊢
  rw [if_neg hend]
  by_cases hcode : p.beforeScript t = true
  · rw [if_pos hcode, if_pos hcode]
  rw [if_neg hcode] at hbreak ⊢
  rw [if_neg hcode]
  by_cases hbrace : t.token.kind = .rightBrace ∧ t.parent.kind.isBlock = true
  · rw [if_pos hbrace, if_pos hbrace, htspans hbrace.2]
  rw [if_neg hbrace] at hbreak ⊢
  rw [if_neg hbrace]
  by_cases hitem : starts.contains t.span.start = true
  · rw [if_pos hitem, if_pos hitem]
    by_cases hblock : p.parent.kind.isBlock = true
    · rw [hpspans hblock]
    · simp [hblock]
  rw [if_neg hitem] at hbreak ⊢
  rw [if_neg hitem]
  by_cases hsemicolon : t.token.kind = .semicolon
  · rw [hbreak]
    split
    · simp
    · rw [if_neg (by rw [hsemicolon]; simp)]
      simp
  · simp [hsemicolon]

end NginxConf
