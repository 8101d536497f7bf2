import NginxConf.Proofs.Format.Starts
import NginxConf.Proofs.Parse.Reported
import NginxConf.Proofs.SyntaxTree.Ancestors
import NginxConf.Proofs.SyntaxTree.Held
import NginxConf.Proofs.Tree.Heads
import NginxConf.Proofs.Tree.Hole

/-!
# What stands before an item

A statement, or an entry of a geo block, begins with a word or a keyword (`isHead_of_beginsItem`). In
a text without errors, each of them is an item of a block or of the whole file, or the beginning of
one (`exists_items`), so its offset is one where items begin (`start_mem_itemStarts`). Before it
stands the `{` of the block, or a token that ends an item (`before_item`).
-/

namespace NginxConf

open NodeRef

variable {s : Text}

/-! ## Tokens at the bounds of lines -/

namespace TokenRef

/-- Whether the token is the `{` of a block. -/
def opensBlock (t : TokenRef) : Bool := t.token.kind == .leftBrace && t.parent.kind.isBlock

/-- Whether the token is the `}` of a block. -/
def closesBlock (t : TokenRef) : Bool := t.token.kind == .rightBrace && t.parent.kind.isBlock

/-- The nodes around a token, without the block that it closes. -/
def around (t : TokenRef) : List NodeRef :=
  if t.closesBlock then t.parent.ancestors.tail else t.parent.ancestors

/-- The number of blocks around a token. -/
def depth (t : TokenRef) : Nat := t.around.countP (·.kind.isBlock)

/-- The token is the first one of a statement, or of an entry of a geo block. -/
def BeginsItem (root : NodeRef) (t : TokenRef) : Prop :=
  ∃ n ∈ root.descendants, n.kind.isItem = true ∧ n.allTokens.head? = some t

theorem level_of_closesBlock {t : TokenRef} (h : t.closesBlock = true) : t.level = t.depth := by
  have hblock := (Bool.and_eq_true_iff.1 h).2
  have hbrace : t.isBlockBrace = true := by
    rw [isBlockBrace, Bool.and_eq_true, Bool.or_eq_true]
    exact ⟨.inr (Bool.and_eq_true_iff.1 h).1, hblock⟩
  rw [level, depth, around, if_pos h, if_pos hbrace]
  obtain ⟨outer, houter⟩ := t.parent.exists_ancestors_cons
  rw [houter, List.countP_cons, if_pos hblock]
  rfl

theorem level_of_isHead {t : TokenRef} (h : t.token.kind.isHead = true) : t.level = t.depth := by
  have hkind : t.token.kind ≠ .leftBrace ∧ t.token.kind ≠ .rightBrace := by
    constructor <;> intro hkind <;> rw [hkind] at h <;> cases h
  have hcloses : ¬ t.closesBlock = true := by simp [closesBlock, hkind.2]
  have hbrace : ¬ t.isBlockBrace = true := by simp [isBlockBrace, hkind]
  rw [level, depth, around, if_neg hcloses, if_neg hbrace]
  rfl

end TokenRef

/-! ## Where statements stand -/

section Clean

variable (h : (parse s).hasErrors = false)

include h

/-- A text without errors has no error nodes. -/
theorem ne_error_of_mem {n : NodeRef} (hn : n ∈ (root (parse s).tree).descendants) :
    n.kind ≠ .error := by
  intro hkind
  obtain ⟨d, hd, hexplains⟩ := exists_explains_of_mem hn hkind
  have hnone := List.any_eq_false.1 h d hd
  rw [Diagnostic.isError, hexplains.severity] at hnone
  exact hnone rfl

/-- Statements, and the entries of geo blocks, are items of the node that holds them. -/
theorem mem_items_of_mem_nodes {m n : NodeRef} (hm : m ∈ (root (parse s).tree).descendants)
    (hn : n ∈ m.nodes) (hkind : n.kind.isStatement = true ∨ n.kind = .geoItem) : n ∈ m.items := by
  have herror := ne_error_of_mem h hm
  have hmay := ((shaped_parse s).admits hm).mayHold (node_mem_children hn)
  refine mem_items.2 ⟨hn, ?_⟩
  rw [NodeKind.mayHold] at hmay
  rcases hkind with hkind | hkind
  · rw [if_pos hkind, Bool.or_eq_true, Bool.or_eq_true, beq_iff_eq, beq_iff_eq, beq_iff_eq] at hmay
    exact .inl ⟨hmay.resolve_right herror, hkind⟩
  · rw [hkind] at hmay
    exact .inr ⟨beq_iff_eq.1 hmay, hkind⟩

omit h in
/-- The node that holds a statement, or an entry of a geo block. -/
theorem exists_holder {n : NodeRef} (hn : n ∈ (root (parse s).tree).descendants)
    (hkind : n.kind.isItem = true) : ∃ m ∈ (root (parse s).tree).descendants, n ∈ m.nodes := by
  refine (eq_or_mem_nodes hn).resolve_left fun hroot => ?_
  rw [hroot] at hkind
  cases hkind

/-- **Where a statement or an entry of a geo block begins, an item begins.** -/
theorem exists_items {x : TokenRef} (hx : x.BeginsItem (root (parse s).tree)) :
    ∃ m ∈ (root (parse s).tree).descendants, ∃ item ∈ m.items,
      item.allTokens.head? = some x := by
  obtain ⟨n, hn, hkind, hhead⟩ := hx
  obtain ⟨m, hm, hnodes⟩ := exists_holder hn hkind
  rw [NodeKind.isItem, Bool.or_eq_true, Bool.or_eq_true, beq_iff_eq] at hkind
  rcases hkind with (hkind | hkind) | hkind
  · exact ⟨m, hm, n, mem_items_of_mem_nodes h hm hnodes (.inl hkind), hhead⟩
  · -- what the entry says comes first in the entry
    have hadmits := (shaped_parse s).admits hm
    have hmay := hadmits.mayHold (node_mem_children hnodes)
    have hstatement : ¬ n.kind.isStatement = true := by
      cases hn : n.kind <;> rw [hn] at hkind <;> first | cases hkind; done | decide
    rw [NodeKind.mayHold, if_neg hstatement, if_pos hkind, Bool.or_eq_true, beq_iff_eq,
      beq_iff_eq] at hmay
    have hentry : m.kind = .geoItem := hmay.resolve_right (ne_error_of_mem h hm)
    rw [hentry] at hadmits
    obtain ⟨k, cs, ts, hchildren, -, hothers⟩ := hadmits.exists_entry
    obtain ⟨us, vs, left, right, hsplit, htokens, hleft⟩ := exists_split_of_mem_nodes hnodes
    obtain rfl : us = [] := by
      cases us with
      | nil => rfl
      | cons u us =>
        rw [hchildren] at hsplit
        obtain ⟨-, rfl⟩ := List.cons.inj hsplit
        have hother := hothers n.kind n.children (by simp)
        rw [hkind] at hother
        cases hother
    obtain rfl := List.map_eq_nil_iff.1 hleft
    have hfirst : m.allTokens.head? = some x := by
      rw [htokens, List.nil_append, List.head?_append, hhead]
      rfl
    obtain ⟨outer, houter, hitem⟩ := exists_holder hm (by rw [hentry]; rfl)
    exact ⟨outer, houter, m, mem_items_of_mem_nodes h houter hitem (.inr hentry), hfirst⟩
  · exact ⟨m, hm, n, mem_items_of_mem_nodes h hm hnodes (.inr hkind), hhead⟩

omit h in
/-- A statement, or an entry of a geo block, begins with a word or a keyword. -/
theorem isHead_of_beginsItem {x : TokenRef} (hx : x.BeginsItem (root (parse s).tree)) :
    x.token.kind.isHead = true := by
  obtain ⟨n, hn, hkind, hhead⟩ := hx
  obtain ⟨a, as, hleaves, ha⟩ := ((shaped_parse s).of_mem_descendants hn).exists_head hkind
  obtain ⟨ts, htokens⟩ := List.head?_eq_some_iff.1 hhead
  have hmap := n.map_token_allTokens
  rw [hleaves, htokens, List.map_cons] at hmap
  rw [(List.cons.inj hmap).1]
  exact ha

/-- Where an item begins, its offset is found. -/
theorem start_mem_itemStarts {x : TokenRef} (hx : x.BeginsItem (root (parse s).tree)) :
    x.span.start ∈ (root (parse s).tree).itemStarts := by
  obtain ⟨m, hm, item, hitem, hhead⟩ := exists_items h hx
  obtain ⟨ts, htokens⟩ := List.head?_eq_some_iff.1 hhead
  refine List.mem_flatMap.2 ⟨m, hm, List.mem_map.2 ⟨item, hitem, ?_⟩⟩
  exact trimmedSpan_start htokens

/-! ## The token before an item -/

/-- What a node that has items is made of: the items, and braces around them if it is a block. -/
theorem exists_front {m item : NodeRef} (hm : m ∈ (root (parse s).tree).descendants)
    (hitem : item ∈ m.items) : ∃ front items last, m.children = front ++ (items ++ [.leaf last]) ∧
      (∀ u ∈ items, u.Itemlike Token.kind) ∧
      (m.children = (parse s).tree.children ∧ front = [] ∨
        m.kind.isBlock = true ∧ ∃ l, front = [.leaf l]) := by
  have hkind : m.kind = .sourceFile ∨ m.kind.isBlock = true := by
    rcases (mem_items.1 hitem).2 with ⟨hkind | hkind, -⟩ | ⟨hkind, -⟩
    · exact .inl hkind
    · exact .inr (by rw [hkind]; rfl)
    · exact .inr (by rw [hkind]; rfl)
  rcases hkind with hkind | hkind
  · obtain ⟨items, hchildren, hitems⟩ := itemlike_of_file h
    have hfile := children_of_sourceFile hm hkind
    exact ⟨[], items, _, hfile.trans hchildren, hitems, .inl ⟨hfile, rfl⟩⟩
  · obtain ⟨l, items, r, hchildren, -, -, hitems⟩ := braced_of_mem_descendants h hm hkind
    exact ⟨[.leaf l], items, r, hchildren, hitems, .inr ⟨hkind, l, rfl⟩⟩

omit h in
/-- What stands before a node in such a row are some of the items. -/
theorem exists_of_front {front items us vs children : List (Tree Token)} {last : Token}
    {kind : NodeKind} (hfront : .node kind children ∉ front)
    (h : front ++ (items ++ [.leaf last]) = us ++ .node kind children :: vs) :
    ∃ us', us = front ++ us' ∧ us' ⊆ items := by
  rcases append_eq_append_cons h with ⟨inner, hinner, -⟩ | ⟨us', rfl, hus⟩
  · exact absurd (by rw [hinner]; simp) hfront
  · refine ⟨us', rfl, ?_⟩
    rcases append_eq_append_cons hus with ⟨inner, hinner, -⟩ | ⟨more, -, hmore⟩
    · rw [hinner]
      exact List.subset_append_left _ _
    · have hnode : (.node kind children : Tree Token) ∈ [.leaf last] := by rw [hmore]; simp
      cases List.mem_singleton.1 hnode

/-- **Before an item stands the `{` of its block, or a token that ends an item.** -/
theorem before_item {m item : NodeRef} {p x : TokenRef} {before after : List TokenRef}
    (hm : m ∈ (root (parse s).tree).descendants) (hitem : item ∈ m.items)
    (hx : item.allTokens.head? = some x)
    (hsplit : (root (parse s).tree).allTokens = before ++ p :: x :: after) :
    p.token.kind = .leftBrace ∧ p.parent.kind.isBlock = true ∨
      p.token.kind = .semicolon ∨ p.token.kind = .rightBrace := by
  obtain ⟨front, items, last, hchildren, hitems, hfront⟩ := exists_front h hm hitem
  obtain ⟨us, vs, left, right, hus, htokens, hleft⟩ :=
    exists_split_of_mem_nodes (mem_nodes_of_mem_items hitem)
  obtain ⟨more, hmore⟩ := List.head?_eq_some_iff.1 hx
  obtain ⟨outer, right', hpart⟩ := infix_allTokens hm
  -- the same token is not met twice, so what stands before it is the same
  have hbefore : before ++ [p] = outer ++ left := by
    have hpairwise := pairwise_allTokens h
    rw [hsplit, List.append_cons] at hpairwise
    have hboth : before ++ [p] ++ x :: after
        = outer ++ left ++ x :: (more ++ right ++ right') := by
      rw [← List.append_cons, ← hsplit, ← hpart, htokens, hmore]
      simp
    exact left_eq_of_pairwise hpairwise hboth
  have hnode : .node item.kind item.children ∉ front := by
    intro hmem
    rcases hfront with ⟨-, rfl⟩ | ⟨-, l, rfl⟩
    · cases hmem
    · cases List.mem_singleton.1 hmem
  obtain ⟨us', rfl, hsubset⟩ := exists_of_front hnode (hchildren.symm.trans hus)
  by_cases hnone : us' = []
  · rw [hnone, List.append_nil] at hleft
    rcases hfront with ⟨hfile, rfl⟩ | ⟨hblock, l, rfl⟩
    · -- nothing stands before the first item of the file
      have hlength : m.allTokens.length = (root (parse s).tree).allTokens.length := by
        have hmap := congrArg List.length m.map_token_allTokens
        have hmap' := congrArg List.length (root (parse s).tree).map_token_allTokens
        rw [List.length_map, hfile] at hmap
        rw [List.length_map] at hmap'
        exact hmap.trans hmap'.symm
      have hlengths := congrArg List.length hpart
      have hbefores := congrArg List.length hbefore
      rw [List.map_eq_nil_iff.1 hleft] at hbefores
      simp only [List.length_append, List.length_singleton, List.length_nil] at hlengths hbefores
      omega
    · obtain ⟨t, rest, rfl, -, hrest⟩ := List.map_eq_cons_iff.1 hleft
      obtain rfl := List.map_eq_nil_iff.1 hrest
      obtain ⟨first, inner, stop, hall, -, hkind, -, hparent, -, -⟩ :=
        exists_tokens_of_block h hm hblock
      obtain ⟨rfl, -⟩ := List.cons.inj (htokens.symm.trans hall)
      obtain ⟨-, hp⟩ := List.append_inj' hbefore rfl
      obtain rfl := List.singleton_inj.1 hp
      exact .inl ⟨hkind, hparent ▸ hblock⟩
  · obtain ⟨q, hq, hkind⟩ :=
      exists_getLast_of_itemlike hleft hnone fun u hu => hitems u (hsubset hu)
    obtain ⟨init, rfl⟩ := List.getLast?_eq_some_iff.1 hq
    rw [← List.append_assoc] at hbefore
    obtain ⟨-, hp⟩ := List.append_inj' hbefore rfl
    rw [List.singleton_inj.1 hp]
    exact .inr hkind

end Clean

end NginxConf
