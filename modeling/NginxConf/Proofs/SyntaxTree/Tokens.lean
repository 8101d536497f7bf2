import NginxConf.Proofs.SyntaxTree.Descent
import NginxConf.Proofs.SyntaxTree.Pieces

/-!
# Where the tokens of a tree stand

The tokens that a walk meets are the leaves in order (`NodeRef.map_token_allTokens`), each one where
the one before it ends. The tokens of a node below another one are a part of the tokens of that one
(`NodeRef.infix_allTokens`), and each token is met in the node that holds it
(`NodeRef.parent_mem_descendants`).
-/

namespace NginxConf

namespace NodeRef

theorem mem_descendants {m n : NodeRef} : m ∈ n.descendants ↔ .enter m ∈ n.events := by
  rw [descendants, List.mem_filterMap]
  constructor
  · rintro ⟨event, hevent, hm⟩
    cases event with
    | enter k => cases hm; exact hevent
    | leave | token => cases hm
  · exact fun h => ⟨_, h, rfl⟩

theorem mem_allTokens {t : TokenRef} {n : NodeRef} : t ∈ n.allTokens ↔ .token t ∈ n.events := by
  rw [allTokens, List.mem_filterMap]
  constructor
  · rintro ⟨event, hevent, ht⟩
    cases event with
    | token u => cases ht; exact hevent
    | enter | leave => cases ht
  · exact fun h => ⟨_, h, rfl⟩

/-! ## Nodes below others -/

mutual

theorem events_infix_treeEvents {n : NodeRef} (parent : NodeRef) (position offset : Nat) :
    (t : Tree Token) → .enter n ∈ treeEvents parent position offset t →
    n.events <:+: treeEvents parent position offset t
  | .leaf token, h => by simp [treeEvents] at h
  | .node kind children, h => by
    have hm := events_eq
      ⟨⟨kind, children, offset, position :: parent.address⟩, parent.toSite :: parent.above⟩
    rw [treeEvents, ← hm]
    rw [treeEvents, List.mem_cons, List.mem_append] at h
    rcases h with h | h | h
    · cases h
      exact List.infix_rfl
    · rw [hm]
      exact (events_infix_forestEvents _ 0 offset children h).trans
        ⟨[.enter _], [.leave _], rfl⟩
    · simp at h

theorem events_infix_forestEvents {n : NodeRef} (parent : NodeRef) (position offset : Nat) :
    (ts : List (Tree Token)) → .enter n ∈ forestEvents parent position offset ts →
    n.events <:+: forestEvents parent position offset ts
  | [], h => by simp [forestEvents] at h
  | t :: ts, h => by
    rw [forestEvents] at h ⊢
    rcases List.mem_append.1 h with h | h
    · exact (events_infix_treeEvents parent position offset t h).trans
        (List.prefix_append _ _).isInfix
    · exact (events_infix_forestEvents parent (position + 1) _ ts h).trans
        (List.suffix_append _ _).isInfix

end

/-- The walk through a node below another one is a part of the walk through that one. -/
theorem infix_events {m n : NodeRef} (h : m ∈ n.descendants) : m.events <:+: n.events := by
  rw [mem_descendants] at h
  have hn := n.events_eq
  rw [hn, List.mem_cons, List.mem_append] at h
  rcases h with h | h | h
  · cases h
    exact List.infix_rfl
  · rw [hn]
    exact (events_infix_forestEvents n 0 n.start n.children h).trans ⟨[.enter _], [.leave _], rfl⟩
  · simp at h

/-- **The tokens of a node below another one are a part of the tokens of that one.** -/
theorem infix_allTokens {m n : NodeRef} (h : m ∈ n.descendants) : m.allTokens <:+: n.allTokens :=
  (infix_events h).filterMap _

theorem descendants_subset {m n : NodeRef} (h : m ∈ n.descendants) :
    m.descendants ⊆ n.descendants :=
  ((infix_events h).filterMap _).subset

/-- A child node is one of the children. -/
theorem node_mem_children {m n : NodeRef} (h : m ∈ n.nodes) :
    .node m.kind m.children ∈ n.children := by
  have hplace : ∀ (position offset : Nat) (ts : List (Tree Token)),
      .node m ∈ n.placeAll position offset ts → .node m.kind m.children ∈ ts := by
    intro position offset ts
    induction ts generalizing position offset with
    | nil => exact fun h => nomatch h
    | cons t ts ih =>
      intro h
      rcases List.mem_cons.1 h with h | h
      · cases t with
        | leaf token => cases h
        | node kind children =>
          rw [place] at h
          cases h
          exact List.mem_cons_self
      · exact List.mem_cons_of_mem _ (ih _ _ h)
  obtain ⟨e, he, hm⟩ := List.mem_filterMap.1 h
  cases e with
  | token t => cases hm
  | node k =>
    cases hm
    exact hplace 0 n.start n.children he

/-- A child node is a node below. -/
theorem mem_descendants_of_mem_nodes {m n : NodeRef} (h : m ∈ n.nodes) : m ∈ n.descendants := by
  have hforest : ∀ (position offset : Nat) (ts : List (Tree Token)),
      .node m ∈ n.placeAll position offset ts → .enter m ∈ forestEvents n position offset ts := by
    intro position offset ts
    induction ts generalizing position offset with
    | nil => exact fun h => nomatch h
    | cons t ts ih =>
      intro h
      rw [forestEvents, List.mem_append]
      rcases List.mem_cons.1 h with h | h
      · left
        cases t with
        | leaf token => cases h
        | node kind children =>
          rw [place] at h
          cases h
          exact List.mem_cons_self
      · exact .inr (ih _ _ h)
  obtain ⟨e, he, hm⟩ := List.mem_filterMap.1 h
  cases e with
  | token t => cases hm
  | node k =>
    cases hm
    rw [mem_descendants, events_eq]
    exact List.mem_cons_of_mem _ (List.mem_append_left _ (hforest 0 n.start n.children he))

/-! ## Tokens in the node that holds them -/

mutual

theorem parent_of_mem_treeEvents {t : TokenRef} (parent : NodeRef) (position offset : Nat) :
    (u : Tree Token) → .token t ∈ treeEvents parent position offset u →
    .token t = parent.place position offset u ∨
      (.enter t.parent ∈ treeEvents parent position offset u ∧ t ∈ t.parent.tokens)
  | .leaf token, h => by
    rw [treeEvents, List.mem_singleton] at h
    cases h
    exact .inl rfl
  | .node kind children, h => by
    rw [treeEvents, List.mem_cons, List.mem_append] at h ⊢
    rcases h with h | h | h
    · cases h
    · rcases parent_of_mem_forestEvents _ 0 offset children h with ⟨hparent, hplace⟩ | ⟨henter, ht⟩
      · refine .inr ⟨.inl (by rw [hparent]), List.mem_filterMap.2 ⟨.token t, ?_, rfl⟩⟩
        rw [hparent]
        exact hplace
      · exact .inr ⟨.inr (.inl henter), ht⟩
    · simp at h

theorem parent_of_mem_forestEvents {t : TokenRef} (parent : NodeRef) (position offset : Nat) :
    (us : List (Tree Token)) → .token t ∈ forestEvents parent position offset us →
    t.parent = parent ∧ .token t ∈ parent.placeAll position offset us ∨
      (.enter t.parent ∈ forestEvents parent position offset us ∧ t ∈ t.parent.tokens)
  | [], h => by simp [forestEvents] at h
  | u :: us, h => by
    rw [forestEvents, List.mem_append] at h ⊢
    rcases h with h | h
    · rcases parent_of_mem_treeEvents parent position offset u h with hplace | ⟨henter, ht⟩
      · refine .inl ⟨?_, List.mem_cons.2 (.inl hplace)⟩
        cases u with
        | leaf token => rw [place] at hplace; cases hplace; rfl
        | node kind children => rw [place] at hplace; cases hplace
      · exact .inr ⟨.inl henter, ht⟩
    · rcases parent_of_mem_forestEvents parent (position + 1) _ us h with
        ⟨hparent, hplace⟩ | ⟨henter, ht⟩
      · exact .inl ⟨hparent, List.mem_cons_of_mem _ hplace⟩
      · exact .inr ⟨.inr henter, ht⟩

end

/-- **A token is met in the node that holds it.** -/
theorem parent_mem_descendants {t : TokenRef} {n : NodeRef} (h : t ∈ n.allTokens) :
    t.parent ∈ n.descendants ∧ t ∈ t.parent.tokens := by
  rw [mem_allTokens] at h
  rw [mem_descendants]
  have hn := n.events_eq
  rw [hn, List.mem_cons, List.mem_append] at h ⊢
  rcases h with h | h | h
  · cases h
  · rcases parent_of_mem_forestEvents n 0 n.start n.children h with ⟨hparent, hplace⟩ | ⟨henter, ht⟩
    · refine ⟨.inl (by rw [hparent]), List.mem_filterMap.2 ⟨.token t, ?_, rfl⟩⟩
      rw [hparent]
      exact hplace
    · exact ⟨.inr (.inl henter), ht⟩
  · simp at h

/-! ## One token after the other -/

/-- The tokens stand one after the other from an offset on. -/
def Consecutive : Nat → List TokenRef → Prop
  | _, [] => True
  | offset, t :: ts => t.start = offset ∧ Consecutive (offset + t.token.fullSize) ts

theorem Consecutive.append {offset : Nat} {ss ts : List TokenRef} (hs : Consecutive offset ss)
    (ht : Consecutive (offset + Text.size ((ss.map TokenRef.token).flatMap Token.fullText)) ts) :
    Consecutive offset (ss ++ ts) := by
  induction ss generalizing offset with
  | nil => exact ht
  | cons s ss ih =>
    refine ⟨hs.1, ih hs.2 ?_⟩
    rw [List.map_cons, List.flatMap_cons, Text.size_append, Token.size_fullText] at ht
    rwa [Nat.add_assoc]

mutual

theorem consecutive_treeEvents (parent : NodeRef) (position offset : Nat) : (t : Tree Token) →
    Consecutive offset ((treeEvents parent position offset t).filterMap Event.token?) ∧
      ((treeEvents parent position offset t).filterMap Event.token?).map TokenRef.token = t.leaves
  | .leaf token => ⟨⟨rfl, trivial⟩, rfl⟩
  | .node kind children => by
    have h := consecutive_forestEvents
      ⟨⟨kind, children, offset, position :: parent.address⟩, parent.toSite :: parent.above⟩ 0
      offset children
    simp only [treeEvents, List.filterMap_cons, List.filterMap_append, List.filterMap_nil,
      Event.token?, List.append_nil]
    exact h

theorem consecutive_forestEvents (parent : NodeRef) (position offset : Nat) :
    (ts : List (Tree Token)) →
    Consecutive offset ((forestEvents parent position offset ts).filterMap Event.token?) ∧
      ((forestEvents parent position offset ts).filterMap Event.token?).map TokenRef.token
        = Tree.forestLeaves ts
  | [] => ⟨trivial, rfl⟩
  | t :: ts => by
    obtain ⟨ht, hleaves⟩ := consecutive_treeEvents parent position offset t
    obtain ⟨hts, hforest⟩ :=
      consecutive_forestEvents parent (position + 1) (offset + t.sum Token.fullSize) ts
    rw [forestEvents, List.filterMap_append, List.map_append, hleaves, hforest]
    refine ⟨ht.append ?_, rfl⟩
    rw [hleaves, show Text.size (t.leaves.flatMap Token.fullText) = t.sum Token.fullSize from
      (Tree.sum_fullSize t).symm]
    exact hts

end

/-- **The tokens that a walk meets are the leaves.** -/
theorem map_token_allTokens (n : NodeRef) :
    n.allTokens.map TokenRef.token = Tree.forestLeaves n.children := by
  rw [allTokens_eq]
  exact (consecutive_forestEvents n 0 n.start n.children).2

theorem consecutive_allTokens (n : NodeRef) : Consecutive n.start n.allTokens := by
  rw [allTokens_eq]
  exact (consecutive_forestEvents n 0 n.start n.children).1

theorem Consecutive.le_start {offset : Nat} {ts : List TokenRef} (h : Consecutive offset ts) :
    ∀ t ∈ ts, offset ≤ t.start := by
  induction ts generalizing offset with
  | nil => simp
  | cons t ts ih =>
    intro u hu
    rcases List.mem_cons.1 hu with rfl | hu
    · exact Nat.le_of_eq h.1.symm
    · exact Nat.le_trans (Nat.le_add_right _ _) (ih h.2 u hu)

/-- Tokens that are not empty, the last one apart, begin one after the other. -/
theorem Consecutive.pairwise {offset : Nat} {ts : List TokenRef} (h : Consecutive offset ts)
    (hne : ∀ t ∈ ts.dropLast, t.token.text ≠ []) :
    ts.Pairwise fun s t => s.span.start < t.span.start := by
  induction ts generalizing offset with
  | nil => exact .nil
  | cons t ts ih =>
    cases ts with
    | nil => exact List.pairwise_singleton _ _
    | cons u us =>
      rw [List.dropLast_cons_cons] at hne
      obtain ⟨ht, hus⟩ := List.forall_mem_cons.1 hne
      refine List.pairwise_cons.2 ⟨fun v hv => ?_, ih h.2 hus⟩
      have hv := h.2.le_start v hv
      have hsize : 0 < t.token.size := by
        rw [Token.size]
        exact Nat.pos_of_ne_zero fun h0 => ht (Text.size_eq_zero.1 h0)
      have hstart : t.start = offset := h.1
      simp only [TokenRef.span]
      simp only [Token.fullSize] at hv
      omega

/-- Where a node has a token, its text without trivia begins at the first one. -/
theorem trimmedSpan_start {n : NodeRef} {t : TokenRef} {ts : List TokenRef}
    (h : n.allTokens = t :: ts) : n.trimmedSpan.start = t.span.start := by
  have hmap := n.map_token_allTokens
  have hstart := n.consecutive_allTokens
  rw [h] at hmap hstart
  rw [List.map_cons] at hmap
  have hfirst : Tree.forestFirstLeaf? n.children = some t.token := by
    rw [Tree.forestFirstLeaf?_eq, ← hmap]
    rfl
  obtain ⟨last, hlast⟩ : ∃ last, Tree.forestLastLeaf? n.children = some last := by
    rw [Tree.forestLastLeaf?_eq, ← hmap, List.getLast?_cons]
    exact ⟨_, rfl⟩
  simp only [trimmedSpan, hfirst, hlast, span, TokenRef.span, hstart.1]

end NodeRef

/-! ## The pieces of a token -/

namespace TokenRef

theorem owner_of_mem_placeTrivia {owner : TokenRef} {part : Nat → Part} {index offset : Nat}
    {ts : List Trivia} {l : LeafRef} (h : l ∈ owner.placeTrivia part index offset ts) :
    l.owner = owner ∧ l.isTrivia = true := by
  induction ts generalizing index offset with
  | nil => cases h
  | cons t ts ih =>
    rcases List.mem_cons.1 h with rfl | h
    · exact ⟨rfl, rfl⟩
    · exact ih h

/-- The pieces of a token belong to it. -/
theorem owner_of_mem_pieces {t : TokenRef} {l : LeafRef} (h : l ∈ t.pieces) : l.owner = t := by
  rw [pieces, List.mem_append, List.mem_cons] at h
  rcases h with h | rfl | h
  · exact (owner_of_mem_placeTrivia h).1
  · rfl
  · exact (owner_of_mem_placeTrivia h).1

/-- The piece that is not trivia is the token, from both sides. -/
theorem find?_pieces (t : TokenRef) :
    t.pieces.find? (!·.isTrivia) = some t.core ∧
      t.pieces.reverse.find? (!·.isTrivia) = some t.core := by
  have hleading : ∀ l ∈ t.leading, l.isTrivia = true := fun l hl => (owner_of_mem_placeTrivia hl).2
  have htrailing : ∀ l ∈ t.trailing, l.isTrivia = true :=
    fun l hl => (owner_of_mem_placeTrivia hl).2
  have hcore : t.core.isTrivia = false := rfl
  constructor
  · rw [pieces, List.find?_append, List.find?_eq_none.2 (by simpa using hleading),
      List.find?_cons_of_pos (by simp [hcore])]
    rfl
  · rw [pieces, List.reverse_append, List.reverse_cons, List.append_assoc, List.find?_append,
      List.find?_eq_none.2 (by simpa using htrailing), List.singleton_append,
      List.find?_cons_of_pos (by simp [hcore])]
    rfl

end TokenRef

namespace NodeRef

/-- The last token ends with the text of all tokens. -/
theorem Consecutive.stop_eq {offset : Nat} {ts : List TokenRef} {u : TokenRef}
    (h : Consecutive offset (ts ++ [u])) :
    u.fullSpan.stop
      = offset + Text.size (((ts ++ [u]).map TokenRef.token).flatMap Token.fullText) := by
  induction ts generalizing offset with
  | nil =>
    simp only [List.nil_append, List.map_singleton, List.flatMap_singleton, Token.size_fullText]
    rw [TokenRef.fullSpan, h.1]
  | cons t ts ih =>
    rw [ih h.2, List.cons_append, List.map_cons, List.flatMap_cons, Text.size_append,
      Token.size_fullText, Nat.add_assoc]

/-- Without trivia, the range of a node goes from the first piece that is not trivia to the last
one. -/
theorem trimmedSpan_eq_find? (n : NodeRef) :
    n.trimmedSpan = match n.leaves.find? (!·.isTrivia), n.leaves.reverse.find? (!·.isTrivia) with
      | some first, some last => ⟨first.span.start, last.span.stop⟩
      | _, _ => .point n.start := by
  have hmap := n.map_token_allTokens
  rw [trimmedSpan, Tree.forestFirstLeaf?_eq, Tree.forestLastLeaf?_eq, ← hmap, leaves]
  rcases List.eq_nil_or_concat n.allTokens with hnil | ⟨init, last, hlast⟩
  · rw [hnil]
    rfl
  · rw [List.concat_eq_append] at hlast
    obtain ⟨first, more, hfirst⟩ : ∃ first more, n.allTokens = first :: more :=
      List.exists_cons_of_ne_nil (by simp [hlast])
    have hstart : first.start = n.start := by
      have h := n.consecutive_allTokens
      rw [hfirst] at h
      exact h.1
    have hstop : last.fullSpan.stop = n.span.stop := by
      have h := n.consecutive_allTokens
      rw [hlast] at h
      rw [h.stop_eq, ← hlast, hmap, span, ← size_text]
      rfl
    have hfind : n.leaves.find? (!·.isTrivia) = some first.core := by
      rw [leaves, hfirst, List.flatMap_cons, List.find?_append, first.find?_pieces.1]
      rfl
    have hfind' : n.leaves.reverse.find? (!·.isTrivia) = some last.core := by
      rw [leaves, hlast, List.flatMap_append, List.reverse_append, List.find?_append,
        List.flatMap_singleton, last.find?_pieces.2]
      rfl
    rw [leaves] at hfind hfind'
    have hhead : (n.allTokens.map TokenRef.token).head? = some first.token := by
      rw [hfirst, List.map_cons, List.head?_cons]
    rw [hfind, hfind', hhead, hlast, List.map_append, List.map_singleton, List.getLast?_concat]
    have hend : n.span.stop - Trivia.sizeOf last.token.trailing = last.core.span.stop := by
      rw [← hstop]
      simp only [TokenRef.fullSpan, Token.fullSize, LeafRef.span, TokenRef.core, TokenRef.span,
        Token.size]
      omega
    simp only [hend]
    rw [span, ← hstart]
    rfl

/-! ## The tokens of a block -/

theorem forestEvents_append (parent : NodeRef) (position offset : Nat) (ss ts : List (Tree Token)) :
    forestEvents parent position offset (ss ++ ts)
      = forestEvents parent position offset ss ++ forestEvents parent (position + ss.length)
        (offset + Text.size (Tree.forestText ss)) ts := by
  induction ss generalizing position offset with
  | nil => rfl
  | cons s ss ih =>
    rw [List.cons_append, forestEvents, forestEvents, ih, Tree.sum_fullSize, List.append_assoc]
    simp [Nat.add_assoc, Nat.add_comm 1]

/-- The tokens of a block are its `{`, those of what stands between its braces, and its `}`. -/
theorem exists_allTokens_of_braces {n : NodeRef} {l r : Token} {items : List (Tree Token)}
    (hi : ∀ u ∈ items, u.IsNode) (hc : n.children = .leaf l :: items ++ [.leaf r]) :
    ∃ first inner last, n.allTokens = first :: inner ++ [last] ∧ n.tokens = [first, last] ∧
      first.token = l ∧ last.token = r ∧ first.parent = n ∧ last.parent = n ∧
      inner.map TokenRef.token = Tree.forestLeaves items := by
  have htokens : n.tokens = [_, _] := @tokens_of_block n l items (some r) hi hc
  refine ⟨_, _, _, ?_, htokens, rfl, rfl, rfl, rfl,
    (consecutive_forestEvents n 1 (n.start + (Tree.leaf l).sum Token.fullSize) items).2⟩
  rw [allTokens_eq, hc, forestEvents_append, forestEvents, List.filterMap_append,
    List.filterMap_append]
  simp [treeEvents, forestEvents, Event.token?]

end NodeRef

end NginxConf
