import NginxConf.Proofs.SyntaxTree.Placed
import NginxConf.Proofs.SyntaxTree.Tokens
import NginxConf.SyntaxTree.View

/-!
# Tokens by the nodes that hold them

Each token of a tree belongs to one node, so all tokens are those of the nodes, in another order
(`NodeRef.perm_allTokens`). In a node each token has an address of its own
(`NodeRef.nodup_address_tokens`), and in the order of the text tokens do not overlap
(`NodeRef.pairwise_stop_allTokens`).
-/

namespace NginxConf

theorem TokenRef.start_lt_stop {t : TokenRef} (h : t.token.text ≠ []) :
    t.span.start < t.span.stop := by
  have hsize : t.token.size ≠ 0 := fun hzero => h (Text.size_eq_zero.1 hzero)
  simp only [TokenRef.span]
  omega

namespace NodeRef

mutual

theorem perm_treeEvents (parent : NodeRef) (position offset : Nat) : (t : Tree Token) →
    ((treeEvents parent position offset t).filterMap Event.token?).Perm
      ((parent.place position offset t).token?.toList
        ++ ((treeEvents parent position offset t).filterMap Event.entered?).flatMap tokens)
  | .leaf token => .refl _
  | .node kind children => by
    have hinner := perm_forestEvents
      ⟨⟨kind, children, offset, position :: parent.address⟩, parent.toSite :: parent.above⟩ 0
      offset children
    simp only [treeEvents, List.filterMap_cons, List.filterMap_append, List.filterMap_nil,
      Event.token?, Event.entered?, List.append_nil, List.flatMap_cons]
    rw [tokens_eq]
    exact hinner

theorem perm_forestEvents (parent : NodeRef) (position offset : Nat) : (ts : List (Tree Token)) →
    ((forestEvents parent position offset ts).filterMap Event.token?).Perm
      ((parent.placeAll position offset ts).filterMap ElementRef.token?
        ++ ((forestEvents parent position offset ts).filterMap Event.entered?).flatMap tokens)
  | [] => .refl _
  | t :: ts => by
    have htree := perm_treeEvents parent position offset t
    have hforest := perm_forestEvents parent (position + 1) (offset + t.sum Token.fullSize) ts
    have hplace : (parent.placeAll position offset (t :: ts)).filterMap ElementRef.token?
        = (parent.place position offset t).token?.toList
          ++ (parent.placeAll (position + 1) (offset + t.sum Token.fullSize) ts).filterMap
            ElementRef.token? := by
      rw [placeAll, List.filterMap_cons]
      cases (parent.place position offset t).token? <;> rfl
    rw [hplace, forestEvents, List.filterMap_append, List.filterMap_append, List.flatMap_append]
    refine (htree.append hforest).trans ?_
    rw [List.append_assoc, List.append_assoc]
    refine .append (.refl _) ?_
    rw [← List.append_assoc, ← List.append_assoc]
    exact .append List.perm_append_comm (.refl _)

end

/-- **All tokens are the tokens of the nodes**, in another order. -/
theorem perm_allTokens (n : NodeRef) : n.allTokens.Perm (n.descendants.flatMap tokens) := by
  rw [allTokens_eq, descendants_eq, List.flatMap_cons, tokens_eq]
  exact perm_forestEvents n 0 n.start n.children

/-- What is picked of the tokens, where each node has at most one token to pick. -/
theorem perm_filterMap_allTokens {β : Type} {f : TokenRef → Option β} {g : NodeRef → Option β}
    {n : NodeRef} (h : ∀ m ∈ n.descendants, m.tokens.filterMap f = (g m).toList) :
    (n.allTokens.filterMap f).Perm (n.descendants.filterMap g) := by
  refine (n.perm_allTokens.filterMap f).trans (.of_eq ?_)
  rw [List.filterMap_flatMap, List.flatMap_congr h, List.filterMap_eq_flatMap_toList]

/-! ## The tokens of one node -/

theorem address_of_mem_placeAll {parent : NodeRef} {position offset : Nat} {ts : List (Tree Token)}
    {t : TokenRef} (h : .token t ∈ parent.placeAll position offset ts) :
    t.parent = parent ∧ ∃ i, position ≤ i ∧ t.address = i :: parent.address := by
  induction ts generalizing position offset with
  | nil => cases h
  | cons u us ih =>
    rcases List.mem_cons.1 h with h | h
    · cases u with
      | leaf token =>
        rw [place] at h
        cases h
        exact ⟨rfl, position, Nat.le_refl _, rfl⟩
      | node kind children => rw [place] at h; cases h
    · obtain ⟨hparent, i, hi, haddress⟩ := ih h
      exact ⟨hparent, i, Nat.le_of_succ_le hi, haddress⟩

theorem mem_tokens {n : NodeRef} {t : TokenRef} :
    t ∈ n.tokens ↔ .token t ∈ n.placeAll 0 n.start n.children := by
  rw [tokens_eq, List.mem_filterMap]
  constructor
  · rintro ⟨e, he, ht⟩
    cases e with
    | node m => cases ht
    | token u => cases ht; exact he
  · exact fun h => ⟨_, h, rfl⟩

/-- A token of a node is held by it. -/
theorem parent_of_mem_tokens {n : NodeRef} {t : TokenRef} (h : t ∈ n.tokens) : t.parent = n :=
  (address_of_mem_placeAll (mem_tokens.1 h)).1

/-- **Each token of a node has an address of its own.** -/
theorem nodup_address_tokens (n : NodeRef) : (n.tokens.map (·.address)).Nodup := by
  have hplace : ∀ (position offset : Nat) (ts : List (Tree Token)),
      (((n.placeAll position offset ts).filterMap ElementRef.token?).map (·.address)).Nodup := by
    intro position offset ts
    induction ts generalizing position offset with
    | nil => exact .nil
    | cons t ts ih =>
      rw [placeAll, List.filterMap_cons]
      cases t with
      | node kind children => exact ih _ _
      | leaf token =>
        rw [place]
        refine List.nodup_cons.2 ⟨fun hmem => ?_, ih _ _⟩
        obtain ⟨u, hu, haddress⟩ := List.mem_map.1 hmem
        obtain ⟨e, he, htoken⟩ := List.mem_filterMap.1 hu
        cases e with
        | node m => cases htoken
        | token v =>
          cases htoken
          obtain ⟨-, i, hi, hv⟩ := address_of_mem_placeAll he
          have : i = position := (List.cons.inj (hv.symm.trans haddress)).1
          omega
  rw [tokens_eq]
  exact hplace 0 n.start n.children

/-- What is picked of the tokens of a node, where only one of them has anything to pick. -/
theorem filterMap_tokens {β : Type} {f : TokenRef → Option β} {n : NodeRef} {t : TokenRef}
    (ht : t ∈ n.tokens) (hf : ∀ u ∈ n.tokens, t.address ≠ u.address → f u = none) :
    n.tokens.filterMap f = (f t).toList := by
  have hnodup := n.nodup_address_tokens
  obtain ⟨before, after, hsplit⟩ := List.append_of_mem ht
  rw [hsplit, List.map_append, List.map_cons] at hnodup
  have hne := (List.nodup_cons.1 (List.perm_middle.nodup_iff.1 hnodup)).1
  rw [← List.map_append] at hne
  have hother : ∀ u ∈ before ++ after, f u = none := by
    intro u hu
    refine hf u ?_ fun haddress => hne (haddress ▸ List.mem_map_of_mem hu)
    rw [hsplit, List.mem_append, List.mem_cons]
    exact (List.mem_append.1 hu).imp_right .inr
  have hbefore := List.filterMap_eq_nil_iff.2 fun u hu => hother u (List.mem_append_left _ hu)
  have hafter := List.filterMap_eq_nil_iff.2 fun u hu => hother u (List.mem_append_right _ hu)
  rw [hsplit, List.filterMap_append, hbefore, List.nil_append, List.filterMap_cons, hafter]
  cases f t <;> rfl

theorem token?_eq_some {n : NodeRef} {kind : TokenKind} {t : TokenRef}
    (h : n.token? kind = some t) : t ∈ n.tokens ∧ t.token.kind = kind :=
  ⟨List.mem_of_find?_eq_some h,
    beq_iff_eq.1 (List.find?_some (p := fun t : TokenRef => t.token.kind == kind) h)⟩

/-- Where a node has one token of a kind, at most, that is the first one. -/
theorem filter_tokens {n : NodeRef} {kind : TokenKind}
    (h : (n.tokens.map (·.token.kind)).count kind ≤ 1) :
    n.tokens.filter (·.token.kind == kind) = (n.token? kind).toList := by
  have hlength : (n.tokens.filter (·.token.kind == kind)).length ≤ 1 := by
    rwa [List.count, List.countP_map, List.countP_eq_length_filter] at h
  rw [token?, ← List.head?_filter]
  cases hfilter : n.tokens.filter (·.token.kind == kind) with
  | nil => rfl
  | cons t ts =>
    rw [hfilter, List.length_cons] at hlength
    rw [List.length_eq_zero_iff.1 (Nat.le_zero.1 (Nat.le_of_succ_le_succ hlength))]
    rfl

/-- The only token of its kind in a node is the first one. -/
theorem token?_of_count {n : NodeRef} {t : TokenRef} (ht : t ∈ n.tokens)
    (h : (n.tokens.map (·.token.kind)).count t.token.kind ≤ 1) :
    n.token? t.token.kind = some t := by
  have hmem : t ∈ n.tokens.filter (·.token.kind == t.token.kind) :=
    List.mem_filter.2 ⟨ht, beq_self_eq_true _⟩
  rw [filter_tokens h] at hmem
  exact Option.mem_toList.1 hmem

/-- The tokens of a node with two leaves: those before the one, those from the one to the other, and
those behind. -/
theorem exists_allTokens_of_leaves {n : NodeRef} {before middle after : List (Tree Token)}
    {l r : Token} (h : n.children = before ++ .leaf l :: (middle ++ .leaf r :: after)) :
    ∃ left t inner u right, n.allTokens = left ++ t :: (inner ++ u :: right) ∧ t ∈ n.tokens ∧
      u ∈ n.tokens ∧ t.token = l ∧ u.token = r ∧
      inner.map TokenRef.token = Tree.forestLeaves middle := by
  have hevents : n.allTokens = (forestEvents n 0 n.start n.children).filterMap Event.token? :=
    allTokens_eq n
  have hmem {t : TokenRef} : t ∈ n.tokens ↔ .token t ∈ n.placeAll 0 n.start n.children := mem_tokens
  rw [h] at hevents hmem
  simp only [forestEvents_append, forestEvents, treeEvents, List.filterMap_append,
    List.filterMap_cons, Event.token?, List.singleton_append] at hevents
  simp only [placeAll_append, placeAll, place, List.mem_append, List.mem_cons] at hmem
  exact ⟨_, _, _, _, _, hevents, hmem.2 (.inr (.inl rfl)), hmem.2 (.inr (.inr (.inr (.inl rfl)))),
    rfl, rfl, (consecutive_forestEvents n _ _ middle).2⟩

/-! ## The tokens of a child -/

/-- The walk through a child is a part of the walk through the children. -/
theorem exists_split_of_mem_placeAll {m n : NodeRef} {position offset : Nat}
    {ts : List (Tree Token)} (h : .node m ∈ n.placeAll position offset ts) :
    ∃ us vs later, ts = us ++ .node m.kind m.children :: vs ∧
      forestEvents n position offset ts
        = forestEvents n position offset us ++ (m.events ++ later) := by
  induction ts generalizing position offset with
  | nil => cases h
  | cons t ts ih =>
    rcases List.mem_cons.1 h with h | h
    · cases t with
      | leaf token => cases h
      | node kind children =>
        cases h
        refine ⟨[], ts, forestEvents n (position + 1)
          (offset + (Tree.node kind children).sum Token.fullSize) ts, rfl, ?_⟩
        rw [events_eq]
        rfl
    · obtain ⟨us, vs, later, rfl, hevents⟩ := ih h
      refine ⟨t :: us, vs, later, rfl, ?_⟩
      rw [forestEvents, forestEvents, hevents, List.append_assoc]

/-- **The tokens of a child stand behind those of the children before it.** -/
theorem exists_split_of_mem_nodes {m n : NodeRef} (h : m ∈ n.nodes) : ∃ us vs left right,
    n.children = us ++ .node m.kind m.children :: vs ∧
      n.allTokens = left ++ (m.allTokens ++ right) ∧
      left.map TokenRef.token = Tree.forestLeaves us := by
  obtain ⟨e, he, hm⟩ := List.mem_filterMap.1 h
  cases e with
  | token t => cases hm
  | node k =>
    cases hm
    obtain ⟨us, vs, later, hchildren, hevents⟩ := exists_split_of_mem_placeAll he
    refine ⟨us, vs, _, later.filterMap Event.token?, hchildren, ?_,
      (consecutive_forestEvents n 0 n.start us).2⟩
    rw [allTokens_eq, hevents, List.filterMap_append, List.filterMap_append]
    rfl

/-! ## Tokens do not overlap -/

/-- Tokens that stand one after the other do not overlap. -/
theorem Consecutive.pairwise_stop {offset : Nat} {ts : List TokenRef} (h : Consecutive offset ts) :
    ts.Pairwise fun t u => t.span.stop ≤ u.span.start := by
  induction ts generalizing offset with
  | nil => exact .nil
  | cons t ts ih =>
    refine List.pairwise_cons.2 ⟨fun u hu => ?_, ih h.2⟩
    have hstart : t.start = offset := h.1
    have hu := h.2.le_start u hu
    simp only [Token.fullSize] at hu
    simp only [TokenRef.span]
    omega

/-- **No two tokens overlap.** -/
theorem pairwise_stop_allTokens (n : NodeRef) :
    n.allTokens.Pairwise fun t u => t.span.stop ≤ u.span.start :=
  n.consecutive_allTokens.pairwise_stop

/-- Tokens that begin at the same offset are the same, unless one of them is empty. -/
theorem eq_of_start_eq {n : NodeRef} {t u : TokenRef} (ht : t ∈ n.allTokens)
    (hu : u ∈ n.allTokens) (htext : t.token.text ≠ []) (hutext : u.token.text ≠ [])
    (h : t.span.start = u.span.start) : t = u := by
  obtain ⟨before, after, hsplit⟩ := List.append_of_mem ht
  have hpairwise := n.pairwise_stop_allTokens
  rw [hsplit] at hpairwise hu
  obtain ⟨-, htail, hcross⟩ := List.pairwise_append.1 hpairwise
  rcases List.mem_append.1 hu with hu | hu
  · have := hcross u hu t List.mem_cons_self
    have := TokenRef.start_lt_stop hutext
    omega
  · rcases List.mem_cons.1 hu with rfl | hu
    · rfl
    · have := (List.pairwise_cons.1 htail).1 u hu
      have := TokenRef.start_lt_stop htext
      omega

end NodeRef

end NginxConf
