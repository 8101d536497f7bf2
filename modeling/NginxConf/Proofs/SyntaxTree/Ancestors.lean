import NginxConf.Proofs.SyntaxTree.Tokens

/-!
# The nodes around a node

From a node of a tree, the nodes around it lead upwards to the root. Those below a given node come
first, and then that node and the nodes around it (`NodeRef.exists_ancestors_eq`). So a node is
around each of the tokens that a walk through it meets (`NodeRef.mem_ancestors_of_mem_leaves`), and
the nodes around a node of a tree are nodes of the tree (`NodeRef.ancestors_subset`).
-/

namespace NginxConf

namespace NodeRef

/-! ## Upwards -/

variable {m n : NodeRef} {inner outer : List NodeRef}

theorem ancestors_child (kind : NodeKind) (children : List (Tree Token)) (start : Nat)
    (address : List Nat) (parent : NodeRef) :
    ancestors ⟨⟨kind, children, start, address⟩, parent.toSite :: parent.above⟩
      = ⟨⟨kind, children, start, address⟩, parent.toSite :: parent.above⟩ :: parent.ancestors :=
  rfl

theorem ancestors_eq (n : NodeRef) :
    n.ancestors = n :: (n.parent?.map ancestors).getD [] := by
  obtain ⟨site, above⟩ := n
  cases above <;> rfl

/-- The nodes around a node begin with the node itself. -/
theorem exists_ancestors_cons (n : NodeRef) : ∃ outer, n.ancestors = n :: outer :=
  ⟨_, n.ancestors_eq⟩

theorem mem_ancestors_self (n : NodeRef) : n ∈ n.ancestors := by
  obtain ⟨outer, h⟩ := n.exists_ancestors_cons
  rw [h]
  exact List.mem_cons_self

theorem ancestors_root (t : SyntaxTree) : (root t).ancestors = [root t] := rfl

/-- From each node on the way up, the way is the rest of the way. -/
theorem ancestors_of_append (h : n.ancestors = inner ++ m :: outer) :
    m.ancestors = m :: outer := by
  obtain ⟨site, above⟩ := n
  induction above generalizing site inner with
  | nil =>
    rw [ancestors, withAncestors, eq_comm, List.append_eq_singleton_iff] at h
    rcases h with ⟨-, h⟩ | ⟨-, h⟩
    · cases h
      rfl
    · cases h
  | cons p above ih =>
    rw [ancestors, withAncestors] at h
    cases inner with
    | nil =>
      obtain ⟨rfl, rfl⟩ := List.cons.inj h
      rfl
    | cons k inner => exact ih p (List.cons.inj h).2

/-- On the way up, there are fewer and fewer nodes above. -/
theorem pairwise_ancestors (n : NodeRef) :
    n.ancestors.Pairwise fun k m => m.above.length < k.above.length := by
  obtain ⟨site, above⟩ := n
  have hlength : ∀ (site : Site) (above : List Site), ∀ m ∈ withAncestors site above,
      m.above.length ≤ above.length := by
    intro site above
    induction above generalizing site with
    | nil => simp [withAncestors]
    | cons p above ih =>
      intro m hm
      rcases List.mem_cons.1 hm with rfl | hm
      · exact Nat.le_refl _
      · exact Nat.le_succ_of_le (ih p m hm)
  induction above generalizing site with
  | nil => exact List.pairwise_singleton _ _
  | cons p above ih => exact .cons (fun m hm => Nat.lt_succ_of_le (hlength p above m hm)) (ih p)

/-- Of two different nodes, at most one is around the other. -/
theorem eq_of_mem_ancestors (hm : m ∈ n.ancestors) (hn : n ∈ m.ancestors) : m = n := by
  obtain ⟨outer, h⟩ := n.exists_ancestors_cons
  obtain ⟨outer', h'⟩ := m.exists_ancestors_cons
  have hpairwise := n.pairwise_ancestors
  have hpairwise' := m.pairwise_ancestors
  rw [h, List.pairwise_cons] at hpairwise
  rw [h', List.pairwise_cons] at hpairwise'
  rw [h, List.mem_cons] at hm
  rw [h', List.mem_cons] at hn
  rcases hm with rfl | hm
  · rfl
  · rcases hn with rfl | hn
    · rfl
    · have := hpairwise.1 m hm
      have := hpairwise'.1 n hn
      omega

theorem mem_descendants_self (n : NodeRef) : n ∈ n.descendants := by
  rw [mem_descendants, events_eq]
  exact List.mem_cons_self

/-! ## The node that holds a node -/

mutual

theorem holder_of_mem_treeEvents {k : NodeRef} (parent : NodeRef) (position offset : Nat) :
    (t : Tree Token) → .enter k ∈ treeEvents parent position offset t →
    .node k = parent.place position offset t ∨
      ∃ m, .enter m ∈ treeEvents parent position offset t ∧ k ∈ m.nodes
  | .leaf token, h => by simp [treeEvents] at h
  | .node kind children, h => by
    rw [treeEvents, List.mem_cons, List.mem_append] at h
    simp only [treeEvents, List.mem_cons, List.mem_append]
    rcases h with h | h | h
    · cases h
      exact .inl rfl
    · rcases holder_of_mem_forestEvents _ 0 offset children h with hplace | ⟨m, hm, hk⟩
      · exact .inr ⟨_, .inl rfl, List.mem_filterMap.2 ⟨.node k, hplace, rfl⟩⟩
      · exact .inr ⟨m, .inr (.inl hm), hk⟩
    · simp at h

theorem holder_of_mem_forestEvents {k : NodeRef} (parent : NodeRef) (position offset : Nat) :
    (ts : List (Tree Token)) → .enter k ∈ forestEvents parent position offset ts →
    .node k ∈ parent.placeAll position offset ts ∨
      ∃ m, .enter m ∈ forestEvents parent position offset ts ∧ k ∈ m.nodes
  | [], h => by simp [forestEvents] at h
  | t :: ts, h => by
    rw [forestEvents, List.mem_append] at h
    simp only [forestEvents, List.mem_append]
    rcases h with h | h
    · rcases holder_of_mem_treeEvents parent position offset t h with hplace | ⟨m, hm, hk⟩
      · exact .inl (List.mem_cons.2 (.inl hplace))
      · exact .inr ⟨m, .inl hm, hk⟩
    · rcases holder_of_mem_forestEvents parent (position + 1) _ ts h with hplace | ⟨m, hm, hk⟩
      · exact .inl (List.mem_cons_of_mem _ hplace)
      · exact .inr ⟨m, .inr hm, hk⟩

end

/-- **A node below another one is that one, or the child of a node.** -/
theorem eq_or_mem_nodes {k n : NodeRef} (h : k ∈ n.descendants) :
    k = n ∨ ∃ m ∈ n.descendants, k ∈ m.nodes := by
  rw [mem_descendants, events_eq] at h
  simp only [List.mem_cons, List.mem_append, List.not_mem_nil, or_false, reduceCtorEq] at h
  rcases h with h | h
  · cases h
    exact .inl rfl
  · refine .inr ?_
    rcases holder_of_mem_forestEvents n 0 n.start n.children h with hplace | ⟨m, hm, hk⟩
    · exact ⟨n, n.mem_descendants_self, List.mem_filterMap.2 ⟨.node k, hplace, rfl⟩⟩
    · refine ⟨m, ?_, hk⟩
      rw [mem_descendants, events_eq]
      exact List.mem_cons_of_mem _ (List.mem_append_left _ hm)

/-! ## Nodes of a tree -/

mutual

theorem exists_ancestors_of_mem_treeEvents {k : NodeRef} (parent : NodeRef)
    (position offset : Nat) : (t : Tree Token) →
    .enter k ∈ treeEvents parent position offset t →
    ∃ inner, k.ancestors = inner ++ parent.ancestors ∧
      ∀ m ∈ inner, .enter m ∈ treeEvents parent position offset t ∧ k ∈ m.descendants
  | .leaf token, h => by simp [treeEvents] at h
  | .node kind children, h => by
    rw [treeEvents] at h ⊢
    -- what comes is the whole walk through the node
    have hk := mem_descendants.2 (events_eq _ ▸ h)
    simp only [List.mem_cons, List.mem_append, List.not_mem_nil, or_false, reduceCtorEq] at h ⊢
    rcases h with h | h
    · cases h
      exact ⟨[_], ancestors_child _ _ _ _ _, by simp [hk]⟩
    · obtain ⟨inner, hup, hinner⟩ := exists_ancestors_of_mem_forestEvents _ 0 offset children h
      rw [ancestors_child, List.append_cons] at hup
      refine ⟨_, hup, fun m hm => ?_⟩
      rcases List.mem_append.1 hm with hm | hm
      · exact ⟨.inr (hinner m hm).1, (hinner m hm).2⟩
      · obtain rfl := List.mem_singleton.1 hm
        exact ⟨.inl rfl, hk⟩

theorem exists_ancestors_of_mem_forestEvents {k : NodeRef} (parent : NodeRef)
    (position offset : Nat) : (ts : List (Tree Token)) →
    .enter k ∈ forestEvents parent position offset ts →
    ∃ inner, k.ancestors = inner ++ parent.ancestors ∧
      ∀ m ∈ inner, .enter m ∈ forestEvents parent position offset ts ∧ k ∈ m.descendants
  | [], h => by simp [forestEvents] at h
  | t :: ts, h => by
    simp only [forestEvents, List.mem_append] at h ⊢
    rcases h with h | h
    · obtain ⟨inner, hk, hinner⟩ := exists_ancestors_of_mem_treeEvents parent position offset t h
      exact ⟨inner, hk, fun m hm => ⟨.inl (hinner m hm).1, (hinner m hm).2⟩⟩
    · obtain ⟨inner, hk, hinner⟩ :=
        exists_ancestors_of_mem_forestEvents parent (position + 1) _ ts h
      exact ⟨inner, hk, fun m hm => ⟨.inr (hinner m hm).1, (hinner m hm).2⟩⟩

end

/-- **On the way up from a node below another one, there are the nodes between the two, and then
the nodes on the way up from that one.** -/
theorem exists_ancestors_eq (h : m ∈ n.descendants) :
    ∃ inner, m.ancestors = inner ++ n.ancestors ∧
      ∀ k ∈ inner, k ∈ n.descendants ∧ m ∈ k.descendants := by
  rw [mem_descendants, events_eq] at h
  simp only [List.mem_cons, List.mem_append, List.not_mem_nil, or_false, reduceCtorEq] at h
  rcases h with h | h
  · cases h
    exact ⟨[], rfl, by simp⟩
  · obtain ⟨inner, hm, hinner⟩ := exists_ancestors_of_mem_forestEvents n 0 n.start n.children h
    refine ⟨inner, hm, fun k hk => ⟨?_, (hinner k hk).2⟩⟩
    rw [mem_descendants, events_eq]
    exact List.mem_cons_of_mem _ (List.mem_append_left _ (hinner k hk).1)

/-- A node is around the nodes below it. -/
theorem mem_ancestors_of_mem_descendants (h : m ∈ n.descendants) : n ∈ m.ancestors := by
  obtain ⟨inner, hm, -⟩ := exists_ancestors_eq h
  rw [hm]
  exact List.mem_append_right _ n.mem_ancestors_self

/-- The nodes around a node of a tree are nodes of the tree that have it below them. -/
theorem of_mem_ancestors {t : SyntaxTree} (h : m ∈ (root t).descendants) (hn : n ∈ m.ancestors) :
    n ∈ (root t).descendants ∧ m ∈ n.descendants := by
  obtain ⟨inner, hm, hinner⟩ := exists_ancestors_eq h
  rw [hm, ancestors_root, List.mem_append, List.mem_singleton] at hn
  rcases hn with hn | rfl
  · exact hinner n hn
  · exact ⟨mem_descendants_self _, h⟩

/-- The nodes around a node of a tree are nodes of the tree. -/
theorem ancestors_subset {t : SyntaxTree} (h : m ∈ (root t).descendants) :
    m.ancestors ⊆ (root t).descendants :=
  fun _ hn => (of_mem_ancestors h hn).1

end NodeRef

/-! ## Pieces of text -/

namespace NodeRef

variable {m n : NodeRef} {l : LeafRef}

theorem owner_mem_allTokens (h : l ∈ n.leaves) : l.owner ∈ n.allTokens := by
  obtain ⟨t, ht, hl⟩ := List.mem_flatMap.1 h
  rwa [TokenRef.owner_of_mem_pieces hl]

/-- A piece is held by a node below. -/
theorem leaf_parent_mem_descendants (h : l ∈ n.leaves) : l.parent ∈ n.descendants :=
  (parent_mem_descendants (owner_mem_allTokens h)).1

/-- **A node is around each of its pieces.** -/
theorem mem_ancestors_of_mem_leaves (h : l ∈ n.leaves) : n ∈ l.parent.ancestors :=
  mem_ancestors_of_mem_descendants (leaf_parent_mem_descendants h)

/-- The pieces of a node below another one are a part of the pieces of that one. -/
theorem infix_leaves (h : m ∈ n.descendants) : m.leaves <:+: n.leaves := by
  obtain ⟨before, after, htokens⟩ := infix_allTokens h
  refine ⟨before.flatMap TokenRef.pieces, after.flatMap TokenRef.pieces, ?_⟩
  rw [leaves, leaves, ← htokens, List.flatMap_append, List.flatMap_append]

end NodeRef

end NginxConf
