import NginxConf.Proofs.Arena.Search
import NginxConf.Proofs.Parse.Pieces

/-!
# Looking up elements of a parsed text

In the tree of a text, the piece at the start of a range leads to the smallest element that covers
the range (`covering_smallest`), and where a node is looked up by its kind and range, to the
innermost node that has them (`resolve?_innermost`).
-/

namespace NginxConf

variable {s : Text}

/-! ## The smallest element around a range -/

/--
**The smallest element around a range is found.** Around a range that is not empty it is the piece
of text that covers the range, if there is one, and else a node that covers it while no child node
does. Around an empty range it is a piece that the range touches. The same element is found in the
arena of the tree.
-/
theorem covering_smallest (s : Text) {range : Span} (hrange : range.start ≤ range.stop)
    (hstop : range.stop ≤ Text.size s) :
    (range.start < range.stop →
      (∀ l ∈ (NodeRef.root (parse s).tree).leaves, l.span.contains range = true →
        (NodeRef.root (parse s).tree).covering range = .leaf l) ∧
      ((∀ l ∈ (NodeRef.root (parse s).tree).leaves, l.span.contains range = false) →
        ∃ n ∈ (NodeRef.root (parse s).tree).descendants,
          (NodeRef.root (parse s).tree).covering range = .node n ∧
            n.span.contains range = true ∧ ∀ m ∈ n.nodes, m.span.contains range = false)) ∧
    (range.start = range.stop → ∃ l ∈ (NodeRef.root (parse s).tree).leaves,
      (NodeRef.root (parse s).tree).covering range = .leaf l ∧
        l.span.touches range.start = true) ∧
    ((Arena.ofTree (parse s).tree).covering? 0 range).bind (Arena.Child.cover? (parse s).tree)
      = some ((NodeRef.root (parse s).tree).covering range) := by
  refine ⟨fun hlt => ?_, fun heq => ?_, Arena.covering?_eq (SyntaxTree.nodeAt?_zero _) range⟩
  · obtain ⟨l, hl, hright, haround⟩ := exists_right_around (Nat.lt_of_lt_of_le hlt hstop)
    refine ⟨fun m hm hcontains => ?_, fun hnone => ?_⟩
    · obtain ⟨hstart, hend⟩ := Span.contains_iff.1 hcontains
      obtain rfl := NodeRef.leaf_eq_of_around hl hm haround ⟨hstart, by omega⟩
      exact NodeRef.covering_of_contains hright hcontains
    · have hroot : (NodeRef.root (parse s).tree).span.contains range = true := by
        rw [span_root_parse]
        exact Span.contains_iff.2 ⟨Nat.zero_le _, hstop⟩
      obtain ⟨n, inner, outer, hcovering, hn, hup, hinner⟩ :=
        NodeRef.exists_covering_of_not_contains hright (hnone l hl)
          (NodeRef.mem_ancestors_of_mem_leaves hl) hroot
      have hmem : n ∈ l.parent.ancestors := by simp [hup]
      exact ⟨n, NodeRef.ancestors_subset (NodeRef.leaf_parent_mem_descendants hl) hmem, hcovering,
        hn, fun m hm => NodeRef.covering_lowest hl hup hinner haround hlt hm⟩
  · have ht : (NodeRef.root (parse s).tree).span.touches range.start = true := by
      rw [span_root_parse]
      exact Span.touches_iff.2 ⟨Nat.zero_le _, Nat.le_trans hrange hstop⟩
    obtain ⟨l, hl, hright, htouches, -⟩ :=
      NodeRef.exists_right_of_touches ht (leaves_ne_nil_parse s)
    refine ⟨l, hl, ?_, htouches⟩
    exact NodeRef.covering_of_contains hright
      (Span.contains_iff.2 (heq ▸ Span.touches_iff.1 htouches))

/-- A word with the blank before it is covered by a node, for no piece of text covers both. -/
theorem covering_smallest_blank_and_word :
    ∃ n ∈ (NodeRef.root (parse " a;".toList).tree).descendants,
      (NodeRef.root (parse " a;".toList).tree).covering ⟨0, 2⟩ = .node n ∧
        n.span.contains ⟨0, 2⟩ = true ∧ ∀ m ∈ n.nodes, m.span.contains ⟨0, 2⟩ = false := by
  have hnone : ∀ l ∈ (NodeRef.root (parse " a;".toList).tree).leaves,
      l.span.contains ⟨0, 2⟩ = false := by decide +kernel
  have hstop : (⟨0, 2⟩ : Span).stop ≤ Text.size " a;".toList := by decide +kernel
  exact ((covering_smallest " a;".toList (by decide) hstop).1 (by decide)).2 hnone

/-! ## The innermost node of a kind and a range -/

/-- A node is on the way up from where its range is looked up. -/
theorem mem_ancestors_nearestNode {n : NodeRef}
    (hn : n ∈ (NodeRef.root (parse s).tree).descendants) :
    n ∈ ((NodeRef.root (parse s).tree).covering n.trimmedSpan).nearestNode.ancestors := by
  obtain ⟨t, more, ht⟩ := List.exists_cons_of_ne_nil (allTokens_ne_nil hn)
  have hright := right?_leafAt_first hn ht
  rw [← NodeRef.trimmedSpan_start ht] at hright
  have hup : n ∈ t.core.parent.ancestors := by
    have hparent := (NodeRef.parent_mem_descendants (n := n) (t := t) (by simp [ht])).1
    exact NodeRef.mem_ancestors_of_mem_descendants hparent
  cases hcontains : t.core.span.contains n.trimmedSpan with
  | true =>
    rw [NodeRef.covering_of_contains hright hcontains]
    exact hup
  | false =>
    obtain ⟨m, inner, outer, hcovering, -, hsplit, hinner⟩ :=
      NodeRef.exists_covering_of_not_contains hright hcontains hup n.contains_trimmedSpan
    rw [hcovering, Cover.nearestNode, NodeRef.ancestors_of_append hsplit]
    rw [hsplit, List.mem_append] at hup
    refine hup.resolve_left fun hmem => ?_
    have := hinner n hmem
    rw [n.contains_trimmedSpan] at this
    cases this

/-- What is found is a node that has the key, and each node that has it is this one or around it. -/
theorem NodeKey.of_resolve? {k : NodeKey} {n : NodeRef}
    (h : k.resolve? (.root (parse s).tree) = some n) :
    n ∈ (NodeRef.root (parse s).tree).descendants ∧ .ofNode n = k ∧
      ∀ m ∈ (NodeRef.root (parse s).tree).descendants, .ofNode m = k → m ∈ n.ancestors := by
  replace h : ((NodeRef.root (parse s).tree).covering k.span).nearestNode.ancestors.find? k.describes
      = some n := h
  obtain ⟨hn, inner, outer, hup, hinner⟩ := List.find?_eq_some_iff_append.1 h
  have hnear := NodeRef.nearestNode_covering_mem (parse s).tree k.span
  refine ⟨NodeRef.ancestors_subset hnear (List.mem_of_find?_eq_some h), describes_iff.1 hn, ?_⟩
  rintro m hm rfl
  have hmem : m ∈ ((NodeRef.root (parse s).tree).covering (ofNode m).span).nearestNode.ancestors :=
    mem_ancestors_nearestNode hm
  rw [hup, List.mem_append] at hmem
  rw [NodeRef.ancestors_of_append hup]
  refine hmem.resolve_left fun hmem => ?_
  simpa [describes_iff.2 rfl] using hinner m hmem

/-- A key that a node has is found. -/
theorem NodeKey.exists_resolve? {n : NodeRef}
    (hn : n ∈ (NodeRef.root (parse s).tree).descendants) :
    ∃ m, (ofNode n).resolve? (.root (parse s).tree) = some m := by
  refine Option.isSome_iff_exists.1 (List.find?_isSome.2 ?_)
  exact ⟨n, mem_ancestors_nearestNode hn, describes_iff.2 rfl⟩

/--
**A node is found by its kind and its range without trivia.** Something is found exactly when a node
of the tree has the kind and the range, and then it is the innermost such node: all others are around
it. So the key of a node leads back to the node, in every tree that is the same, unless a node below
it has the same key. The same node is found in the arena of the tree.
-/
theorem resolve?_innermost (s : Text) :
    (∀ k : NodeKey, (k.resolve? (.root (parse s).tree)).isSome = true ↔
      ∃ n ∈ (NodeRef.root (parse s).tree).descendants,
        k.kind = .node n.kind ∧ k.span = n.trimmedSpan) ∧
    (∀ k n, NodeKey.resolve? k (.root (parse s).tree) = some n →
      n ∈ (NodeRef.root (parse s).tree).descendants ∧
        (k.kind = .node n.kind ∧ k.span = n.trimmedSpan) ∧
        ∀ m ∈ (NodeRef.root (parse s).tree).descendants,
          k.kind = .node m.kind ∧ k.span = m.trimmedSpan → m ∈ n.ancestors) ∧
    (∀ n ∈ (NodeRef.root (parse s).tree).descendants, ∀ t, t = (parse s).tree →
      ((NodeKey.ofNode n).resolve? (.root t) = some n ↔
        ∀ m ∈ n.descendants, m.kind = n.kind → m.trimmedSpan = n.trimmedSpan → m = n)) ∧
    ∀ k : NodeKey, ∃ r, (Arena.ofTree (parse s).tree).resolve? k 0 = some r ∧
      Option.Rel (fun i n => (parse s).tree.nodeAt? i = some n) r
        (k.resolve? (.root (parse s).tree)) := by
  refine ⟨fun k => ⟨fun h => ?_, ?_⟩, fun k n h => ?_, ?_,
    Arena.resolve?_eq (SyntaxTree.nodeAt?_zero _)⟩
  · obtain ⟨n, h⟩ := Option.isSome_iff_exists.1 h
    obtain ⟨hn, hkey, -⟩ := NodeKey.of_resolve? h
    exact ⟨n, hn, NodeKey.ofNode_eq_iff.1 hkey⟩
  · rintro ⟨n, hn, hkey⟩
    obtain rfl := NodeKey.ofNode_eq_iff.2 hkey
    exact Option.isSome_iff_exists.2 (NodeKey.exists_resolve? hn)
  · obtain ⟨hn, hkey, haround⟩ := NodeKey.of_resolve? h
    exact ⟨hn, NodeKey.ofNode_eq_iff.1 hkey,
      fun m hm hm' => haround m hm (NodeKey.ofNode_eq_iff.2 hm')⟩
  · rintro n hn t rfl
    constructor
    · intro h m hm hkind hspan
      obtain ⟨-, -, haround⟩ := NodeKey.of_resolve? h
      have hkey : NodeKey.ofNode m = .ofNode n := by
        rw [NodeKey.ofNode, NodeKey.ofNode, hkind, hspan]
      exact NodeRef.eq_of_mem_ancestors (haround m (NodeRef.descendants_subset hn hm) hkey)
        (NodeRef.mem_ancestors_of_mem_descendants hm)
    · intro hlowest
      obtain ⟨m, h⟩ := NodeKey.exists_resolve? hn
      obtain ⟨hm, hkey, haround⟩ := NodeKey.of_resolve? h
      obtain ⟨hkind, hspan⟩ := NodeKey.ofNode_eq_iff.1 hkey
      obtain rfl := hlowest m (NodeRef.of_mem_ancestors hm (haround n hn rfl)).2
        (Kind.node.inj hkind.symm) hspan.symm
      exact h

/-- The directive has the range of the whole file, but is found by its kind. -/
theorem resolve?_innermost_directive :
    ∃ n ∈ (NodeRef.root (parse "a;".toList).tree).descendants,
      n.kind = .directive ∧ n.trimmedSpan = (NodeRef.root (parse "a;".toList).tree).trimmedSpan ∧
        (NodeKey.ofNode n).resolve? (.root (parse "a;".toList).tree) = some n := by
  have hfound : ∃ n ∈ (NodeRef.root (parse "a;".toList).tree).descendants, n.kind = .directive ∧
      n.trimmedSpan = (NodeRef.root (parse "a;".toList).tree).trimmedSpan ∧
      n.descendants.length = 1 := by decide +kernel
  obtain ⟨n, hn, hkind, hspan, hlength⟩ := hfound
  have halone : ∀ m ∈ n.descendants, m = n := by
    obtain ⟨k, hk⟩ := List.length_eq_one_iff.1 hlength
    have hself := n.mem_descendants_self
    rw [hk, List.mem_singleton] at hself
    intro m hm
    rw [hk, List.mem_singleton] at hm
    rw [hm, hself]
  refine ⟨n, hn, hkind, hspan, ?_⟩
  exact ((resolve?_innermost "a;".toList).2.2.1 n hn _ rfl).2 fun m hm _ _ => halone m hm

end NginxConf
