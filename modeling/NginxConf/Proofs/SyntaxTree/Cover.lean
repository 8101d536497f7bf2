import NginxConf.Proofs.SyntaxTree.Ancestors
import NginxConf.Proofs.SyntaxTree.Search

/-!
# The smallest element around a range

A byte of the text of a node lies in one piece of it (`NodeRef.exists_leaf_around`,
`NodeRef.leaf_eq_of_around`). The nodes that hold the byte are therefore those around that piece, and
the first of them on the way up that covers a range from the byte on has no child that covers it, too
(`NodeRef.covering_lowest`).
-/

namespace NginxConf

theorem Span.contains_iff {outer inner : Span} :
    outer.contains inner = true ↔ outer.start ≤ inner.start ∧ inner.stop ≤ outer.stop := by
  simp [contains]

theorem Span.touches_iff {r : Span} {offset : Nat} :
    r.touches offset = true ↔ r.start ≤ offset ∧ offset ≤ r.stop := by
  simp [touches]

/-- The byte behind an offset lies in the piece. -/
def LeafRef.Around (l : LeafRef) (offset : Nat) : Prop :=
  l.span.start ≤ offset ∧ offset < l.span.stop

theorem Tiled.exists_around {ls : List LeafRef} {start offset : Nat} {s : Text}
    (h : Tiled start ls s) (hstart : start ≤ offset) (hstop : offset < start + Text.size s) :
    ∃ l ∈ ls, l.Around offset := by
  induction ls generalizing start s with
  | nil =>
    rw [show s = [] from h, Text.size_nil] at hstop
    omega
  | cons l ls ih =>
    obtain ⟨hl, rest, rfl, hrest⟩ := h
    rw [Text.size_append] at hstop
    by_cases hlt : offset < start + Text.size l.text
    · refine ⟨l, List.mem_cons_self, ?_, ?_⟩
      · rw [LeafRef.span_start, hl]
        exact hstart
      · rw [LeafRef.span, hl]
        exact hlt
    · obtain ⟨m, hm, haround⟩ := ih hrest (Nat.not_lt.1 hlt) (by omega)
      exact ⟨m, List.mem_cons_of_mem _ hm, haround⟩

namespace NodeRef

variable {n : NodeRef} {l m : LeafRef} {offset : Nat}

/-- Each byte of a node lies in a piece of it. -/
theorem exists_leaf_around (hstart : n.span.start ≤ offset) (hstop : offset < n.span.stop) :
    ∃ l ∈ n.leaves, l.Around offset := by
  rw [span, ← size_text] at hstop
  exact n.tiled_leaves.exists_around hstart hstop

/-- A byte does not lie in two pieces. -/
theorem leaf_eq_of_around (hl : l ∈ n.leaves) (hm : m ∈ n.leaves) (hlo : l.Around offset)
    (hmo : m.Around offset) : m = l := by
  obtain ⟨before, after, h⟩ := List.append_of_mem hl
  have hamid := amid_leaves h
  rw [h, List.mem_append, List.mem_cons] at hm
  obtain ⟨hl₁, hl₂⟩ := hlo
  obtain ⟨hm₁, hm₂⟩ := hmo
  rcases hm with hm | rfl | hm
  · have := hamid.of_before m hm
    omega
  · rfl
  · have := hamid.of_after m hm
    omega

/-- What is found at an offset is a piece of the node. -/
theorem mem_leaves_of_right? (h : (n.leafAt offset).right? = some l) : l ∈ n.leaves := by
  have hsome : n.leafAt offset ≠ .none := fun hnone => by
    rw [hnone] at h
    cases h
  have ht : n.span.touches offset = true :=
    Bool.not_eq_false _ ▸ fun ht => hsome (leafAt_of_not_touches ht)
  obtain ⟨m, hm, hright, -, -⟩ :=
    exists_right_of_touches ht fun hnil => hsome (leafAt_of_leaves_nil hnil)
  rw [h] at hright
  cases hright
  exact hm

/-! ## Without trivia -/

theorem contains_trimmedSpan (n : NodeRef) : n.span.contains n.trimmedSpan = true := by
  rw [Span.contains_iff, trimmedSpan]
  split
  · exact ⟨Nat.le_add_right _ _, Nat.sub_le _ _⟩
  · exact ⟨Nat.le_refl _, Nat.le_add_right _ _⟩

theorem trimmedSpan_start_le (n : NodeRef) : n.trimmedSpan.start ≤ n.trimmedSpan.stop := by
  rw [trimmedSpan_eq_find?]
  split
  · next first last hfirst hlast =>
    obtain ⟨-, before, after, h, hbefore⟩ := List.find?_eq_some_iff_append.1 hfirst
    have hamid := amid_leaves h
    have hmem : last ∈ n.leaves := List.mem_reverse.1 (List.mem_of_find?_eq_some hlast)
    rw [h, List.mem_append, List.mem_cons] at hmem
    rcases hmem with hmem | rfl | hmem
    · have htrivia := hbefore last hmem
      rw [List.find?_some hlast] at htrivia
      cases htrivia
    · exact last.start_le_stop
    · have hafter := (hamid.of_after last hmem).1
      exact Nat.le_trans first.start_le_stop (Nat.le_trans hafter last.start_le_stop)
  · exact Nat.le_refl _

/-! ## The way up -/

theorem above_of_mem_nodes {m n : NodeRef} (h : m ∈ n.nodes) :
    m.above = n.toSite :: n.above := by
  have hplace : ∀ (position offset : Nat) (ts : List (Tree Token)),
      .node m ∈ n.placeAll position offset ts → m.above = n.toSite :: n.above := by
    intro position offset ts
    induction ts generalizing position offset with
    | nil => exact fun h => nomatch h
    | cons t ts ih =>
      intro h
      rcases List.mem_cons.1 h with h | h
      · cases t with
        | leaf token => cases h
        | node kind children =>
          rw [place] at h
          cases h
          rfl
      · exact ih _ _ h
  obtain ⟨e, he, hm⟩ := List.mem_filterMap.1 h
  cases e with
  | token t => cases hm
  | node k =>
    cases hm
    exact hplace 0 n.start n.children he

variable {t : SyntaxTree} {range : Span}

theorem covering_of_contains (hl : ((root t).leafAt range.start).right? = some l)
    (h : l.span.contains range = true) : (root t).covering range = .leaf l := by
  rw [covering, hl]
  exact if_pos h

/-- Where the piece does not cover a range, the first node around it that does is taken. -/
theorem exists_covering_of_not_contains {k : NodeRef}
    (hl : ((root t).leafAt range.start).right? = some l) (h : l.span.contains range = false)
    (hk : k ∈ l.parent.ancestors) (hcontains : k.span.contains range = true) :
    ∃ n inner outer, (root t).covering range = .node n ∧ n.span.contains range = true ∧
      l.parent.ancestors = inner ++ n :: outer ∧ ∀ m ∈ inner, m.span.contains range = false := by
  cases hfind : l.parent.ancestors.find? fun m => m.span.contains range with
  | none => exact absurd hcontains (List.find?_eq_none.1 hfind k hk)
  | some n =>
    obtain ⟨hn, inner, outer, hup, hinner⟩ := List.find?_eq_some_iff_append.1 hfind
    refine ⟨n, inner, outer, ?_, hn, hup, fun m hm => by simpa using hinner m hm⟩
    rw [covering, hl]
    simp only [h, Bool.false_eq_true, if_false, hfind, Option.getD_some]

/-- The node that covers a range, or that holds the piece which does, is one of the tree. -/
theorem nearestNode_covering_mem (t : SyntaxTree) (range : Span) :
    ((root t).covering range).nearestNode ∈ (root t).descendants := by
  rw [covering]
  split
  · exact mem_descendants_self _
  · next l hl =>
    have hparent := leaf_parent_mem_descendants (mem_leaves_of_right? hl)
    split
    · exact hparent
    · cases hfind : l.parent.ancestors.find? fun m => m.span.contains range with
      | none => exact mem_descendants_self _
      | some n => exact ancestors_subset hparent (List.mem_of_find?_eq_some hfind)

/-- The first node on the way up that covers a range has no child that covers it. -/
theorem covering_lowest {inner outer : List NodeRef} {n m : NodeRef} (hl : l ∈ (root t).leaves)
    (hup : l.parent.ancestors = inner ++ n :: outer)
    (hinner : ∀ k ∈ inner, k.span.contains range = false) (haround : l.Around range.start)
    (hrange : range.start < range.stop) (hm : m ∈ n.nodes) : m.span.contains range = false := by
  refine Bool.not_eq_true _ ▸ fun hcontains => ?_
  have hn : n ∈ (root t).descendants := by
    refine ancestors_subset (leaf_parent_mem_descendants hl) ?_
    rw [hup]
    simp
  have hmt : m ∈ (root t).descendants := descendants_subset hn (mem_descendants_of_mem_nodes hm)
  obtain ⟨hstart, hstop⟩ := Span.contains_iff.1 hcontains
  -- the piece lies in the child, so the child is on the way up
  obtain ⟨k, hk, hkaround⟩ := exists_leaf_around hstart (Nat.lt_of_lt_of_le hrange hstop)
  rw [leaf_eq_of_around hl ((infix_leaves hmt).subset hk) haround hkaround] at hk
  have hup' := mem_ancestors_of_mem_leaves hk
  have hpairwise := pairwise_ancestors l.parent
  have habove : m.above.length = n.above.length + 1 := by
    rw [above_of_mem_nodes hm, List.length_cons]
  rw [hup, List.mem_append, List.mem_cons] at hup'
  rw [hup, List.pairwise_append, List.pairwise_cons] at hpairwise
  rcases hup' with hup' | rfl | hup'
  · rw [hinner m hup'] at hcontains
    cases hcontains
  · omega
  · have := hpairwise.2.1.1 m hup'
    omega

end NodeRef

end NginxConf
