import NginxConf.Proofs.Grammar.Blocks
import NginxConf.Proofs.SyntaxTree.Build

/-!
# Where the nodes of a tree stand

Every node that a walk enters is the tree in some hole (`exists_in_of_mem_descendants`): its
address is the path to the hole, the nodes above it are the frames, and its text begins where the
leaves before the hole end.
-/

namespace NginxConf

namespace NodeRef

/-- The node stands in a tree, with frames around it. -/
structure In (t : Tree Token) (n : NodeRef) (frames : List (Frame Token)) : Prop where
  tree : t = Tree.fill frames (.node n.kind n.children)
  address : n.address.reverse = Tree.path frames
  above : n.above.map (·.kind) = (frames.map (·.kind)).reverse
  start : n.start = Text.size ((Tree.leavesBefore frames).flatMap Token.fullText)

theorem in_root (t : SyntaxTree) : In t.toTree (root t) [] := ⟨rfl, rfl, rfl, rfl⟩

variable {t : Tree Token} {n : NodeRef}

/-- A node among the children of a node stands one frame deeper. -/
theorem In.child {parent : NodeRef} {frames : List (Frame Token)} {kind : NodeKind}
    {before children after : List (Tree Token)} (h : In t parent frames)
    (hc : parent.children = before ++ .node kind children :: after) :
    In t ⟨⟨kind, children, parent.start + Text.size (Tree.forestText before),
        before.length :: parent.address⟩, parent.toSite :: parent.above⟩
      (frames ++ [⟨parent.kind, before, after⟩]) where
  tree := by
    rw [Tree.fill_append, h.tree, hc]
    rfl
  address := by
    rw [List.reverse_cons, h.address]
    simp [Tree.path]
  above := by
    rw [List.map_cons, h.above]
    simp
  start := by
    have htext : Tree.forestText before = (before.flatMap Tree.leaves).flatMap Token.fullText := by
      rw [List.flatMap_assoc]
      rfl
    simp only [h.start, htext]
    simp [Tree.leavesBefore]

mutual

theorem In.of_mem_treeEvents {parent : NodeRef} {frames : List (Frame Token)}
    {before after : List (Tree Token)} (h : In t parent frames) :
    (u : Tree Token) → parent.children = before ++ u :: after →
    .enter n ∈ treeEvents parent before.length
      (parent.start + Text.size (Tree.forestText before)) u →
    ∃ frames, In t n frames
  | .leaf token, _, hn => by simp [treeEvents] at hn
  | .node kind children, hc, hn => by
    have hchild := h.child hc
    simp only [treeEvents, List.mem_cons, List.mem_append, List.not_mem_nil, or_false,
      reduceCtorEq] at hn
    rcases hn with hn | hn
    · cases hn
      exact ⟨_, hchild⟩
    · exact In.of_mem_forestEvents hchild children (show _ = [] ++ children from rfl) hn

theorem In.of_mem_forestEvents {parent : NodeRef} {frames : List (Frame Token)}
    {before : List (Tree Token)} (h : In t parent frames) :
    (ts : List (Tree Token)) → parent.children = before ++ ts →
    .enter n ∈ forestEvents parent before.length
      (parent.start + Text.size (Tree.forestText before)) ts →
    ∃ frames, In t n frames
  | [], _, hn => by simp [forestEvents] at hn
  | u :: us, hc, hn => by
    rw [forestEvents, List.mem_append] at hn
    rcases hn with hn | hn
    · exact In.of_mem_treeEvents h u hc hn
    · refine In.of_mem_forestEvents h us (show _ = (before ++ [u]) ++ us by simp [hc]) ?_
      simpa [Tree.sum_fullSize, Nat.add_assoc] using hn

end

/-- **Every node of a tree stands in a hole of it.** -/
theorem exists_in_of_mem_descendants {t : SyntaxTree} (hn : n ∈ (root t).descendants) :
    ∃ frames, In t.toTree n frames := by
  rw [descendants, events_eq] at hn
  obtain ⟨event, hmem, hevent⟩ := List.mem_filterMap.1 hn
  have hmem : .enter n ∈ .enter (root t) :: (forestEvents (root t) 0 0 t.children
      ++ [.leave (root t)]) := by
    split at hevent
    · cases hevent; exact hmem
    · cases hevent
  simp only [List.mem_cons, List.mem_append, List.not_mem_nil, or_false, reduceCtorEq] at hmem
  rcases hmem with hmem | hmem
  · cases hmem
    exact ⟨[], in_root t⟩
  · exact In.of_mem_forestEvents (in_root t) t.children (show _ = [] ++ t.children from rfl) hmem

/-- The blocks above a node are those among the frames. -/
theorem In.countP_above {frames : List (Frame Token)} (h : In t n frames) :
    n.above.countP (·.kind.isBlock) = Frame.blocks frames := by
  have habove := congrArg (List.countP NodeKind.isBlock) h.above
  rw [List.countP_map, List.countP_reverse, List.countP_map] at habove
  exact habove

/-! ## The tokens of a block -/

variable (parent : NodeRef) (position offset : Nat)

theorem placeAll_append (ss ts : List (Tree Token)) :
    parent.placeAll position offset (ss ++ ts)
      = parent.placeAll position offset ss ++ parent.placeAll (position + ss.length)
        (offset + Text.size (Tree.forestText ss)) ts := by
  induction ss generalizing position offset with
  | nil => rfl
  | cons s ss ih =>
    rw [List.cons_append, placeAll, placeAll, ih, Tree.sum_fullSize, List.cons_append]
    simp [Nat.add_assoc, Nat.add_comm 1]

/-- Where all children are nodes, nothing is found that is not a node. -/
theorem filterMap_placeAll {γ : Type} {f : ElementRef → Option γ} (hf : ∀ m, f (.node m) = none)
    {ts : List (Tree Token)} (h : ∀ u ∈ ts, u.IsNode) :
    (parent.placeAll position offset ts).filterMap f = [] := by
  induction ts generalizing position offset with
  | nil => rfl
  | cons u us ih =>
    have hu : f (parent.place position offset u) = none := by
      cases u with
      | leaf token => exact (h _ List.mem_cons_self).elim
      | node kind children => exact hf _
    rw [placeAll, List.filterMap_cons, hu]
    exact ih _ _ fun v hv => h v (List.mem_cons_of_mem _ hv)

/-- The tokens of a block: its `{`, and its `}` if it has one. -/
theorem tokens_of_block {n : NodeRef} {l : Token} {items : List (Tree Token)}
    {closing : Option Token} (hi : ∀ u ∈ items, u.IsNode)
    (hc : n.children = .leaf l :: items ++ (closing.map Tree.leaf).toList) :
    n.tokens = ⟨l, n.start, 0 :: n.address, n⟩ :: (closing.map fun r =>
      ⟨r, n.start + Text.size (Tree.forestText (.leaf l :: items)),
        (items.length + 1) :: n.address, n⟩).toList := by
  rw [tokens, elements, hc, placeAll_append, List.filterMap_append, placeAll, List.filterMap_cons,
    n.filterMap_placeAll _ _ (fun _ => rfl) hi]
  cases closing with
  | none => rfl
  | some r => simp [placeAll, place]

end NodeRef

end NginxConf
