import NginxConf.Proofs.SyntaxTree.Outline

/-!
# The children of a node, and what has been put there

A node of a finished tree stands for a node of tokens in their places (`NodeRef.StandsFor`). So do
its child nodes, one by one and in order, and its range without trivia goes from the first to the
last of these tokens.
-/

namespace NginxConf

variable {α : Type}

/-- The tree as a node, if it is one. -/
def Tree.node? : Tree α → Option (Node α)
  | leaf _ => none
  | node kind children => some ⟨kind, children⟩

/-- The children that are nodes. -/
def Node.nodes (m : Node α) : List (Node α) := m.children.filterMap Tree.node?

theorem Node.mem_nodes {m e : Node α} : e ∈ m.nodes ↔ e.toTree ∈ m.children := by
  rw [nodes, List.mem_filterMap]
  constructor
  · rintro ⟨t, ht, hnode⟩
    cases t with
    | leaf => cases hnode
    | node =>
      cases hnode
      exact ht
  · exact fun h => ⟨_, h, rfl⟩

namespace NodeRef

/-- The nodes among some trees are found where they have been put. -/
theorem standsFor_placeAll (parent : NodeRef) (position : Nat) {start stop : Nat}
    {ts : List (Tree PlacedToken)} (h : Tile start (ts.flatMap Tree.leaves) stop) :
    List.Forall₂ StandsFor
      ((parent.placeAll position start (ts.map (Tree.map PlacedToken.token))).filterMap
        ElementRef.node?)
      (ts.filterMap Tree.node?) := by
  induction ts generalizing position start with
  | nil => exact .nil
  | cons t ts ih =>
    rw [List.flatMap_cons] at h
    obtain ⟨middle, ht, hts⟩ := h.append
    rw [ht.stop_tree] at hts
    cases t with
    | leaf p => exact ih _ hts
    | node kind children =>
      rw [Tree.leaves, Tree.forestLeaves_eq] at ht
      exact .cons ⟨rfl, Tree.forestMap_eq _ _, middle, ht⟩ (ih _ hts)

variable {n : NodeRef} {m : Node PlacedToken}

/-- **The child nodes stand for those that have been put there.** -/
theorem StandsFor.nodes (h : n.StandsFor m) : List.Forall₂ StandsFor n.nodes m.nodes := by
  obtain ⟨stop, htile⟩ := h.tile
  rw [nodes_eq, h.children]
  exact standsFor_placeAll n 0 htile

theorem StandsFor.nodesOfKind (h : n.StandsFor m) (kind : NodeKind) :
    List.Forall₂ StandsFor (n.nodesOfKind kind) (m.nodes.filter (·.kind == kind)) := by
  refine List.rel_filter (fun a b hab => ?_) h.nodes
  show (a.kind == kind) = true ↔ (b.kind == kind) = true
  rw [hab.kind]

/-- The kinds of the tokens are those that have been put there. -/
theorem StandsFor.kinds (h : n.StandsFor m) :
    n.tokens.map (·.token.kind) = m.row.map Lexical.kind := by
  have hplaces := congrArg (List.map (·.token.kind)) (congrArg Prod.snd h.places_eq)
  rw [places, Node.places, List.map_map, List.map_map] at hplaces
  exact hplaces

/-- **The range of a node without trivia** goes from its first token to its last one. -/
theorem StandsFor.trimmedSpan (h : n.StandsFor m) {first last : PlacedToken}
    (hfirst : m.leaves.head? = some first) (hlast : m.leaves.getLast? = some last) :
    n.trimmedSpan = ⟨first.span.start, last.span.stop⟩ := by
  obtain ⟨stop, htile⟩ := h.tile
  have hne : m.leaves ≠ [] := by
    rintro hnil
    rw [hnil] at hfirst
    cases hfirst
  have hleaves : Tree.forestLeaves m.children = m.leaves := Tree.forestLeaves_eq _
  have hchildren : n.children = Tree.forestMap PlacedToken.token m.children := by
    rw [h.children, Tree.forestMap_eq]
  rw [trimmedSpan_eq hchildren (hleaves ▸ htile) (hleaves ▸ hne), hleaves, hull, hfirst, hlast]

end NodeRef

end NginxConf
