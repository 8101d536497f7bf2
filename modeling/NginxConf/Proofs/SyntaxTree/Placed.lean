import Mathlib.Data.List.Forall2
import NginxConf.Parse
import NginxConf.Proofs.SyntaxTree.Alike
import NginxConf.Proofs.Token.Tiling
import NginxConf.Proofs.Tree.Subnodes

/-!
# Where the tokens of each node stand

The grammar builds trees of tokens in their places, and a finished tree has tokens alone. Nothing is
lost: as the tokens tile the text, a walk through the finished tree finds in each node the tokens
that the grammar has put there, in their places (`NodeRef.standsFor_descendants`).
-/

namespace NginxConf

/-- The token in its place, without what may be wrong with it. -/
def PlacedToken.faultless (p : PlacedToken) : PlacedToken := { p with fault := none }

@[simp]
theorem PlacedToken.span_faultless (p : PlacedToken) : p.faultless.span = p.span := rfl

/-- The token in its place. -/
def TokenRef.placed (t : TokenRef) : PlacedToken := ⟨t.token, t.start, none⟩

@[simp]
theorem TokenRef.span_placed (t : TokenRef) : t.placed.span = t.span := rfl

/-- The kind of a node, and the tokens that belong to it. -/
def NodeRef.places (n : NodeRef) : NodeKind × List PlacedToken :=
  (n.kind, n.tokens.map TokenRef.placed)

/-- The kind of a node, and the tokens that belong to it. -/
def Node.places (n : Node PlacedToken) : NodeKind × List PlacedToken :=
  (n.kind, n.row.map PlacedToken.faultless)

/-- The child that is a token. -/
def ElementRef.token? : ElementRef → Option TokenRef
  | node _ => none
  | token t => some t

theorem NodeRef.tokens_eq (n : NodeRef) :
    n.tokens = (n.placeAll 0 n.start n.children).filterMap ElementRef.token? := by
  rw [tokens, elements]
  congr 1

/-- What is in one of two lists in step has its counterpart in the other. -/
theorem exists_of_forall₂ {α β : Type} {R : α → β → Prop} {as : List α} {bs : List β} {a : α}
    (h : List.Forall₂ R as bs) (ha : a ∈ as) : ∃ b ∈ bs, R a b := by
  induction h with
  | nil => cases ha
  | @cons _ b _ _ hab _ ih =>
    rcases List.mem_cons.1 ha with rfl | ha
    · exact ⟨b, List.mem_cons_self, hab⟩
    · obtain ⟨c, hc, hac⟩ := ih ha
      exact ⟨c, List.mem_cons_of_mem _ hc, hac⟩

/-- A tree takes up as much of the text as its tokens do. -/
theorem Tile.stop_tree {t : Tree PlacedToken} {start stop : Nat} (h : Tile start t.leaves stop) :
    stop = start + (t.map PlacedToken.token).sum Token.fullSize := by
  rw [h.stop_eq, Tree.sum_fullSize, Tree.text, Tree.leaves_map, List.flatMap_map]

namespace NodeRef

/-- The tokens among the children of a node are found where they stand. -/
theorem map_placed_placeAll (parent : NodeRef) (position : Nat) {start stop : Nat}
    {ts : List (Tree PlacedToken)} (h : Tile start (ts.flatMap Tree.leaves) stop) :
    ((parent.placeAll position start (ts.map (Tree.map PlacedToken.token))).filterMap
      ElementRef.token?).map TokenRef.placed = (Tree.row ts).map PlacedToken.faultless := by
  induction ts generalizing position start with
  | nil => rfl
  | cons t ts ih =>
    rw [List.flatMap_cons] at h
    obtain ⟨middle, ht, hts⟩ := h.append
    rw [ht.stop_tree] at hts
    cases t with
    | leaf p =>
      have hp : p.offset = start := ht.1
      rw [Tree.map] at hts
      rw [List.map_cons, Tree.map, placeAll, Tree.row, place, List.filterMap_cons, List.map_cons,
        ElementRef.token?, List.map_cons, ih _ hts, TokenRef.placed, PlacedToken.faultless, hp]
    | node kind children =>
      rw [List.map_cons, Tree.map, placeAll, Tree.row, place, List.filterMap_cons]
      exact ih _ hts

/-- The node of a finished tree is this node of tokens in their places. -/
structure StandsFor (n : NodeRef) (m : Node PlacedToken) : Prop where
  kind : n.kind = m.kind
  children : n.children = m.children.map (Tree.map PlacedToken.token)
  tile : ∃ stop, Tile n.start m.leaves stop

/-- The kind of a node, and the tokens that have been put there. -/
theorem StandsFor.places_eq {n : NodeRef} {m : Node PlacedToken} (h : n.StandsFor m) :
    n.places = m.places := by
  obtain ⟨stop, htile⟩ := h.tile
  rw [places, Node.places, tokens_eq, h.kind, h.children, map_placed_placeAll n 0 htile]
  rfl

mutual

theorem standsFor_treeEvents (parent : NodeRef) (position : Nat) {start stop : Nat} :
    (t : Tree PlacedToken) → Tile start t.leaves stop →
    List.Forall₂ StandsFor
      ((treeEvents parent position start (t.map PlacedToken.token)).filterMap Event.entered?)
      t.subnodes
  | .leaf p, _ => .nil
  | .node kind children, h => by
    rw [Tree.leaves] at h
    have hinner := fun parent => standsFor_forestEvents parent 0 children h
    rw [Tree.forestLeaves_eq] at h
    rw [Tree.map, treeEvents, Tree.subnodes, List.filterMap_cons, List.filterMap_append]
    simp only [Event.entered?, List.filterMap_cons, List.filterMap_nil, List.append_nil]
    exact .cons ⟨rfl, Tree.forestMap_eq _ _, stop, h⟩ (hinner _)

theorem standsFor_forestEvents (parent : NodeRef) (position : Nat) {start stop : Nat} :
    (ts : List (Tree PlacedToken)) → Tile start (Tree.forestLeaves ts) stop →
    List.Forall₂ StandsFor
      ((forestEvents parent position start (Tree.forestMap PlacedToken.token ts)).filterMap
        Event.entered?)
      (Tree.forestSubnodes ts)
  | [], _ => .nil
  | t :: ts, h => by
    obtain ⟨middle, ht, hts⟩ := h.append
    rw [ht.stop_tree] at hts
    rw [Tree.forestMap, forestEvents, Tree.forestSubnodes, List.filterMap_append]
    exact List.rel_append (standsFor_treeEvents parent position t ht)
      (standsFor_forestEvents parent (position + 1) ts hts)

end

/-- **The nodes of a finished tree are those that have been put there.** -/
theorem standsFor_descendants {n : Node PlacedToken} {stop : Nat} (h : Tile 0 n.leaves stop) :
    List.Forall₂ StandsFor (root (n.map PlacedToken.token)).descendants n.toTree.subnodes := by
  have hinner := standsFor_forestEvents (root (n.map PlacedToken.token)) 0 n.children
    (by rwa [Tree.forestLeaves_eq])
  rw [Tree.forestMap_eq] at hinner
  rw [descendants_eq]
  exact .cons ⟨rfl, rfl, stop, h⟩ hinner

end NodeRef

end NginxConf
