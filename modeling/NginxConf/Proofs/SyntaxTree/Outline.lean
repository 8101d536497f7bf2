import NginxConf.Proofs.SyntaxTree.Placed
import NginxConf.Proofs.Token.Trimmed
import NginxConf.Proofs.Tree.Shape

/-!
# Outlines

The outline of a node is what can be compared of nodes of different texts: the kinds and texts of
tokens, the kinds of nodes, and the ranges of both without the trivia at their ends. Where a tree
has been built of tokens in their places, its outline can be read off these tokens
(`NodeRef.forestOutline_eq`), so trivia has no say in it (`Tree.outline_trimmed`), and an outline is
further on where the tokens are (`Tree.outline_shift`).
-/

namespace NginxConf

/-- What is seen of a tree, trivia apart. -/
inductive Outline
  | token (kind : TokenKind) (text : Text) (span : Span)
  | node (kind : NodeKind) (trimmed : Span) (children : List Outline)

namespace Outline

mutual

/-- The same outline so much further on. -/
def shift (n : Nat) : Outline → Outline
  | token kind text span => token kind text (span.shift n)
  | node kind trimmed children => node kind (trimmed.shift n) (shiftAll n children)

/-- The same outlines so much further on. -/
def shiftAll (n : Nat) : List Outline → List Outline
  | [] => []
  | o :: os => o.shift n :: shiftAll n os

end

/-- Whether the outline is that of a node. -/
def isNode : Outline → Bool
  | token .. => false
  | node .. => true

theorem isNode_shift (o : Outline) (n : Nat) : (o.shift n).isNode = o.isNode := by
  cases o <;> rfl

theorem filter_isNode_shift (n : Nat) (os : List Outline) :
    (os.map (shift n)).filter isNode = (os.filter isNode).map (shift n) := by
  rw [List.filter_map]
  congr 2
  funext o
  exact o.isNode_shift n

end Outline

/-! ## The outline of a node -/

def TokenRef.outline (t : TokenRef) : Outline := .token t.token.kind t.token.text t.span

mutual

/-- The outline of a tree, as a child of a node. -/
def treeOutline (parent : NodeRef) (position offset : Nat) : Tree Token → Outline
  | .leaf token => TokenRef.outline ⟨token, offset, position :: parent.address, parent⟩
  | .node kind children =>
    let n : NodeRef :=
      ⟨⟨kind, children, offset, position :: parent.address⟩, parent.toSite :: parent.above⟩
    .node kind n.trimmedSpan (forestOutline n 0 offset children)

/-- The outlines of trees, as children of a node. -/
def forestOutline (parent : NodeRef) (position offset : Nat) : List (Tree Token) → List Outline
  | [] => []
  | t :: ts =>
    treeOutline parent position offset t
      :: forestOutline parent (position + 1) (offset + t.sum Token.fullSize) ts

end

def NodeRef.outline (n : NodeRef) : Outline :=
  .node n.kind n.trimmedSpan (forestOutline n 0 n.start n.children)

def ElementRef.outline : ElementRef → Outline
  | node n => n.outline
  | token t => t.outline

namespace NodeRef

theorem outline_place (parent : NodeRef) (position offset : Nat) (t : Tree Token) :
    (parent.place position offset t).outline = treeOutline parent position offset t := by
  cases t <;> rfl

theorem map_outline_placeAll (parent : NodeRef) (position offset : Nat) (ts : List (Tree Token)) :
    (parent.placeAll position offset ts).map ElementRef.outline
      = forestOutline parent position offset ts := by
  induction ts generalizing position offset with
  | nil => rfl
  | cons t ts ih => rw [placeAll, forestOutline, List.map_cons, outline_place, ih]

/-- The outlines of the child nodes are among those of the children. -/
theorem map_outline_nodes_eq (n : NodeRef) :
    n.nodes.map outline = (forestOutline n 0 n.start n.children).filter Outline.isNode := by
  rw [← map_outline_placeAll, nodes_eq]
  generalize n.placeAll 0 n.start n.children = elements
  induction elements with
  | nil => rfl
  | cons e es ih =>
    cases e with
    | node m => exact congrArg (_ :: ·) ih
    | token t => exact ih

end NodeRef

/-! ## Trees of tokens in their places -/

/-- The range from the start of the first token to the end of the last one. -/
def hull (ps : List PlacedToken) : Span :=
  match ps.head?, ps.getLast? with
  | some first, some last => ⟨first.span.start, last.span.stop⟩
  | _, _ => .point 0

theorem hull_trimmed (ps : List PlacedToken) : hull (ps.map PlacedToken.trimmed) = hull ps := by
  rw [hull, hull, List.head?_map, List.getLast?_map]
  cases ps.head? <;> cases ps.getLast? <;> rfl

theorem hull_shift (n : Nat) {ps : List PlacedToken} (h : ps ≠ []) :
    hull (ps.map (PlacedToken.shift n)) = (hull ps).shift n := by
  obtain ⟨p, ps, rfl⟩ := List.exists_cons_of_ne_nil h
  simp only [hull, List.head?_map, List.getLast?_map, List.head?_cons, List.getLast?_cons,
    Option.map_some, PlacedToken.span_shift, Span.shift]

namespace Tree

mutual

/-- What is seen of a tree of tokens in their places. -/
def outline : Tree PlacedToken → Outline
  | leaf p => .token p.token.kind p.token.text p.span
  | node kind children => .node kind (hull (forestLeaves children)) (forestOutlines children)

/-- What is seen of trees of tokens in their places. -/
def forestOutlines : List (Tree PlacedToken) → List Outline
  | [] => []
  | t :: ts => t.outline :: forestOutlines ts

end

theorem forestOutlines_eq (ts : List (Tree PlacedToken)) : forestOutlines ts = ts.map outline := by
  induction ts with
  | nil => rfl
  | cons t ts ih => rw [forestOutlines, ih, List.map_cons]

mutual

/-- **Trivia has no say in an outline.** -/
theorem outline_trimmed : (t : Tree PlacedToken) → (t.map PlacedToken.trimmed).outline = t.outline
  | leaf _ => rfl
  | node kind children => by
    rw [map, outline, outline, forestLeaves_map, hull_trimmed, forestOutlines_trimmed children]

theorem forestOutlines_trimmed : (ts : List (Tree PlacedToken)) →
    forestOutlines (forestMap PlacedToken.trimmed ts) = forestOutlines ts
  | [] => rfl
  | t :: ts => by
    rw [forestMap, forestOutlines, forestOutlines, outline_trimmed t, forestOutlines_trimmed ts]

end

mutual

/-- **An outline is further on where the tokens are.** -/
theorem outline_shift (n : Nat) : (t : Tree PlacedToken) → t.Shaped →
    (t.map (PlacedToken.shift n)).outline = t.outline.shift n
  | leaf p, _ => by
    rw [map, outline, outline, PlacedToken.span_shift]
    rfl
  | node kind children, h => by
    have hne : forestLeaves children ≠ [] := h.leaves_ne_nil
    rw [map, outline, outline, forestLeaves_map, hull_shift n hne,
      forestOutlines_shift n children h.2]
    rfl

theorem forestOutlines_shift (n : Nat) : (ts : List (Tree PlacedToken)) → forestShaped ts →
    forestOutlines (forestMap (PlacedToken.shift n) ts) = Outline.shiftAll n (forestOutlines ts)
  | [], _ => rfl
  | t :: ts, h => by
    rw [forestMap, forestOutlines, forestOutlines, outline_shift n t h.1,
      forestOutlines_shift n ts h.2]
    rfl

end

end Tree

/-! ## Trees of texts -/

namespace NodeRef

/-- The range of a node without trivia goes from its first token to its last one. -/
theorem trimmedSpan_eq {n : NodeRef} {children : List (Tree PlacedToken)} {stop : Nat}
    (hn : n.children = Tree.forestMap PlacedToken.token children)
    (h : Tile n.start (Tree.forestLeaves children) stop) (hne : Tree.forestLeaves children ≠ []) :
    n.trimmedSpan = hull (Tree.forestLeaves children) := by
  have hstop : stop = n.start + n.size := by
    rw [size, hn]
    exact Tile.stop_tree (t := .node n.kind children) h
  obtain ⟨before, last, hlast⟩ :=
    (List.eq_nil_or_concat' (Tree.forestLeaves children)).resolve_left hne
  obtain ⟨first, after, hfirst⟩ := List.exists_cons_of_ne_nil hne
  have hbegin : first.offset = n.start := by
    rw [hfirst] at h
    exact h.1
  have hend : last.offset + last.token.fullSize = stop := by
    rw [hlast] at h
    obtain ⟨middle, -, hmiddle⟩ := h.append
    exact (congrArg (· + _) hmiddle.1).trans hmiddle.2
  have hhead : Tree.forestFirstLeaf? n.children = some first.token := by
    rw [hn, Tree.forestFirstLeaf?_eq, Tree.forestLeaves_map, hfirst]
    rfl
  have hfinal : Tree.forestLastLeaf? n.children = some last.token := by
    rw [hn, Tree.forestLastLeaf?_eq, Tree.forestLeaves_map, hlast, List.map_append]
    simp
  have hhull : hull (Tree.forestLeaves children) = ⟨first.span.start, last.span.stop⟩ := by
    have hhead' : (Tree.forestLeaves children).head? = some first := by rw [hfirst]; rfl
    have hlast' : (Tree.forestLeaves children).getLast? = some last := by rw [hlast]; simp
    rw [hull, hhead', hlast']
  rw [hhull, trimmedSpan, hhead, hfinal]
  simp only [span, PlacedToken.span, Span.mk.injEq, hbegin, true_and]
  rw [← hstop, ← hend, Token.fullSize]
  omega

mutual

/-- **The outline of a tree can be read off the tokens that it has been built of.** -/
theorem treeOutline_eq (parent : NodeRef) (position : Nat) {start stop : Nat} :
    (t : Tree PlacedToken) → t.Shaped → Tile start t.leaves stop →
    treeOutline parent position start (t.map PlacedToken.token) = t.outline
  | .leaf p, _, h => by
    have hp : p.offset = start := h.1
    rw [Tree.map, treeOutline, TokenRef.outline, Tree.outline, ← hp]
    rfl
  | .node kind children, hshaped, h => by
    rw [Tree.leaves] at h
    rw [Tree.map, treeOutline, Tree.outline, forestOutline_eq _ 0 children hshaped.2 h,
      trimmedSpan_eq rfl h hshaped.leaves_ne_nil]

theorem forestOutline_eq (parent : NodeRef) (position : Nat) {start stop : Nat} :
    (ts : List (Tree PlacedToken)) → Tree.forestShaped ts → Tile start (Tree.forestLeaves ts) stop →
    forestOutline parent position start (Tree.forestMap PlacedToken.token ts)
      = Tree.forestOutlines ts
  | [], _, _ => rfl
  | t :: ts, hshaped, h => by
    obtain ⟨middle, ht, hts⟩ := h.append
    rw [ht.stop_tree] at hts
    rw [Tree.forestMap, forestOutline, Tree.forestOutlines,
      treeOutline_eq parent position t hshaped.1 ht, forestOutline_eq parent (position + 1) ts hshaped.2 hts]

end

end NodeRef

end NginxConf
