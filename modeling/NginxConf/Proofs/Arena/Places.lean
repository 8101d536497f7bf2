import Mathlib.Data.List.Forall2
import NginxConf.Arena.Walk
import NginxConf.Proofs.Arena.WellFormed
import NginxConf.Proofs.SyntaxTree.Alike
import NginxConf.Proofs.SyntaxTree.Pieces

/-!
# The places of a tree in its arena

The nodes of an arena are numbered in the order in which a walk enters them, and the pieces in the
order in which it meets them, the sentinel first. So each number leads to one place in the tree
(`SyntaxTree.nodeAt?`, `SyntaxTree.pieceAt?`), and what the arena stores under the number is what
is to be said of the place (`SyntaxTree.storesNode`, `SyntaxTree.storesPiece`).
-/

namespace NginxConf

/-! ## Numbers and places -/

/-- The node of a tree that has a number in its arena. -/
def SyntaxTree.nodeAt? (t : SyntaxTree) (i : Nat) : Option NodeRef :=
  (NodeRef.root t).descendants[i]?

/-- The piece of a tree that has a number in its arena. -/
def SyntaxTree.pieceAt? (t : SyntaxTree) : Nat → Option LeafRef
  | 0 => none
  | i + 1 => (NodeRef.root t).leaves[i]?

/-- The child of a node that is listed in the arena of a tree. -/
def Arena.Child.element? (t : SyntaxTree) : Arena.Child → Option ElementRef
  | node i => (t.nodeAt? i).map .node
  | piece i => (t.pieceAt? i).map fun l => .token l.owner

/-- Something holds of all elements of a list with their numbers, the first of which is given. -/
def Each {α : Type} (P : Nat → α → Prop) : Nat → List α → Prop
  | _, [] => True
  | i, x :: xs => P i x ∧ Each P (i + 1) xs

namespace Each

variable {α : Type} {P : Nat → α → Prop} {i : Nat} {x : α} {xs ys : List α}

theorem append_iff : Each P i (xs ++ ys) ↔ Each P i xs ∧ Each P (i + xs.length) ys := by
  induction xs generalizing i with
  | nil => simp [Each]
  | cons x xs ih =>
    rw [List.cons_append, Each, Each, ih, List.length_cons, and_assoc, Nat.add_assoc,
      Nat.add_comm 1]

theorem getElem? {k : Nat} (h : Each P i xs) (hk : xs[k]? = some x) : P (i + k) x := by
  induction xs generalizing i k with
  | nil => cases hk
  | cons y ys ih =>
    cases k with
    | zero =>
      cases hk
      exact h.1
    | succ k =>
      rw [← Nat.add_assoc, Nat.add_right_comm]
      exact ih h.2 hk

theorem of_getElem? (h : ∀ k x, xs[k]? = some x → P (i + k) x) : Each P i xs := by
  induction xs generalizing i with
  | nil => trivial
  | cons x xs ih =>
    refine ⟨h 0 x rfl, ih fun k y hk => ?_⟩
    rw [Nat.add_right_comm]
    exact h (k + 1) y hk

/-- The numbers of the elements, one by one. -/
theorem forall₂ (h : Each P i xs) : List.Forall₂ P (List.range' i xs.length) xs := by
  induction xs generalizing i with
  | nil => exact .nil
  | cons x xs ih => exact .cons h.1 (ih h.2)

end Each

/-- The nodes that a walk enters. -/
def Event.nodes (es : List Event) : List NodeRef := es.filterMap Event.entered?

/-- The pieces that a walk meets. -/
def Event.pieces (es : List Event) : List LeafRef :=
  (es.filterMap Event.token?).flatMap TokenRef.pieces

theorem Event.nodes_append (es fs : List Event) : nodes (es ++ fs) = nodes es ++ nodes fs :=
  List.filterMap_append

theorem Event.pieces_append (es fs : List Event) :
    pieces (es ++ fs) = pieces es ++ pieces fs := by
  rw [pieces, List.filterMap_append, List.flatMap_append]
  rfl

/-- What a walk through a node meets besides the node is what it meets below. -/
theorem Event.nodes_enclose (n : NodeRef) (es : List Event) :
    nodes (.enter n :: (es ++ [.leave n])) = n :: nodes es := by
  simp [nodes, entered?]

theorem Event.pieces_enclose (n : NodeRef) (es : List Event) :
    pieces (.enter n :: (es ++ [.leave n])) = pieces es := by
  simp [pieces, token?, List.filterMap_cons]

theorem Event.pieces_token (u : TokenRef) : pieces [.token u] = u.pieces := by
  simp [pieces, token?]

theorem NodeRef.leaves_eq (n : NodeRef) :
    n.leaves = Event.pieces (forestEvents n 0 n.start n.children) := by
  rw [leaves, allTokens_eq]
  rfl

@[simp]
theorem TokenRef.length_placeTrivia (owner : TokenRef) (part : Nat → Part) (index offset : Nat)
    (ts : List Trivia) : (owner.placeTrivia part index offset ts).length = ts.length := by
  induction ts generalizing index offset with
  | nil => rfl
  | cons t ts ih => exact congrArg (· + 1) (ih _ _)

namespace Arena

mutual

/-- A tree has as many nodes and pieces as a walk meets. -/
theorem Mark.past_events (m : Mark) (parent : NodeRef) (position offset : Nat) :
    (t : Tree Token) →
    (m.past t).node = m.node + (Event.nodes (treeEvents parent position offset t)).length ∧
      (m.past t).piece = m.piece + (Event.pieces (treeEvents parent position offset t)).length
  | .leaf t => by
    simp [past, pastToken, treeEvents, Event.nodes, Event.entered?, Event.pieces, Event.token?,
      TokenRef.pieces, TokenRef.leading, TokenRef.trailing, Nat.add_assoc, Nat.add_comm 1]
  | .node kind children => by
    have hinner := fun n => m.enter.pastAll_events n 0 offset children
    rw [treeEvents, Event.nodes_enclose, Event.pieces_enclose, List.length_cons, Nat.add_comm _ 1,
      ← Nat.add_assoc]
    exact hinner _

/-- Some trees have as many nodes and pieces as a walk meets. -/
theorem Mark.pastAll_events (m : Mark) (parent : NodeRef) (position offset : Nat) :
    (ts : List (Tree Token)) →
    (m.pastAll ts).node = m.node + (Event.nodes (forestEvents parent position offset ts)).length ∧
      (m.pastAll ts).piece
        = m.piece + (Event.pieces (forestEvents parent position offset ts)).length
  | [] => ⟨rfl, rfl⟩
  | t :: ts => by
    obtain ⟨hnode, hpiece⟩ := m.past_events parent position offset t
    obtain ⟨hnode', hpiece'⟩ :=
      (m.past t).pastAll_events parent (position + 1) (offset + t.sum Token.fullSize) ts
    rw [pastAll, forestEvents, Event.nodes_append, Event.pieces_append, List.length_append,
      List.length_append, hnode', hpiece', hnode, hpiece, Nat.add_assoc, Nat.add_assoc]
    exact ⟨rfl, rfl⟩

end

theorem Mark.offset_past (m : Mark) (t : Tree Token) :
    (m.past t).offset = m.offset + t.sum Token.fullSize :=
  congrArg Mark.offset (m.past_eq 0 t)

theorem Mark.offset_pastAll (m : Mark) (ts : List (Tree Token)) :
    (m.pastAll ts).offset = m.offset + Tree.forestSum Token.fullSize ts :=
  congrArg Mark.offset (m.pastAll_eq 0 ts)

/-! ## What is stored -/

/-- What the arena of a tree stores of a node. -/
structure StoresNode (t : SyntaxTree) (i : Nat) (cell : Cell) (n : NodeRef) : Prop where
  stored : (ofTree t).nodes[i]? = some cell
  kind : cell.kind = n.kind
  stop : cell.stop = cell.first + n.leaves.length
  leaves : Each (fun j l => t.pieceAt? j = some l) cell.first n.leaves
  parent : Option.Rel (fun p m => p < i ∧ t.nodeAt? p = some m) cell.parent n.parent?
  span : (ofTree t).nodeSpan? i = some n.span
  children : ∃ cs, (ofTree t).childrenOf? i = some cs ∧
    List.Forall₂ (fun c e => c.element? t = some e) cs n.elements

/-- What the arena of a tree stores of a piece. -/
structure StoresPiece (t : SyntaxTree) (i : Nat) (piece : Piece) (l : LeafRef) : Prop where
  stored : (ofTree t).pieces[i]? = some piece
  kind : piece.kind = .leaf l.kind
  start : (ofTree t).startOf? i = some l.start
  stop : piece.stop = l.span.stop
  parent : t.nodeAt? piece.parent = some l.parent

/-- The numbers from these on lead to the nodes and the pieces that a walk meets. -/
structure Numbered (t : SyntaxTree) (m : Mark) (es : List NginxConf.Event) : Prop where
  nodes : Each (fun i n => t.nodeAt? i = some n) m.node (Event.nodes es)
  pieces : Each (fun i l => t.pieceAt? i = some l) m.piece (Event.pieces es)

/-- Under the numbers from these on, the nodes and the pieces that a walk meets are stored. -/
structure Stored (t : SyntaxTree) (m : Mark) (es : List NginxConf.Event) : Prop where
  nodes : Each (fun i n => ∃ cell, StoresNode t i cell n) m.node (Event.nodes es)
  pieces : Each (fun i l => ∃ piece, StoresPiece t i piece l) m.piece (Event.pieces es)

variable {t : SyntaxTree} {m : Mark} {p : Nat} {parent : NodeRef} {position : Nat}

theorem Numbered.inner {n : NodeRef} {es : List NginxConf.Event}
    (h : Numbered t m (.enter n :: (es ++ [.leave n]))) :
    t.nodeAt? m.node = some n ∧ Numbered t m.enter es := by
  obtain ⟨hnodes, hpieces⟩ := h
  rw [Event.nodes_enclose] at hnodes
  rw [Event.pieces_enclose] at hpieces
  exact ⟨hnodes.1, hnodes.2, hpieces⟩

theorem Stored.enclose {n : NodeRef} {es : List NginxConf.Event}
    (hnode : ∃ cell, StoresNode t m.node cell n) (h : Stored t m.enter es) :
    Stored t m (.enter n :: (es ++ [.leave n])) := by
  constructor
  · rw [Event.nodes_enclose]
    exact ⟨hnode, h.nodes⟩
  · rw [Event.pieces_enclose]
    exact h.pieces

theorem Numbered.cons {u : Tree Token} {us : List (Tree Token)}
    (h : Numbered t m (forestEvents parent position m.offset (u :: us))) :
    Numbered t m (treeEvents parent position m.offset u) ∧
      Numbered t (m.past u) (forestEvents parent (position + 1) (m.past u).offset us) := by
  obtain ⟨hnodes, hpieces⟩ := h
  obtain ⟨hnode, hpiece⟩ := m.past_events parent position m.offset u
  rw [forestEvents, Event.nodes_append, Each.append_iff, ← hnode, ← m.offset_past] at hnodes
  rw [forestEvents, Event.pieces_append, Each.append_iff, ← hpiece, ← m.offset_past] at hpieces
  exact ⟨⟨hnodes.1, hpieces.1⟩, hnodes.2, hpieces.2⟩

theorem Stored.cons {u : Tree Token} {us : List (Tree Token)}
    (h : Stored t m (treeEvents parent position m.offset u))
    (hs : Stored t (m.past u) (forestEvents parent (position + 1) (m.past u).offset us)) :
    Stored t m (forestEvents parent position m.offset (u :: us)) := by
  obtain ⟨hnode, hpiece⟩ := m.past_events parent position m.offset u
  constructor
  · rw [forestEvents, Event.nodes_append, Each.append_iff, ← hnode, ← m.offset_past]
    exact ⟨h.nodes, hs.nodes⟩
  · rw [forestEvents, Event.pieces_append, Each.append_iff, ← hpiece, ← m.offset_past]
    exact ⟨h.pieces, hs.pieces⟩

/-- The list of children in the arena leads to the children. -/
theorem forall₂_refs {us : List (Tree Token)}
    (h : Numbered t m (forestEvents parent position m.offset us)) :
    List.Forall₂ (fun c e => c.element? t = some e) (m.refs us)
      (parent.placeAll position m.offset us) := by
  induction us generalizing m position with
  | nil => exact .nil
  | cons u us ih =>
    obtain ⟨hu, hus⟩ := h.cons
    have hfirst : (m.ref u).element? t = some (parent.place position m.offset u) := by
      cases u with
      | leaf token =>
        have hpieces := hu.pieces
        rw [treeEvents, Event.pieces_token, TokenRef.pieces, Each.append_iff, TokenRef.leading,
          TokenRef.length_placeTrivia] at hpieces
        rw [Mark.ref, Child.element?, hpieces.2.1]
        rfl
      | node kind children => exact congrArg (Option.map ElementRef.node) hu.inner.1
    rw [Mark.refs, NodeRef.placeAll, ← m.offset_past]
    exact .cons hfirst (ih hus)

/-- Where the arena holds a node, it stores what is to be said of it. -/
theorem Holds.storesNode {n : NodeRef} {p? : Option Nat}
    (h : (ofTree t).Holds m
      (.enclose p? m n.kind n.children (forestBatch m.node m.enter n.children)))
    (hstart : n.start = m.offset)
    (hparent : Option.Rel (fun p k => p < m.node ∧ t.nodeAt? p = some k) p? n.parent?)
    (hinner : Numbered t m.enter (forestEvents n 0 n.start n.children)) :
    ∃ cell, StoresNode t m.node cell n := by
  refine ⟨_, h.cell, rfl, ?_, ?_, hparent, ?_, _, h.childrenOf, ?_⟩
  · rw [n.leaves_eq]
    exact (m.enter.pastAll_events n 0 n.start n.children).2
  · rw [n.leaves_eq]
    exact hinner.pieces
  · rw [h.nodeSpan?, m.enter.offset_pastAll, NodeRef.span, hstart]
    rfl
  · rw [hstart] at hinner
    rw [NodeRef.elements, hstart]
    exact forall₂_refs hinner

/-- Where it holds trivia, it stores what is to be said of its pieces. -/
theorem storesPiece_trivia {owner : TokenRef} {part : Nat → Part} {index i offset : Nat}
    {ts : List Trivia} (h : Stands (ofTree t).pieces i (triviaPieces p offset ts))
    (hi : (ofTree t).startOf? i = some offset) (hp : t.nodeAt? p = some owner.parent) :
    Each (fun i l => ∃ piece, StoresPiece t i piece l) i
      (owner.placeTrivia part index offset ts) := by
  induction ts generalizing i offset index with
  | nil => trivial
  | cons u us ih =>
    obtain ⟨hpiece, hmore⟩ := h.cons
    exact ⟨⟨_, hpiece, rfl, hi, rfl, hp⟩, ih hmore (startOf?_succ hpiece)⟩

/-- Where it holds a token, it stores what is to be said of its pieces. -/
theorem HasToken.storesPieces {u : TokenRef} (h : (ofTree t).HasToken p m u.token)
    (hp : t.nodeAt? p = some u.parent) (hstart : u.start = m.offset) :
    Each (fun i l => ∃ piece, StoresPiece t i piece l) m.piece u.pieces := by
  have hcore := h.startOf?_token
  have hbehind := h.startOf?_trailing
  obtain ⟨hleading, htoken, htrailing, hoffset⟩ := h
  rw [← hstart] at hleading htoken htrailing hoffset hcore hbehind
  rw [TokenRef.pieces, Each.append_iff, TokenRef.leading, TokenRef.length_placeTrivia]
  refine ⟨storesPiece_trivia hleading hoffset hp, ?_, storesPiece_trivia htrailing hbehind hp⟩
  exact ⟨_, htoken, rfl, hcore, rfl, hp⟩

mutual

/-- Where it holds a tree, it stores what is to be said of it. -/
theorem Holds.stored {p : Nat} {parent : NodeRef} (hp : t.nodeAt? p = some parent) {m : Mark}
    (hlt : p < m.node) (position : Nat) : (u : Tree Token) →
    (ofTree t).Holds m (treeBatch p m u) →
    Numbered t m (treeEvents parent position m.offset u) →
    Stored t m (treeEvents parent position m.offset u)
  | .leaf token, h, _ => by
    refine ⟨trivial, ?_⟩
    rw [treeEvents, Event.pieces_token]
    exact h.token.storesPieces hp rfl
  | .node kind children, h, hn => by
    obtain ⟨hself, hinner⟩ := Numbered.inner hn
    have hnode := Holds.storesNode h rfl (.some ⟨hlt, hp⟩) hinner
    exact .enclose hnode (storedAll hself (Nat.lt_succ_self _) 0 children h.inner hinner)

/-- Where it holds some trees, it stores what is to be said of them. -/
theorem Holds.storedAll {p : Nat} {parent : NodeRef} (hp : t.nodeAt? p = some parent) {m : Mark}
    (hlt : p < m.node) (position : Nat) : (us : List (Tree Token)) →
    (ofTree t).Holds m (forestBatch p m us) →
    Numbered t m (forestEvents parent position m.offset us) →
    Stored t m (forestEvents parent position m.offset us)
  | [], _, _ => ⟨trivial, trivial⟩
  | u :: us, h, hn =>
    have hlt' := Nat.lt_of_lt_of_le hlt (m.le_past u).node
    Stored.cons (stored hp hlt position u h.head hn.cons.1)
      (storedAll hp hlt' (position + 1) us h.tail hn.cons.2)

end

end Arena

namespace SyntaxTree

variable {t : SyntaxTree} {i : Nat}

theorem nodes_root (t : SyntaxTree) :
    Event.nodes (NodeRef.root t).events = (NodeRef.root t).descendants := by
  rw [NodeRef.events_eq, Event.nodes_enclose, NodeRef.descendants_eq]
  rfl

theorem pieces_root (t : SyntaxTree) :
    Event.pieces (NodeRef.root t).events = (NodeRef.root t).leaves := by
  rw [NodeRef.events_eq, Event.pieces_enclose, NodeRef.leaves_eq]

theorem numbered_root (t : SyntaxTree) :
    Arena.Numbered t .first (NodeRef.root t).events := by
  constructor
  · rw [nodes_root]
    refine .of_getElem? fun k n hk => ?_
    rw [Arena.Mark.first, Nat.zero_add]
    exact hk
  · rw [pieces_root]
    refine .of_getElem? fun k l hk => ?_
    rw [Arena.Mark.first, Nat.add_comm]
    exact hk

theorem stored_root (t : SyntaxTree) : Arena.Stored t .first (NodeRef.root t).events := by
  have hn := t.numbered_root
  have h := Arena.holds_ofTree t
  rw [NodeRef.events_eq] at hn ⊢
  obtain ⟨hself, hinner⟩ := hn.inner
  have hnode := h.storesNode (n := .root t) rfl .none hinner
  exact .enclose hnode
    (Arena.Holds.storedAll hself (Nat.lt_succ_self _) 0 t.children h.inner hinner)

/-- **Under the number of a node, the arena stores what is to be said of the node.** -/
theorem storesNode {n : NodeRef} (h : t.nodeAt? i = some n) :
    ∃ cell, Arena.StoresNode t i cell n := by
  have hall := t.stored_root.nodes
  rw [nodes_root] at hall
  have hn := hall.getElem? h
  rwa [Arena.Mark.first, Nat.zero_add] at hn

/-- **Under the number of a piece, the arena stores what is to be said of the piece.** -/
theorem storesPiece {l : LeafRef} (h : t.pieceAt? i = some l) :
    ∃ piece, Arena.StoresPiece t i piece l := by
  have hall := t.stored_root.pieces
  rw [pieces_root] at hall
  cases i with
  | zero => cases h
  | succ i =>
    have hl := hall.getElem? h
    rwa [Arena.Mark.first, Nat.add_comm] at hl

theorem nodeAt?_zero (t : SyntaxTree) : t.nodeAt? 0 = some (.root t) := by
  rw [nodeAt?, NodeRef.descendants_eq]
  rfl

/-- All numbers of nodes in the arena lead to a node. -/
theorem exists_nodeAt?_iff : (∃ n, t.nodeAt? i = some n) ↔ i < (Arena.ofTree t).nodes.length := by
  have hlength : (Arena.ofTree t).nodes.length = (NodeRef.root t).descendants.length := by
    have hpast := Arena.Mark.first.enter.pastAll_eq 0 t.children
    have hevents := (Arena.Mark.first.enter.pastAll_events (.root t) 0 0 t.children).1
    rw [hpast] at hevents
    rw [NodeRef.descendants_eq, List.length_cons]
    exact congrArg (· + 1) (Nat.add_left_cancel hevents)
  rw [hlength, nodeAt?, ← Option.isSome_iff_exists, isSome_getElem?]

end SyntaxTree

end NginxConf
