import NginxConf.Arena
import NginxConf.SyntaxTree

/-!
# The arena of a tree

Where the parts of a tree go is fixed by where the parts before them end (`Mark`), so the arena of a
tree is given by recursion on the tree (`Arena.ofTree`). A tree that comes next in an arena adds a
`Batch` to each of its lists: the pieces in the order of the text, the nodes in the order in which
they begin, and the lists of children in the order in which the nodes end.

An arena `Holds` a batch at a mark when the lists have it there. What holds a tree holds its
children, which is how a tree is found again in its arena.
-/

namespace NginxConf

namespace Arena

/-! ## Places -/

/-- How far the lists of an arena are filled, and how far the text is covered. -/
structure Mark where
  node : Nat
  piece : Nat
  child : Nat
  offset : Nat
deriving DecidableEq, Repr

namespace Mark

/-- Where a tree begins: there is nothing but the sentinel. -/
def first : Mark := ⟨0, 1, 0, 0⟩

/-- Behind the beginning of a node. -/
def enter (m : Mark) : Mark := { m with node := m.node + 1 }

/-- Behind a token. -/
def pastToken (m : Mark) (t : Token) : Mark :=
  { m with
    piece := m.piece + (t.leading.length + 1 + t.trailing.length)
    offset := m.offset + t.fullSize }

mutual

/-- Behind a tree. -/
def past (m : Mark) : Tree Token → Mark
  | .leaf t => m.pastToken t
  | .node _ children =>
    let inner := m.enter.pastAll children
    { inner with child := inner.child + children.length }

/-- Behind some trees. -/
def pastAll (m : Mark) : List (Tree Token) → Mark
  | [] => m
  | t :: ts => (m.past t).pastAll ts

end

/-- A tree as the child of a node. -/
def ref (m : Mark) : Tree Token → Child
  | .leaf t => .piece (m.piece + t.leading.length)
  | .node _ _ => .node m.node

/-- Some trees as the children of a node. -/
def refs (m : Mark) : List (Tree Token) → List Child
  | [] => []
  | t :: ts => m.ref t :: (m.past t).refs ts

theorem refs_append (m : Mark) (ss ts : List (Tree Token)) :
    m.refs (ss ++ ts) = m.refs ss ++ (m.pastAll ss).refs ts := by
  induction ss generalizing m with
  | nil => rfl
  | cons s ss ih => exact congrArg (m.ref s :: ·) (ih (m.past s))

@[simp]
theorem length_refs (m : Mark) (ts : List (Tree Token)) : (m.refs ts).length = ts.length := by
  induction ts generalizing m with
  | nil => rfl
  | cons t ts ih => exact congrArg (· + 1) (ih (m.past t))

end Mark

/-! ## Parts -/

/-- What trees add to the lists of an arena. -/
structure Batch where
  pieces : List Piece
  nodes : List Cell
  children : List Child
deriving DecidableEq, Repr

namespace Batch

/-- One batch and then another one. -/
def append (p q : Batch) : Batch :=
  ⟨p.pieces ++ q.pieces, p.nodes ++ q.nodes, p.children ++ q.children⟩

/-- The batch that some children make, with that of the node that holds them. -/
def enclose (parent : Option Nat) (m : Mark) (kind : NodeKind) (children : List (Tree Token))
    (inner : Batch) : Batch :=
  let stop := m.enter.pastAll children
  ⟨inner.pieces, ⟨parent, stop.child, children.length, kind, m.piece, stop.piece⟩ :: inner.nodes,
    inner.children ++ m.enter.refs children⟩

end Batch

/-- Trivia that belongs to a token of a node, from an offset on. -/
def triviaPieces (parent offset : Nat) : List Trivia → List Piece
  | [] => []
  | t :: ts =>
    ⟨.trivia t.kind, 0, 0, offset + t.size, parent⟩ :: triviaPieces parent (offset + t.size) ts

/-- A token of a node with its trivia, from an offset on. -/
def tokenPieces (parent offset : Nat) (t : Token) : List Piece :=
  let start := offset + t.leadingSize
  triviaPieces parent offset t.leading
    ++ ⟨.token t.kind, t.leading.length, t.trailing.length, start + t.size, parent⟩
    :: triviaPieces parent (start + t.size) t.trailing

mutual

/-- What a tree adds as a child of a node. -/
def treeBatch (parent : Nat) (m : Mark) : Tree Token → Batch
  | .leaf t => ⟨tokenPieces parent m.offset t, [], []⟩
  | .node kind children =>
    .enclose (some parent) m kind children (forestBatch m.node m.enter children)

/-- What trees add as children of a node. -/
def forestBatch (parent : Nat) (m : Mark) : List (Tree Token) → Batch
  | [] => ⟨[], [], []⟩
  | t :: ts => (treeBatch parent m t).append (forestBatch parent (m.past t) ts)

end

/-- What a whole tree adds. -/
def rootBatch (t : SyntaxTree) : Batch :=
  .enclose none .first t.kind t.children (forestBatch 0 Mark.first.enter t.children)

/-- The arena of a tree. -/
def ofTree (t : SyntaxTree) : Arena :=
  ⟨t.text, .sentinel :: (rootBatch t).pieces, (rootBatch t).nodes, (rootBatch t).children⟩

/-! ## Sizes -/

namespace Mark

/-- Behind a batch that covers so much text. -/
def behind (m : Mark) (p : Batch) (size : Nat) : Mark :=
  ⟨m.node + p.nodes.length, m.piece + p.pieces.length, m.child + p.children.length,
    m.offset + size⟩

end Mark

@[simp]
theorem length_triviaPieces (parent offset : Nat) (ts : List Trivia) :
    (triviaPieces parent offset ts).length = ts.length := by
  induction ts generalizing offset with
  | nil => rfl
  | cons t ts ih => exact congrArg (· + 1) (ih _)

@[simp]
theorem length_tokenPieces (parent offset : Nat) (t : Token) :
    (tokenPieces parent offset t).length = t.leading.length + 1 + t.trailing.length := by
  simp [tokenPieces, Nat.add_assoc, Nat.add_comm 1]

mutual

/-- A tree is as large as what it adds. -/
theorem Mark.past_eq (parent : Nat) (m : Mark) : (t : Tree Token) →
    m.past t = m.behind (treeBatch parent m t) (t.sum Token.fullSize)
  | .leaf t => by simp [past, pastToken, treeBatch, behind, Tree.sum]
  | .node kind children => by
    have hinner := pastAll_eq m.node m.enter children
    rw [past, hinner]
    simp [behind, treeBatch, Batch.enclose, enter, Tree.sum]
    omega

/-- Some trees are as large as what they add. -/
theorem Mark.pastAll_eq (parent : Nat) (m : Mark) : (ts : List (Tree Token)) →
    m.pastAll ts = m.behind (forestBatch parent m ts) (Tree.forestSum Token.fullSize ts)
  | [] => by simp [pastAll, forestBatch, behind, Tree.forestSum]
  | t :: ts => by
    rw [pastAll, pastAll_eq parent (m.past t) ts, past_eq parent m t]
    simp [behind, forestBatch, Batch.append, Tree.forestSum, past_eq parent m t, Nat.add_assoc]

end

/-- A mark does not come before another one. -/
structure Mark.Le (m m' : Mark) : Prop where
  node : m.node ≤ m'.node
  piece : m.piece ≤ m'.piece
  child : m.child ≤ m'.child
  offset : m.offset ≤ m'.offset

theorem Mark.le_behind (m : Mark) (p : Batch) (size : Nat) : m.Le (m.behind p size) :=
  ⟨Nat.le_add_right _ _, Nat.le_add_right _ _, Nat.le_add_right _ _, Nat.le_add_right _ _⟩

theorem Mark.le_past (m : Mark) (t : Tree Token) : m.Le (m.past t) :=
  m.past_eq 0 t ▸ m.le_behind _ _

theorem Mark.le_pastAll (m : Mark) (ts : List (Tree Token)) : m.Le (m.pastAll ts) :=
  m.pastAll_eq 0 ts ▸ m.le_behind _ _

theorem forestBatch_append (parent : Nat) (m : Mark) (ss ts : List (Tree Token)) :
    forestBatch parent m (ss ++ ts)
      = (forestBatch parent m ss).append (forestBatch parent (m.pastAll ss) ts) := by
  induction ss generalizing m with
  | nil => rfl
  | cons s ss ih =>
    rw [List.cons_append, forestBatch, ih]
    simp [Batch.append, forestBatch, Mark.pastAll]

/-! ## Finding parts again -/

/-- A list has another one in it, from a place on. -/
def Stands {α : Type} (l : List α) (i : Nat) (part : List α) : Prop :=
  ∃ before after, l = before ++ (part ++ after) ∧ before.length = i

namespace Stands

variable {α : Type} {l p q : List α} {i : Nat} {x : α}

theorem append (h : Stands l i (p ++ q)) : Stands l i p ∧ Stands l (i + p.length) q := by
  obtain ⟨before, after, rfl, rfl⟩ := h
  exact ⟨⟨before, q ++ after, by simp, rfl⟩, ⟨before ++ p, after, by simp, by simp⟩⟩

theorem cons (h : Stands l i (x :: p)) : l[i]? = some x ∧ Stands l (i + 1) p := by
  obtain ⟨before, after, rfl, rfl⟩ := h
  exact ⟨by simp, before ++ [x], after, by simp, by simp⟩

/-- What stands there is cut out of the list again. -/
theorem slice (h : Stands l i p) : i + p.length ≤ l.length ∧ (l.drop i).take p.length = p := by
  obtain ⟨before, after, rfl, rfl⟩ := h
  exact ⟨by simp, by simp⟩

end Stands

/-- An arena has a batch at a mark, and the pieces there begin at the offset of the mark. -/
structure Holds (a : Arena) (m : Mark) (p : Batch) : Prop where
  pieces : Stands a.pieces m.piece p.pieces
  nodes : Stands a.nodes m.node p.nodes
  children : Stands a.children m.child p.children
  startOf : a.startOf? m.piece = some m.offset

variable {a : Arena} {m : Mark} {parent : Nat}

theorem span?_of_le {start stop : Nat} (h : start ≤ stop) :
    span? start stop = some ⟨start, stop⟩ :=
  if_pos h

theorem startOf?_succ {p : Piece} {i : Nat} (h : a.pieces[i]? = some p) :
    a.startOf? (i + 1) = some p.stop := by
  rw [startOf?, h, Option.map_some]

/-- Behind trivia, the text goes on where it ends. -/
theorem startOf?_trivia {ts : List Trivia} {i offset : Nat}
    (h : Stands a.pieces i (triviaPieces parent offset ts)) (hi : a.startOf? i = some offset) :
    a.startOf? (i + ts.length) = some (offset + Trivia.sizeOf ts) := by
  induction ts generalizing i offset with
  | nil => exact hi
  | cons t ts ih =>
    obtain ⟨hpiece, hmore⟩ := h.cons
    rw [List.length_cons, ← Nat.add_assoc, Nat.add_right_comm, ih hmore (startOf?_succ hpiece),
      Trivia.sizeOf, Nat.add_assoc]

/-- What an arena that holds a token has at the token's pieces. -/
structure HasToken (a : Arena) (parent : Nat) (m : Mark) (t : Token) : Prop where
  leading : Stands a.pieces m.piece (triviaPieces parent m.offset t.leading)
  token : a.pieces[m.piece + t.leading.length]?
    = some ⟨.token t.kind, t.leading.length, t.trailing.length,
        m.offset + t.leadingSize + t.size, parent⟩
  trailing : Stands a.pieces (m.piece + t.leading.length + 1)
    (triviaPieces parent (m.offset + t.leadingSize + t.size) t.trailing)
  start : a.startOf? m.piece = some m.offset

namespace HasToken

variable {t : Token} (h : a.HasToken parent m t)

include h

theorem startOf?_token : a.startOf? (m.piece + t.leading.length)
    = some (m.offset + t.leadingSize) :=
  startOf?_trivia h.leading h.start

theorem startOf?_trailing : a.startOf? (m.piece + t.leading.length + 1)
    = some (m.offset + t.leadingSize + t.size) :=
  startOf?_succ h.token

theorem startOf?_past : a.startOf? (m.pastToken t).piece = some (m.pastToken t).offset := by
  have hstop := startOf?_trivia h.trailing h.startOf?_trailing
  simpa [Mark.pastToken, Token.fullSize, Nat.add_assoc, Nat.add_comm 1] using hstop

theorem pieceSpan? : a.pieceSpan? (m.piece + t.leading.length)
    = some ⟨m.offset + t.leadingSize, m.offset + t.leadingSize + t.size⟩ := by
  rw [Arena.pieceSpan?, h.startOf?_token, h.startOf?_trailing]
  exact span?_of_le (Nat.le_add_right _ _)

theorem leading? : a.leading? (m.piece + t.leading.length)
    = some (List.range' m.piece t.leading.length) := by
  rw [Arena.leading?, h.token]
  simp

theorem trailing? : a.trailing? (m.piece + t.leading.length)
    = some (List.range' (m.piece + t.leading.length + 1) t.trailing.length) := by
  rw [Arena.trailing?, h.token]
  simp

end HasToken

theorem Holds.token {t : Token} (h : a.Holds m (treeBatch parent m (.leaf t))) :
    a.HasToken parent m t := by
  obtain ⟨hleading, hrest⟩ := h.pieces.append
  rw [length_triviaPieces] at hrest
  exact ⟨hleading, hrest.cons.1, hrest.cons.2, h.startOf⟩

/-- What holds a node holds its children. -/
theorem Holds.inner {parent : Option Nat} {kind : NodeKind} {children : List (Tree Token)}
    {p : Batch} (h : a.Holds m (p.enclose parent m kind children)) : a.Holds m.enter p :=
  ⟨h.pieces, h.nodes.cons.2, h.children.append.1, h.startOf⟩

/-- What holds some trees holds the first of them. -/
theorem Holds.head {t : Tree Token} {ts : List (Tree Token)}
    (h : a.Holds m (forestBatch parent m (t :: ts))) : a.Holds m (treeBatch parent m t) :=
  ⟨h.pieces.append.1, h.nodes.append.1, h.children.append.1, h.startOf⟩

-- That the text goes on behind a tree is shown with this lemma, so it is a hypothesis here.
/-- What holds some trees holds the others behind the first of them. -/
theorem Holds.tail_of_startOf {t : Tree Token} {ts : List (Tree Token)}
    (h : a.Holds m (forestBatch parent m (t :: ts)))
    (hstart : a.startOf? (m.past t).piece = some (m.past t).offset) :
    a.Holds (m.past t) (forestBatch parent (m.past t) ts) := by
  have hpast := m.past_eq parent t
  have hnode : (m.past t).node = _ := congrArg Mark.node hpast
  have hpiece : (m.past t).piece = _ := congrArg Mark.piece hpast
  have hchild : (m.past t).child = _ := congrArg Mark.child hpast
  refine ⟨?_, ?_, ?_, hstart⟩
  · rw [hpiece]
    exact h.pieces.append.2
  · rw [hnode]
    exact h.nodes.append.2
  · rw [hchild]
    exact h.children.append.2

mutual

/-- Behind a tree, the text goes on where it ends. -/
theorem Holds.startOf_past {parent : Nat} {m : Mark} : (t : Tree Token) →
    a.Holds m (treeBatch parent m t) → a.startOf? (m.past t).piece = some (m.past t).offset
  | .leaf _, h => h.token.startOf?_past
  | .node _ children, h => startOf_pastAll children h.inner

/-- Behind some trees, the text goes on where they end. -/
theorem Holds.startOf_pastAll {parent : Nat} {m : Mark} : (ts : List (Tree Token)) →
    a.Holds m (forestBatch parent m ts) →
    a.startOf? (m.pastAll ts).piece = some (m.pastAll ts).offset
  | [], h => h.startOf
  | t :: ts, h => startOf_pastAll ts (h.tail_of_startOf (startOf_past t h.head))

end

theorem Holds.tail {t : Tree Token} {ts : List (Tree Token)}
    (h : a.Holds m (forestBatch parent m (t :: ts))) :
    a.Holds (m.past t) (forestBatch parent (m.past t) ts) :=
  h.tail_of_startOf (startOf_past t h.head)

/-- What holds a node has a cell for it. -/
theorem Holds.cell {parent : Option Nat} {kind : NodeKind} {children : List (Tree Token)}
    {p : Batch} (h : a.Holds m (p.enclose parent m kind children)) :
    a.nodes[m.node]? = some ⟨parent, (m.enter.pastAll children).child, children.length, kind,
      m.piece, (m.enter.pastAll children).piece⟩ :=
  h.nodes.cons.1

/-- What holds a node lists its children. -/
theorem Holds.childrenOf {parent : Option Nat} {kind : NodeKind} {children : List (Tree Token)}
    (h : a.Holds m (.enclose parent m kind children (forestBatch m.node m.enter children))) :
    a.childrenOf? m.node = some (m.enter.refs children) := by
  have hchild : (m.enter.pastAll children).child
      = m.child + (forestBatch m.node m.enter children).children.length :=
    congrArg Mark.child (m.enter.pastAll_eq m.node children)
  have hrefs := h.children.append.2.slice
  rw [Mark.length_refs] at hrefs
  rw [childrenOf?, h.cell]
  simp only [Option.bind_eq_bind, Option.bind_some]
  rw [hchild, if_pos hrefs.1]
  exact congrArg some hrefs.2

/-- The arena of a tree holds the tree. -/
theorem holds_ofTree (t : SyntaxTree) : (ofTree t).Holds .first (rootBatch t) :=
  ⟨⟨[.sentinel], [], by simp [ofTree], rfl⟩, ⟨[], [], by simp [ofTree], rfl⟩,
    ⟨[], [], by simp [ofTree], rfl⟩, rfl⟩

end Arena

end NginxConf
