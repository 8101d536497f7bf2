import NginxConf.SyntaxTree.Walk

/-!
# Finding elements by their place

The pieces of text of a node tile its range, so the piece at an offset is found by bisection. The
smallest element around a range is the piece at its start, if that holds the whole range, or else
the innermost node around that piece which does.

## Termination

Bisection halves the interval that is left.
-/

namespace NginxConf

/--
The first number from `lo` up to `hi` that satisfies a condition, or `hi` if none does, where a
number that satisfies it is followed only by such numbers.
-/
def bisect (p : Nat → Bool) (lo hi : Nat) : Nat :=
  if lo < hi then
    let mid := (lo + hi) / 2
    if p mid then bisect p lo mid else bisect p (mid + 1) hi
  else lo
termination_by hi - lo

/-- The pieces of text at an offset: none, one, or the two that meet there. -/
inductive AtOffset
  | none
  | single (l : LeafRef)
  | between (left right : LeafRef)

namespace AtOffset

/-- The pieces, left to right. -/
def toList : AtOffset → List LeafRef
  | none => []
  | single l => [l]
  | between left right => [left, right]

/-- The one piece, or the left one of two. -/
def left? : AtOffset → Option LeafRef
  | none => .none
  | single l => some l
  | between left _ => some left

/-- The one piece, or the right one of two. -/
def right? : AtOffset → Option LeafRef
  | none => .none
  | single l => some l
  | between _ right => some right

end AtOffset

/-- An element that covers a range: a piece of text or a node. -/
inductive Cover
  | node (n : NodeRef)
  | leaf (l : LeafRef)

namespace Cover

def kind : Cover → Kind
  | node n => n.kind
  | leaf l => l.kind

/-- The range of the element with attached trivia. -/
def fullSpan : Cover → Span
  | node n => n.span
  | leaf l => l.fullSpan

def render : Cover → String
  | node n => n.render
  | leaf l => l.render

/-- The node, or the node that holds the piece. -/
def nearestNode : Cover → NodeRef
  | node n => n
  | leaf l => l.parent

end Cover

/-- The pieces of text of a node, for finding many of them. -/
structure LeafIndex where
  /-- The range of the node. -/
  span : Span
  leaves : Array LeafRef

/-- The pieces of text at an offset. -/
def LeafIndex.touching (pieces : LeafIndex) (offset : Nat) : AtOffset :=
  if pieces.span.touches offset then
    let index := bisect (fun i => pieces.leaves[i]?.any (offset ≤ ·.span.stop)) 0 pieces.leaves.size
    match pieces.leaves[index]? with
    | none => .none
    | some l =>
      if l.span.stop = offset then
        match pieces.leaves[index + 1]? with
        | some r => .between l r
        | none => .single l
      else .single l
  else .none

namespace NodeRef

/-- The pieces of text of a node, for finding many of them. -/
def leafIndex (n : NodeRef) : LeafIndex := ⟨n.span, n.leaves.toArray⟩

/-- The pieces of text of a node at an offset. -/
def leafAt (n : NodeRef) (offset : Nat) : AtOffset := n.leafIndex.touching offset

/-- The smallest element that covers a range. -/
def covering (n : NodeRef) (range : Span) : Cover :=
  match (n.leafAt range.start).right? with
  | none => .node n
  | some l =>
    if l.span.contains range then .leaf l
    else .node ((l.parent.ancestors.find? fun m => m.span.contains range).getD n)

end NodeRef

/-- A node as it can be found again in another tree of the same text: by kind and range. -/
structure NodeKey where
  kind : Kind
  /-- The range without the trivia at its ends. -/
  span : Span
deriving DecidableEq, Repr

namespace NodeKey

/-- The key of a node. -/
def ofNode (n : NodeRef) : NodeKey := ⟨n.kind, n.trimmedSpan⟩

/-- Whether a node has the key. -/
def describes (k : NodeKey) (n : NodeRef) : Bool :=
  k.kind == .node n.kind && k.span == n.trimmedSpan

/-- The innermost node with the key, in the tree of a root. Below any other node there is none. -/
def resolve? (k : NodeKey) (root : NodeRef) : Option NodeRef :=
  if root.above.isEmpty then
    (root.covering k.span).nearestNode.ancestors.find? k.describes
  else none

end NodeKey

end NginxConf
