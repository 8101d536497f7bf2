import NginxConf.Arena
import NginxConf.SyntaxTree.Search

/-!
# Finding parts of an arena by their place

The pieces of a node are those between two numbers, and where they end is stored in order. So the
pieces at an offset are found by bisection of that part of the list. The nodes around a piece are
those that the numbers of parents lead to.

## Termination

The number of a parent is smaller than that of its child. Where it is not, the way up ends.
-/

namespace NginxConf.Arena

/-- The pieces at an offset: none, one, or the two that meet there. -/
inductive Touching
  | none
  | single (i : Nat)
  | between (left right : Nat)
deriving DecidableEq, Repr

/-- The one piece, or the right one of two. -/
def Touching.right? : Touching → Option Nat
  | none => .none
  | single i => some i
  | between _ right => some right

/-- The pieces of a node at an offset. -/
def touching? (a : Arena) (n offset : Nat) : Option Touching := do
  let cell ← a.nodes[n]?
  let span ← a.nodeSpan? n
  if span.touches offset then
    if cell.first ≤ cell.stop ∧ cell.stop ≤ a.pieces.length then
      let i := bisect (fun i => a.pieces[i]?.any (offset ≤ ·.stop)) cell.first cell.stop
      if i < cell.stop then
        let here ← a.pieceSpan? i
        if here.stop = offset ∧ i + 1 < cell.stop then some (.between i (i + 1))
        else some (.single i)
      else some .none
    else none
  else some .none

/-- A node and the nodes around it, from the inside out. -/
def up (a : Arena) (n : Nat) : List Nat :=
  match a.nodes[n]?.bind Cell.parent with
  | some p => if p < n then n :: a.up p else [n]
  | none => [n]
termination_by n

/-- The smallest element that covers a range, below a node or around it. -/
def covering? (a : Arena) (n : Nat) (range : Span) : Option Child := do
  match (← a.touching? n range.start).right? with
  | none => some (.node n)
  | some i =>
    let span ← a.pieceSpan? i
    if span.contains range then some (.piece i)
    else
      let piece ← a.pieces[i]?
      let found := (a.up piece.parent).find? fun m => (a.nodeSpan? m).any (·.contains range)
      some (.node (found.getD n))

/-- Whether a piece is not trivia. -/
def isSolid (a : Arena) (i : Nat) : Bool := a.pieces[i]?.any (!·.kind.isTrivia)

/-- The range of a node without the trivia at its ends. -/
def trimmedSpan? (a : Arena) (n : Nat) : Option Span := do
  let cell ← a.nodes[n]?
  let pieces := List.range' cell.first (cell.stop - cell.first)
  match pieces.find? a.isSolid, pieces.reverse.find? a.isSolid with
  | some first, some last => span? (← a.pieceSpan? first).start (← a.pieceSpan? last).stop
  | _, _ => return .point (← a.nodeSpan? n).start

/-- The key of a node. -/
def key? (a : Arena) (n : Nat) : Option NodeKey := do
  let cell ← a.nodes[n]?
  return ⟨.node cell.kind, ← a.trimmedSpan? n⟩

/-- The node at which the search for a key begins, in the tree of a root. -/
def nearest? (a : Arena) (root : Nat) (range : Span) : Option Nat := do
  match ← a.covering? root range with
  | .node n => some n
  | .piece i => a.pieces[i]?.map Piece.parent

/-- The innermost node with a key, in the tree of a root. Below any other node there is none. -/
def resolve? (a : Arena) (k : NodeKey) (root : Nat) : Option (Option Nat) := do
  let cell ← a.nodes[root]?
  if cell.parent.isNone then
    return (a.up (← a.nearest? root k.span)).find? fun n => a.key? n = some k
  else return none

end NginxConf.Arena
