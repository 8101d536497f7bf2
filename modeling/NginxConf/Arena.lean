import NginxConf.SyntaxTree.Builder

/-!
# Trees in arenas

A finished tree is stored in three lists: the pieces of text in order, trivia and tokens alike; the
nodes in the order in which they were begun; and the children of the nodes, those of one node next
to each other. All of them are known by their numbers.

A piece holds no more than where it ends, for it begins where the piece before it ends. The list of
pieces therefore begins with a piece without text, a sentinel. A node holds the numbers of its first
piece and of the one behind its last piece, so that an empty node has a place, too.

What is asked for by a number that is out of range has no answer.
-/

namespace NginxConf

namespace Arena

/-- A piece of text: a token or a piece of trivia. -/
structure Piece where
  kind : Kind
  /-- The number of pieces of trivia right before a token that belong to it. -/
  leading : Nat
  /-- The number of pieces of trivia right behind a token that belong to it. -/
  trailing : Nat
  stop : Nat
  /-- The node that holds the token; for trivia, the one that holds the token it belongs to. -/
  parent : Nat
deriving DecidableEq, Repr

/-- The piece without text that stands before all others. -/
def Piece.sentinel : Piece := ⟨.node .tombstone, 0, 0, 0, 0⟩

/-- A node, with its place among the pieces and that of its children in the list of children. -/
structure Cell where
  /-- The node that holds this one. -/
  parent : Option Nat
  childrenStart : Nat
  childrenLength : Nat
  kind : NodeKind
  first : Nat
  /-- One past the last piece. -/
  stop : Nat
deriving DecidableEq, Repr

/-- A child of a node. -/
inductive Child
  | piece (index : Nat)
  | node (index : Nat)
deriving DecidableEq, Repr

/-- The child that is a node. -/
def Child.node? : Child → Option Nat
  | piece _ => none
  | node index => some index

end Arena

/-- A finished tree. -/
structure Arena where
  text : Text
  pieces : List Arena.Piece
  nodes : List Arena.Cell
  children : List Arena.Child
deriving DecidableEq, Repr

namespace Arena

/-! ## Places -/

/-- A range that does not end before it begins. -/
def span? (start stop : Nat) : Option Span := if start ≤ stop then some ⟨start, stop⟩ else none

/-- Where the piece before one of this number ends. -/
def startOf? (a : Arena) : Nat → Option Nat
  | 0 => none
  | i + 1 => a.pieces[i]?.map Piece.stop

/-- The range of a piece. -/
def pieceSpan? (a : Arena) (i : Nat) : Option Span := do
  span? (← a.startOf? i) (← a.startOf? (i + 1))

/-- The range of a node. -/
def nodeSpan? (a : Arena) (i : Nat) : Option Span := do
  let cell ← a.nodes[i]?
  span? (← a.startOf? cell.first) (← a.startOf? cell.stop)

/-- The children of a node. -/
def childrenOf? (a : Arena) (i : Nat) : Option (List Child) := do
  let cell ← a.nodes[i]?
  if cell.childrenStart + cell.childrenLength ≤ a.children.length then
    some ((a.children.drop cell.childrenStart).take cell.childrenLength)
  else none

/-- The pieces of trivia before a token that belong to it. -/
def leading? (a : Arena) (i : Nat) : Option (List Nat) := do
  let piece ← a.pieces[i]?
  if piece.leading ≤ i then some (List.range' (i - piece.leading) piece.leading) else none

/-- The pieces of trivia behind a token that belong to it. -/
def trailing? (a : Arena) (i : Nat) : Option (List Nat) := do
  let piece ← a.pieces[i]?
  some (List.range' (i + 1) piece.trailing)

/-- The range of a token, its trivia included. -/
def tokenSpan? (a : Arena) (i : Nat) : Option Span := do
  let first := (← a.leading? i).head?.getD i
  let last := (← a.trailing? i).getLast?.getD i
  span? (← a.pieceSpan? first).start (← a.pieceSpan? last).stop

end Arena

end NginxConf
