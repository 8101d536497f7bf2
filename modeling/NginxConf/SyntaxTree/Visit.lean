import NginxConf.SyntaxTree.Walk

/-!
# Visitors

A visitor carries a state through a tree. For each node it says how the state changes and whether
to go on below the node; a node that stands for nothing is passed through without asking.

## Termination

By recursion on the trees.
-/

namespace NginxConf

/-- What to do at the nodes and tokens of a tree. -/
structure Visitor (σ : Type) where
  /-- The new state, and whether to visit what is below the node. -/
  node : NodeRef → σ → σ × Bool
  token : TokenRef → σ → σ

namespace Visitor

variable {σ : Type} (v : Visitor σ)

/-- Visits the node itself, then `below` if the visitor asks for it. -/
def enter (n : NodeRef) (below : σ → σ) (state : σ) : σ :=
  if n.kind = .tombstone then below state
  else
    let (state, goOn) := v.node n state
    if goOn then below state else state

mutual

/-- Visits a tree, as a child of a node. -/
def visitTree (parent : NodeRef) (position offset : Nat) : Tree Token → σ → σ
  | .leaf token => v.token ⟨token, offset, position :: parent.address, parent⟩
  | .node kind children =>
    let n : NodeRef :=
      ⟨⟨kind, children, offset, position :: parent.address⟩, parent.toSite :: parent.above⟩
    v.enter n (visitForest n 0 offset children)

/-- Visits trees, as children of a node. -/
def visitForest (parent : NodeRef) (position offset : Nat) : List (Tree Token) → σ → σ
  | [], state => state
  | t :: ts, state =>
    visitForest parent (position + 1) (offset + t.sum Token.fullSize) ts
      (visitTree parent position offset t state)

end

/-- Visits a node. -/
def visit (n : NodeRef) : σ → σ := v.enter n (v.visitForest n 0 n.start n.children)

end Visitor

/-- An entry of a log of a visit. -/
inductive Visited
  | node (n : NodeRef)
  | token (t : TokenRef)

/-- The visitor that logs all it sees, latest first, and passes over what is below some nodes. -/
def logVisitor (stop : NodeKind → Bool) : Visitor (List Visited) where
  node n log := (.node n :: log, !stop n.kind)
  token t log := .token t :: log

/-- What a visit of a node sees, in order. -/
def NodeRef.visitLog (n : NodeRef) (stop : NodeKind → Bool) : List Visited :=
  ((logVisitor stop).visit n []).reverse

end NginxConf
