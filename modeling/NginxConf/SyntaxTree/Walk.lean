import NginxConf.SyntaxTree.Place

/-!
# Walking through a tree

The walk through a node is given by recursion (`treeEvents`): a node is entered, its children are
walked in order, and it is left. `NodeRef.events` makes it in one pass over the tree: a `Trail` holds
what has been passed and the offset that has been reached, so that no size is added up twice. A
`Walker` makes the same walk step by step and can be told to leave out what is below the node just
entered.

## Termination

The walks recurse on the trees; a step of a walker does not recurse at all.
-/

namespace NginxConf

/-- A step of a walk. -/
inductive Event
  | enter (n : NodeRef)
  | leave (n : NodeRef)
  | token (t : TokenRef)

mutual

/-- The walk through a tree, as a child of a node. -/
def treeEvents (parent : NodeRef) (position offset : Nat) : Tree Token → List Event
  | .leaf token => [.token ⟨token, offset, position :: parent.address, parent⟩]
  | .node kind children =>
    let n : NodeRef :=
      ⟨⟨kind, children, offset, position :: parent.address⟩, parent.toSite :: parent.above⟩
    .enter n :: (forestEvents n 0 offset children ++ [.leave n])

/-- The walk through trees, as children of a node. -/
def forestEvents (parent : NodeRef) (position offset : Nat) : List (Tree Token) → List Event
  | [] => []
  | t :: ts =>
    treeEvents parent position offset t
      ++ forestEvents parent (position + 1) (offset + t.sum Token.fullSize) ts

end

/-- A walk under way, up to some offset. -/
structure Trail where
  /-- What has been passed, the last event first. -/
  passed : List Event
  offset : Nat

namespace Trail

mutual

/-- Walks on through a tree, as a child of a node. -/
def throughTree (parent : NodeRef) (position : Nat) (trail : Trail) : Tree Token → Trail
  | .leaf token =>
    ⟨.token ⟨token, trail.offset, position :: parent.address, parent⟩ :: trail.passed,
      trail.offset + token.fullSize⟩
  | .node kind children =>
    let n : NodeRef :=
      ⟨⟨kind, children, trail.offset, position :: parent.address⟩,
        parent.toSite :: parent.above⟩
    let inner := throughForest n 0 ⟨.enter n :: trail.passed, trail.offset⟩ children
    ⟨.leave n :: inner.passed, inner.offset⟩

/-- Walks on through trees, as children of a node. -/
def throughForest (parent : NodeRef) (position : Nat) (trail : Trail) : List (Tree Token) → Trail
  | [] => trail
  | t :: ts => throughForest parent (position + 1) (throughTree parent position trail t) ts

end

mutual

/-- Walking on through a tree adds its walk to the trail. -/
theorem throughTree_eq (parent : NodeRef) (position : Nat) (trail : Trail) :
    (t : Tree Token) → throughTree parent position trail t
      = ⟨(treeEvents parent position trail.offset t).reverse ++ trail.passed,
        trail.offset + t.sum Token.fullSize⟩
  | .leaf token => by simp [throughTree, treeEvents, Tree.sum]
  | .node kind children => by
    simp [throughTree, treeEvents, Tree.sum, throughForest_eq _ _ _ children]

/-- Walking on through trees adds their walk to the trail. -/
theorem throughForest_eq (parent : NodeRef) (position : Nat) (trail : Trail) :
    (ts : List (Tree Token)) → throughForest parent position trail ts
      = ⟨(forestEvents parent position trail.offset ts).reverse ++ trail.passed,
        trail.offset + Tree.forestSum Token.fullSize ts⟩
  | [] => by simp [throughForest, forestEvents, Tree.forestSum]
  | t :: ts => by
    simp [throughForest, forestEvents, Tree.forestSum, throughTree_eq parent position trail t,
      throughForest_eq parent (position + 1) _ ts, Nat.add_assoc]

end

end Trail

/-- Tokens without the trivia after the last one. -/
def Token.trimTrailing : List Token → List Token
  | [] => []
  | [t] => [{ t with trailing := [] }]
  | t :: ts => t :: trimTrailing ts

namespace NodeRef

/-- The walk through a node. -/
def events (n : NodeRef) : List Event :=
  let inner := Trail.throughForest n 0 ⟨[.enter n], n.start⟩ n.children
  (.leave n :: inner.passed).reverse

/-- **The walk enters the node, goes through its children in order, and leaves it.** -/
theorem events_eq (n : NodeRef) :
    n.events = .enter n :: (forestEvents n 0 n.start n.children ++ [.leave n]) := by
  simp [events, Trail.throughForest_eq]

/-- The node and all nodes below it, a node before those below it. -/
def descendants (n : NodeRef) : List NodeRef :=
  n.events.filterMap fun
    | .enter m => some m
    | _ => none

/-- All tokens of a node, in order. -/
def allTokens (n : NodeRef) : List TokenRef :=
  n.events.filterMap fun
    | .token t => some t
    | _ => none

/-- All pieces of text of a node, in order. -/
def leaves (n : NodeRef) : List LeafRef := n.allTokens.flatMap TokenRef.pieces

/-- The first token of a node. -/
def firstToken? (n : NodeRef) : Option TokenRef := n.allTokens.head?

/-- The last token of a node. -/
def lastToken? (n : NodeRef) : Option TokenRef := n.allTokens.getLast?

/-- The range of a node without the trivia at its ends. -/
def trimmedSpan (n : NodeRef) : Span :=
  match Tree.forestFirstLeaf? n.children, Tree.forestLastLeaf? n.children with
  | some first, some last =>
    ⟨n.span.start + first.leadingSize, n.span.stop - Trivia.sizeOf last.trailing⟩
  | _, _ => .point n.start

/-- The tokens of a node without the trivia at its ends. -/
def trimmedTokens (n : NodeRef) : List Token :=
  Token.trimTrailing ((Tree.forestLeaves n.children).modifyHead fun t => { t with leading := [] })

/-- The text of a node without the trivia at its ends. -/
def trimmedText (n : NodeRef) : Text := n.trimmedTokens.flatMap Token.fullText

/-! ## The written form of a tree -/

/-- The lines of a walk: one for each node and for each piece of text, indented by depth. -/
def dumpLines (indent : Nat) : List Event → List String
  | [] => []
  | .enter n :: es => line n.render :: dumpLines (indent + 2) es
  | .leave _ :: es => dumpLines (indent - 2) es
  | .token t :: es => t.pieces.map (fun l => line l.render) ++ dumpLines indent es
where
  /-- A line of the written form. -/
  line (s : String) : String := String.ofList (List.replicate indent ' ') ++ s ++ "\n"

/-- The written form of a node and all that is below it, one element on each line. -/
def dump (n : NodeRef) : String := String.join (dumpLines 0 n.events)

end NodeRef

/-! ## Step by step -/

/-- A walk under way. -/
structure Walker where
  /-- The node at which the walk begins, as long as it has not begun. -/
  ahead : Option NodeRef
  /-- The nodes entered and not left, innermost first, with their children still ahead. -/
  entered : List (NodeRef × List ElementRef)

namespace Walker

/-- The walk through a node, not yet begun. -/
def start (n : NodeRef) : Walker := ⟨some n, []⟩

/-- The next event and the walk after it, unless the walk is over. -/
def next? (w : Walker) : Option (Event × Walker) :=
  match w.ahead with
  | some n => some (.enter n, ⟨none, (n, n.elements) :: w.entered⟩)
  | none =>
    match w.entered with
    | [] => none
    | (n, []) :: outer => some (.leave n, ⟨none, outer⟩)
    | (n, .token t :: more) :: outer => some (.token t, ⟨none, (n, more) :: outer⟩)
    | (n, .node m :: more) :: outer =>
      some (.enter m, ⟨none, (m, m.elements) :: (n, more) :: outer⟩)

/-- Passes over the tokens that come next. -/
def skipTokens (w : Walker) : Walker :=
  match w.ahead, w.entered with
  | none, (n, more) :: outer =>
    ⟨none, (n, more.dropWhile fun | .token _ => true | .node _ => false) :: outer⟩
  | _, _ => w

/-- The next event that is not a token. -/
def nextNode? (w : Walker) : Option (Event × Walker) := w.skipTokens.next?

/--
Leaves out the rest of the innermost node entered, the event of leaving it as well. There is no
answer when no node is entered.
-/
def skipSubtree? (w : Walker) : Option Walker :=
  match w.entered with
  | [] => none
  | _ :: outer => some { w with entered := outer }

end Walker

end NginxConf
