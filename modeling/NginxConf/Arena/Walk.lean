import NginxConf.Arena

/-!
# Walking through an arena

A walk goes from node to node by the lists of children. It keeps the nodes that it has entered and
not left, each with the children still ahead. From what it meets, the calls that build the tree can
be read off.

## Termination

A step does not recurse. In an arena that is no tree, steps can go on without end, so whole walks
are given by a relation.
-/

namespace NginxConf.Arena

/-- A step of a walk. -/
inductive Event
  | enter (node : Nat)
  | leave (node : Nat)
  | token (piece : Nat)
deriving DecidableEq, Repr

/-- A walk under way. -/
structure Walk where
  /-- The node at which the walk begins, as long as it has not begun. -/
  ahead : Option Nat
  /-- The nodes entered and not left, innermost first, with their children still ahead. -/
  entered : List (Nat × List Child)
deriving DecidableEq, Repr

/-- The walk through the root, not yet begun. -/
def Walk.start : Walk := ⟨some 0, []⟩

/-- The walk through a node, not yet begun. -/
def Walk.startAt (n : Nat) : Walk := ⟨some n, []⟩

/--
Leaves out the rest of the innermost node entered, the event of leaving it as well. There is no
answer when no node is entered.
-/
def Walk.skipSubtree? (w : Walk) : Option Walk :=
  match w.entered with
  | [] => none
  | _ :: outer => some { w with entered := outer }

/-- Passes over the tokens that come next. -/
def Walk.skipTokens (w : Walk) : Walk :=
  match w.ahead, w.entered with
  | none, (n, more) :: outer => ⟨none, (n, more.dropWhile (·.node?.isNone)) :: outer⟩
  | _, _ => w

/-- How a walk goes on. -/
inductive Step
  | event (event : Event) (walk : Walk)
  | ended
  /-- A number is out of range. -/
  | lost
deriving DecidableEq, Repr

/-- Enters a node. -/
def enter (a : Arena) (n : Nat) (entered : List (Nat × List Child)) : Step :=
  match a.childrenOf? n with
  | some children => .event (.enter n) ⟨none, (n, children) :: entered⟩
  | none => .lost

/-- The next step of a walk. -/
def next (a : Arena) (w : Walk) : Step :=
  match w.ahead with
  | some n => a.enter n w.entered
  | none =>
    match w.entered with
    | [] => .ended
    | (n, []) :: outer => .event (.leave n) ⟨none, outer⟩
    | (n, .piece i :: more) :: outer => .event (.token i) ⟨none, (n, more) :: outer⟩
    | (n, .node m :: more) :: outer => a.enter m ((n, more) :: outer)

/-- The next step of a walk that is not a token. -/
def nextNode (a : Arena) (w : Walk) : Step := a.next w.skipTokens

/-- The walk comes to its end after these events. -/
inductive Walks (a : Arena) : Walk → List Event → Prop
  | ended {w} (h : a.next w = .ended) : Walks a w []
  | event {w e w' es} (h : a.next w = .event e w') (more : Walks a w' es) : Walks a w (e :: es)

/-! ## Reading calls off a walk -/

/-- A piece of trivia by its length. -/
def triviaLength? (a : Arena) (i : Nat) : Option TriviaLength := do
  let piece ← a.pieces[i]?
  let kind ← piece.kind.trivia?
  let span ← a.pieceSpan? i
  some ⟨kind, span.size⟩

/-- The call that leads to an event. -/
def call? (a : Arena) : Event → Option BuildCall
  | .enter n => a.nodes[n]?.map fun cell => .start (.node cell.kind)
  | .leave _ => some .finish
  | .token i => do
    let piece ← a.pieces[i]?
    let span ← a.pieceSpan? i
    let leading ← (← a.leading? i).mapM a.triviaLength?
    let trailing ← (← a.trailing? i).mapM a.triviaLength?
    some (.token leading piece.kind span.size trailing)

/-- The walk through the arena reads these calls. -/
def Reads (a : Arena) (calls : List BuildCall) : Prop :=
  ∃ events, a.Walks .start events ∧ events.mapM a.call? = some calls

end NginxConf.Arena
