import NginxConf.Arena

/-!
# Checking an arena

An arena has more freedom than a tree: its numbers could lead anywhere. What must hold of one that
is a tree is checked in a fixed order, and the first thing found wrong is reported.
-/

namespace NginxConf.Arena

/-- What can be wrong with an arena. -/
inductive Violation
  /-- A number is out of range, or a range ends before it begins. -/
  | outOfRange
  | sentinelNotEmpty
  | endsDecrease
  | textNotReached
  | rootHasParent
  | rootNotWholeText
  | wrongParent
  /-- A node does not come before its child. -/
  | childTooEarly
  | triviaAsChild
  | wrongTokenParent
  | gap (node : Nat)
  | outside
  | endNotReached (node : Nat)
  | rootAsChild
  | notOneParent
deriving DecidableEq, Repr

/-- What is said of it, where it has words of its own. -/
def Violation.message? : Violation → Option String
  | outOfRange | textNotReached => none
  | sentinelNotEmpty => some "sentinel token must be empty"
  | endsDecrease => some "token ends must be monotonic"
  | rootHasParent => some "root must not have a parent"
  | rootNotWholeText => some "root must span the text"
  | wrongParent => some "wrong parent link"
  | childTooEarly => some "child node created before its parent"
  | triviaAsChild => some "trivia listed as a child"
  | wrongTokenParent => some "wrong token parent"
  | gap node => some ("children of " ++ toString node ++ " leave a gap")
  | outside => some "child outside of its parent"
  | endNotReached node => some ("children of " ++ toString node ++ " do not reach the end")
  | rootAsChild => some "root listed as a child"
  | notOneParent => some "node without exactly one parent"

/-- What a number leads to. -/
def given {α : Type} : Option α → Except Violation α
  | some x => .ok x
  | none => .error .outOfRange

/-- What must hold. -/
def require (p : Prop) [Decidable p] (violation : Violation) : Except Violation Unit :=
  if p then .ok () else .error violation

/-- The range of a child, that of a token with its trivia. -/
def childSpan? (a : Arena) : Child → Option Span
  | .piece i => a.tokenSpan? i
  | .node m => a.nodeSpan? m

/-- Whether pieces name a node as the one that holds them. -/
def checkParents (a : Arena) (node : Nat) : List Nat → Except Violation Unit
  | [] => .ok ()
  | i :: is => do
    let piece ← given a.pieces[i]?
    require (piece.parent = node) .wrongTokenParent
    a.checkParents node is

/-- Whether a child of a node names it as its parent. -/
def checkLink (a : Arena) (node : Nat) : Child → Except Violation Unit
  | .node m => do
    let cell ← given a.nodes[m]?
    require (cell.parent = some node) .wrongParent
    require (node < m) .childTooEarly
  | .piece i => do
    let piece ← given a.pieces[i]?
    require (piece.kind.isTrivia = false) .triviaAsChild
    let leading ← given (a.leading? i)
    let trailing ← given (a.trailing? i)
    a.checkParents node (leading ++ i :: trailing)

/-- Checks the children of a node from an offset on, and says where the last one ends. -/
def checkChildren (a : Arena) (node : Nat) (span : Span) (cursor : Nat) :
    List Child → Except Violation Nat
  | [] => .ok cursor
  | c :: cs => do
    a.checkLink node c
    let here ← given (a.childSpan? c)
    require (here.start = cursor) (.gap node)
    require (span.contains here = true) .outside
    a.checkChildren node span here.stop cs

/-- Checks a node with its children. -/
def checkNode (a : Arena) (node : Nat) : Except Violation Unit := do
  let span ← given (a.nodeSpan? node)
  let children ← given (a.childrenOf? node)
  let stop ← a.checkChildren node span span.start children
  require (stop = span.stop) (.endNotReached node)

/-- Checks some nodes. -/
def checkNodes (a : Arena) : List Nat → Except Violation Unit
  | [] => .ok ()
  | n :: ns => do
    a.checkNode n
    a.checkNodes ns

/-- What all nodes list as their children, as often as they do. -/
def listings (a : Arena) : List Child :=
  (List.range a.nodes.length).flatMap fun n => (a.childrenOf? n).getD []

/-- The nodes that are listed as children, as often as they are. -/
def listed (a : Arena) : List Nat := a.listings.filterMap Child.node?

/-- Whether no piece ends before the piece before it. -/
def ascends : List Piece → Bool
  | p :: q :: ps => p.stop ≤ q.stop && ascends (q :: ps)
  | _ => true

/-- Checks that an arena is the one of a tree. -/
def assertInvariants (a : Arena) : Except Violation Unit := do
  let sentinel ← given a.pieces[0]?
  require (sentinel.stop = 0) .sentinelNotEmpty
  require (ascends a.pieces = true) .endsDecrease
  require (a.pieces.getLast?.map Piece.stop = some (Text.size a.text)) .textNotReached
  let root ← given a.nodes[0]?
  require (root.parent = none) .rootHasParent
  let span ← given (a.nodeSpan? 0)
  require (span = ⟨0, Text.size a.text⟩) .rootNotWholeText
  a.checkNodes (List.range a.nodes.length)
  require (a.listed.count 0 = 0) .rootAsChild
  require (∀ n < a.nodes.length, 0 < n → a.listed.count n = 1) .notOneParent

end NginxConf.Arena
