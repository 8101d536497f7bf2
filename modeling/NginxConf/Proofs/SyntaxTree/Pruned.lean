import NginxConf.Proofs.SyntaxTree.Walk
import NginxConf.SyntaxTree.Visit

/-!
# Walks that leave out nodes

A walk that leaves out what is below the nodes of some kinds is given by recursion, too
(`NodeRef.prunedEvents`). A walker makes it when it is told to skip after each of these nodes
(`Walker.yields_iff`), one that passes over the tokens makes it without them
(`Walker.yields_nodes_iff`), and a visitor that does not go on below these nodes logs what the walk
meets (`NodeRef.visitLog_eq`).
-/

namespace NginxConf

/-- The walk through a node, where it goes `below` unless the node is of some kinds. -/
def prunedNode (stop : NodeKind → Bool) (n : NodeRef) (below : List Event) : List Event :=
  if stop n.kind then [.enter n] else .enter n :: (below ++ [.leave n])

mutual

/-- The walk through a tree that leaves out what is below some nodes. -/
def prunedTree (stop : NodeKind → Bool) (parent : NodeRef) (position offset : Nat) :
    Tree Token → List Event
  | .leaf token => [.token ⟨token, offset, position :: parent.address, parent⟩]
  | .node kind children =>
    let n : NodeRef :=
      ⟨⟨kind, children, offset, position :: parent.address⟩, parent.toSite :: parent.above⟩
    prunedNode stop n (prunedForest stop n 0 offset children)

/-- The walk through trees that leaves out what is below some nodes. -/
def prunedForest (stop : NodeKind → Bool) (parent : NodeRef) (position offset : Nat) :
    List (Tree Token) → List Event
  | [] => []
  | t :: ts =>
    prunedTree stop parent position offset t
      ++ prunedForest stop parent (position + 1) (offset + t.sum Token.fullSize) ts

end

/--
The walk through a node that leaves out what is below the nodes of some kinds, and that they are
left.
-/
def NodeRef.prunedEvents (n : NodeRef) (stop : NodeKind → Bool) : List Event :=
  prunedNode stop n (prunedForest stop n 0 n.start n.children)

mutual

theorem prunedTree_never (parent : NodeRef) (position offset : Nat) : (t : Tree Token) →
    prunedTree (fun _ => false) parent position offset t = treeEvents parent position offset t
  | .leaf _ => rfl
  | .node kind children => by
    rw [prunedTree, treeEvents, prunedForest_never _ 0 offset children]
    rfl

theorem prunedForest_never (parent : NodeRef) (position offset : Nat) :
    (ts : List (Tree Token)) →
    prunedForest (fun _ => false) parent position offset ts
      = forestEvents parent position offset ts
  | [] => rfl
  | t :: ts => by
    rw [prunedForest, forestEvents, prunedTree_never parent position offset t,
      prunedForest_never parent (position + 1) _ ts]

end

/-- A walk that leaves out nothing is the whole walk. -/
theorem NodeRef.prunedEvents_never (n : NodeRef) : n.prunedEvents (fun _ => false) = n.events := by
  rw [prunedEvents, prunedForest_never, events_eq]
  rfl

namespace Event

/-- Whether a node of one of the kinds is entered. -/
def enters (stop : NodeKind → Bool) : Event → Bool
  | enter n => stop n.kind
  | _ => false

def isToken : Event → Bool
  | token _ => true
  | _ => false

/-- What a visitor sees of an event. A node that stands for nothing is not seen. -/
def visited? : Event → Option Visited
  | enter n => if n.kind = .tombstone then none else some (.node n)
  | leave _ => none
  | token t => some (.token t)

end Event

/-! ## Step by step -/

namespace Walker

/--
A walk that goes on by `next`, and skips after each node of some kinds that it has entered, comes to
its end after these events.
-/
inductive Yields (next : Walker → Option (Event × Walker)) (stop : NodeKind → Bool) :
    Walker → List Event → Prop
  | ended {w} (h : next w = none) : Yields next stop w []
  | event {w e w' es} (h : next w = some (e, w')) (hgo : e.enters stop = false)
      (more : Yields next stop w' es) : Yields next stop w (e :: es)
  | skipped {w e w' w'' es} (h : next w = some (e, w')) (hstop : e.enters stop = true)
      (hskip : w'.skipSubtree? = some w'') (more : Yields next stop w'' es) :
      Yields next stop w (e :: es)

variable {next : Walker → Option (Event × Walker)} {stop : NodeKind → Bool} {w w' : Walker}
  {es : List Event}

theorem Yields.eq {es' : List Event} (h : Yields next stop w es) (h' : Yields next stop w es') :
    es = es' := by
  induction h generalizing es' with
  | ended h =>
    cases h' with
    | ended => rfl
    | event hevent => rw [h] at hevent; cases hevent
    | skipped hevent => rw [h] at hevent; cases hevent
  | event h hgo more ih =>
    cases h' with
    | ended hended => rw [h] at hended; cases hended
    | event hevent _ more' =>
      rw [h] at hevent
      cases hevent
      rw [ih more']
    | skipped hevent hstop =>
      rw [h] at hevent
      cases hevent
      rw [hgo] at hstop
      cases hstop
  | skipped h hstop hskip more ih =>
    cases h' with
    | ended hended => rw [h] at hended; cases hended
    | event hevent hgo =>
      rw [h] at hevent
      cases hevent
      rw [hgo] at hstop
      cases hstop
    | skipped hevent _ hskip' more' =>
      rw [h] at hevent
      cases hevent
      rw [hskip] at hskip'
      cases hskip'
      rw [ih more']

/-- A walk depends on its next step only. -/
theorem Yields.congr (h : Yields next stop w es) (hnext : next w' = next w) :
    Yields next stop w' es := by
  cases h with
  | ended h => exact .ended (hnext.trans h)
  | event h hgo more => exact .event (hnext.trans h) hgo more
  | skipped h hstop hskip more => exact .skipped (hnext.trans h) hstop hskip more

/-- A walker that enters a node next goes through it, where it goes below if it does not skip. -/
theorem yields_node {n : NodeRef} {outer : List (NodeRef × List ElementRef)} {below : List Event}
    (hw : w.next? = some (.enter n, ⟨none, (n, n.elements) :: outer⟩))
    (hes : Yields next? stop ⟨none, outer⟩ es)
    (hbelow : Yields next? stop ⟨none, (n, []) :: outer⟩ (.leave n :: es) →
      Yields next? stop ⟨none, (n, n.elements) :: outer⟩ (below ++ .leave n :: es)) :
    Yields next? stop w (prunedNode stop n below ++ es) := by
  rw [prunedNode]
  cases hstop : stop n.kind with
  | true => exact .skipped hw hstop rfl hes
  | false =>
    rw [if_neg Bool.false_ne_true, List.cons_append, List.append_assoc]
    exact .event hw hstop (hbelow (.event rfl rfl hes))

mutual

/-- A walker goes through a child. -/
theorem yields_tree (parent : NodeRef) (position offset : Nat) {n : NodeRef}
    {more : List ElementRef} {outer : List (NodeRef × List ElementRef)} {es : List Event} :
    (t : Tree Token) → Yields next? stop ⟨none, (n, more) :: outer⟩ es →
    Yields next? stop ⟨none, (n, parent.place position offset t :: more) :: outer⟩
      (prunedTree stop parent position offset t ++ es)
  | .leaf _, hes => .event rfl rfl hes
  | .node kind children, hes => by
    refine yields_node rfl hes fun hleave => ?_
    rw [← List.append_nil (NodeRef.elements _)]
    exact yields_forest _ 0 offset children hleave

/-- A walker goes through some children. -/
theorem yields_forest (parent : NodeRef) (position offset : Nat) {n : NodeRef}
    {more : List ElementRef} {outer : List (NodeRef × List ElementRef)} {es : List Event} :
    (ts : List (Tree Token)) → Yields next? stop ⟨none, (n, more) :: outer⟩ es →
    Yields next? stop ⟨none, (n, parent.placeAll position offset ts ++ more) :: outer⟩
      (prunedForest stop parent position offset ts ++ es)
  | [], hes => hes
  | t :: ts, hes => by
    rw [prunedForest, List.append_assoc]
    exact yields_tree parent position offset t (yields_forest parent (position + 1) _ ts hes)

end

theorem yields_prunedEvents (n : NodeRef) : Yields next? stop (start n) (n.prunedEvents stop) := by
  rw [← List.append_nil (NodeRef.prunedEvents _ _)]
  refine yields_node rfl (.ended rfl) fun hleave => ?_
  rw [← List.append_nil (NodeRef.elements _)]
  exact yields_forest n 0 n.start n.children hleave

/-! ## Without tokens -/

/-- Tokens that come next are passed over one by one. -/
theorem nextNode?_eq (w : Walker) :
    w.nextNode? = match w.next? with
      | some (.token _, w') => w'.nextNode?
      | step => step := by
  obtain ⟨_ | n, entered⟩ := w
  · rcases entered with _ | ⟨⟨n, _ | ⟨_ | m, more⟩⟩, outer⟩ <;> rfl
  · rfl

/-- A walker that passes over tokens gives the other events. -/
theorem Yields.nodes (h : Yields next? stop w es) :
    Yields nextNode? stop w (es.filter fun e => !e.isToken) := by
  induction h with
  | ended h => exact .ended (by rw [nextNode?_eq, h])
  | @event w e w' es h hgo more ih =>
    cases e with
    | token t => exact ih.congr (by rw [nextNode?_eq, h])
    | enter n => exact .event (by rw [nextNode?_eq, h]) hgo ih
    | leave n => exact .event (by rw [nextNode?_eq, h]) hgo ih
  | @skipped w e w' w'' es h hstop hskip more ih =>
    cases e with
    | enter n => exact .skipped (by rw [nextNode?_eq, h]) hstop hskip ih
    | leave n => cases hstop
    | token t => cases hstop

/-- **A walker that skips makes the walk that leaves out nodes.** -/
theorem yields_iff {n : NodeRef} :
    Yields next? stop (start n) es ↔ es = n.prunedEvents stop := by
  constructor
  · intro h
    exact h.eq (yields_prunedEvents n)
  · rintro rfl
    exact yields_prunedEvents n

/-- **One that passes over tokens makes it without them.** -/
theorem yields_nodes_iff {n : NodeRef} :
    Yields nextNode? stop (start n) es ↔
      es = (n.prunedEvents stop).filter fun e => !e.isToken := by
  constructor
  · intro h
    exact h.eq (yields_prunedEvents n).nodes
  · rintro rfl
    exact (yields_prunedEvents n).nodes

end Walker

/-! ## Visits -/

namespace Visitor

variable {stop : NodeKind → Bool}

/-- A visit of a node logs what its walk meets, where it does so below. -/
theorem enter_log (hstop : stop .tombstone = false) (n : NodeRef)
    {visit : List Visited → List Visited} {below : List Event}
    (hbelow : ∀ log, visit log = (below.filterMap Event.visited?).reverse ++ log)
    (log : List Visited) :
    (logVisitor stop).enter n visit log
      = ((prunedNode stop n below).filterMap Event.visited?).reverse ++ log := by
  rw [enter, prunedNode]
  by_cases htombstone : n.kind = .tombstone
  · simp [htombstone, hstop, hbelow, Event.visited?]
  · cases hkind : stop n.kind <;> simp [htombstone, hkind, hbelow, logVisitor, Event.visited?]

mutual

/-- A visit of a tree logs what its walk meets. -/
theorem visitTree_log (hstop : stop .tombstone = false) (parent : NodeRef) (position offset : Nat) :
    (t : Tree Token) → (log : List Visited) →
    (logVisitor stop).visitTree parent position offset t log
      = ((prunedTree stop parent position offset t).filterMap Event.visited?).reverse ++ log
  | .leaf _, _ => rfl
  | .node _ children, log => enter_log hstop _ (visitForest_log hstop _ 0 offset children) log

/-- A visit of some trees logs what their walk meets. -/
theorem visitForest_log (hstop : stop .tombstone = false) (parent : NodeRef)
    (position offset : Nat) : (ts : List (Tree Token)) → (log : List Visited) →
    (logVisitor stop).visitForest parent position offset ts log
      = ((prunedForest stop parent position offset ts).filterMap Event.visited?).reverse ++ log
  | [], _ => rfl
  | t :: ts, log => by
    rw [visitForest, prunedForest, visitTree_log hstop parent position offset t log,
      visitForest_log hstop parent (position + 1) _ ts, List.filterMap_append,
      List.reverse_append, List.append_assoc]

end

end Visitor

/-- **A visit of a node logs what the walk meets that leaves out the same.** -/
theorem NodeRef.visitLog_eq {stop : NodeKind → Bool} (hstop : stop .tombstone = false)
    (n : NodeRef) : n.visitLog stop = (n.prunedEvents stop).filterMap Event.visited? := by
  have hlog := Visitor.visitForest_log hstop n 0 n.start n.children
  rw [visitLog, Visitor.visit, Visitor.enter_log hstop n hlog, List.append_nil,
    List.reverse_reverse]
  rfl

end NginxConf
