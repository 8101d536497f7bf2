import NginxConf.SyntaxTree.Builder
import NginxConf.SyntaxTree.Walk

/-!
# Step by step through a tree

A walker gives the events of the walk one by one, and can give no others (`Walker.walks_iff`). Read
as calls, the events are the calls that build the tree (`SyntaxTree.map_call_events`).
-/

namespace NginxConf

namespace Walker

/-- The walker comes to its end after these events. -/
inductive Walks : Walker → List Event → Prop
  | ended {w} (h : w.next? = none) : Walks w []
  | event {w e w' es} (h : w.next? = some (e, w')) (more : Walks w' es) : Walks w (e :: es)

theorem Walks.eq {w : Walker} {es es' : List Event} (h : w.Walks es) (h' : w.Walks es') :
    es = es' := by
  induction h generalizing es' with
  | ended h =>
    cases h' with
    | ended => rfl
    | event hevent => rw [h] at hevent; cases hevent
  | event h more ih =>
    cases h' with
    | ended hended => rw [h] at hended; cases hended
    | event hevent more' =>
      rw [h] at hevent
      cases hevent
      rw [ih more']

mutual

/-- A walker goes through a child. -/
theorem walks_tree (parent : NodeRef) (position offset : Nat) {n : NodeRef}
    {more : List ElementRef} {outer : List (NodeRef × List ElementRef)} {es : List Event} :
    (t : Tree Token) → Walks ⟨none, (n, more) :: outer⟩ es →
    Walks ⟨none, (n, parent.place position offset t :: more) :: outer⟩
      (treeEvents parent position offset t ++ es)
  | .leaf _, hes => .event rfl hes
  | .node kind children, hes => by
    rw [treeEvents, List.cons_append, List.append_assoc]
    refine .event rfl ?_
    rw [← List.append_nil (NodeRef.elements _)]
    exact walks_forest _ 0 offset children (.event rfl hes)

/-- A walker goes through some children. -/
theorem walks_forest (parent : NodeRef) (position offset : Nat) {n : NodeRef}
    {more : List ElementRef} {outer : List (NodeRef × List ElementRef)} {es : List Event} :
    (ts : List (Tree Token)) → Walks ⟨none, (n, more) :: outer⟩ es →
    Walks ⟨none, (n, parent.placeAll position offset ts ++ more) :: outer⟩
      (forestEvents parent position offset ts ++ es)
  | [], hes => hes
  | t :: ts, hes => by
    rw [forestEvents, List.append_assoc]
    exact walks_tree parent position offset t (walks_forest parent (position + 1) _ ts hes)

end

/-- **A walker makes the walk through the node.** -/
theorem walks_iff {n : NodeRef} {es : List Event} : (start n).Walks es ↔ es = n.events := by
  have hall : (start n).Walks n.events := by
    rw [NodeRef.events_eq]
    refine .event rfl ?_
    rw [← List.append_nil (NodeRef.elements _)]
    exact walks_forest n 0 n.start n.children (.event rfl (.ended rfl))
  constructor
  · intro h
    exact h.eq hall
  · rintro rfl
    exact hall

end Walker

/-! ## Read as calls -/

/-- The call that leads to a step of a walk through a tree. -/
def Event.call : Event → BuildCall
  | .enter n => .start n.kind
  | .leave _ => .finish
  | .token t => t.token.call

mutual

/-- The walk through a tree reads its calls. -/
theorem map_call_treeEvents (parent : NodeRef) (position offset : Nat) : (t : Tree Token) →
    (treeEvents parent position offset t).map Event.call = treeCalls t
  | .leaf _ => rfl
  | .node kind children => by
    simp [treeEvents, treeCalls, Event.call, map_call_forestEvents]

/-- The walk through some trees reads their calls. -/
theorem map_call_forestEvents (parent : NodeRef) (position offset : Nat) :
    (ts : List (Tree Token)) →
    (forestEvents parent position offset ts).map Event.call = forestCalls ts
  | [] => rfl
  | t :: ts => by
    rw [forestEvents, List.map_append, map_call_treeEvents, map_call_forestEvents _ _ _ ts,
      forestCalls]

end

theorem SyntaxTree.map_call_events (t : SyntaxTree) :
    (NodeRef.root t).events.map Event.call = t.calls := by
  rw [NodeRef.events_eq, List.map_cons, List.map_append, map_call_forestEvents]
  rfl

end NginxConf
