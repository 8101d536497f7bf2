import NginxConf.Proofs.SyntaxTree.Ancestors
import NginxConf.Proofs.SyntaxTree.Cover
import NginxConf.Proofs.Tree.Depth
import NginxConf.SyntaxTree.Visit

/-!
# How deep walks go

The way from the root to a node is no longer than the tree is deep. So a visitor makes no more
calls inside each other than the tree is deep (`Visitor.visitWithin_eq`), and a walker never has more
nodes entered at once (`Walker.Reaches.length_entered_le`).
-/

namespace NginxConf

/-! ## Visits -/

namespace Visitor

variable {σ : Type} (v : Visitor σ)

/-- Visits the node itself, then what is `below` if the visitor asks for it and can go on. -/
def enterWithin (n : NodeRef) (below : σ → Option σ) (state : σ) : Option σ :=
  if n.kind = .tombstone then below state
  else
    let (state, goOn) := v.node n state
    if goOn then below state else some state

mutual

/-- Visits a tree, as a child of a node, where the calls for so many nodes may stand inside each
other. -/
def visitTreeWithin (parent : NodeRef) (position offset : Nat) :
    Nat → Tree Token → σ → Option σ
  | _, .leaf token, state => some (v.token ⟨token, offset, position :: parent.address, parent⟩ state)
  | 0, .node _ _, _ => none
  | calls + 1, .node kind children, state =>
    let n : NodeRef :=
      ⟨⟨kind, children, offset, position :: parent.address⟩, parent.toSite :: parent.above⟩
    v.enterWithin n (visitForestWithin n 0 offset calls children) state

/-- Visits trees, as children of a node, where the calls for so many nodes may stand inside each
other. -/
def visitForestWithin (parent : NodeRef) (position offset : Nat) :
    Nat → List (Tree Token) → σ → Option σ
  | _, [], state => some state
  | calls, t :: ts, state =>
    (visitTreeWithin parent position offset calls t state).bind
      (visitForestWithin parent (position + 1) (offset + t.sum Token.fullSize) calls ts)

end

/-- Visits a node, where the calls for so many nodes may stand inside each other. -/
def visitWithin (n : NodeRef) : Nat → σ → Option σ
  | 0, _ => none
  | calls + 1, state => v.enterWithin n (v.visitForestWithin n 0 n.start calls n.children) state

theorem enterWithin_eq {n : NodeRef} {below : σ → σ} {within : σ → Option σ}
    (h : ∀ state, within state = some (below state)) (state : σ) :
    v.enterWithin n within state = some (v.enter n below state) := by
  unfold enterWithin enter
  split
  · exact h state
  · dsimp only
    split
    · exact h _
    · rfl

mutual

theorem visitTreeWithin_eq (parent : NodeRef) (position offset : Nat) {calls : Nat} :
    (t : Tree Token) → t.depth ≤ calls → ∀ state,
      v.visitTreeWithin parent position offset calls t state
        = some (v.visitTree parent position offset t state)
  | .leaf _, _, _ => by rw [visitTreeWithin, visitTree]
  | .node kind children, h, state => by
    cases calls with
    | zero => exact absurd h (Nat.not_succ_le_zero _)
    | succ calls =>
      rw [visitTreeWithin, visitTree]
      exact v.enterWithin_eq
        (visitForestWithin_eq _ 0 offset children (Nat.le_of_succ_le_succ h)) state

theorem visitForestWithin_eq (parent : NodeRef) (position offset : Nat) {calls : Nat} :
    (ts : List (Tree Token)) → Tree.forestDepth ts ≤ calls → ∀ state,
      v.visitForestWithin parent position offset calls ts state
        = some (v.visitForest parent position offset ts state)
  | [], _, _ => by rw [visitForestWithin, visitForest]
  | t :: ts, h, state => by
    obtain ⟨ht, hts⟩ := Nat.max_le.1 h
    rw [visitForestWithin, visitForest, visitTreeWithin_eq parent position offset t ht,
      Option.bind_some, visitForestWithin_eq parent (position + 1) _ ts hts]

end

/-- **A visit does with as many calls inside each other as the tree is deep.** -/
theorem visitWithin_eq {n : NodeRef} {calls : Nat} (h : Tree.forestDepth n.children < calls)
    (state : σ) : v.visitWithin n calls state = some (v.visit n state) := by
  cases calls with
  | zero => cases h
  | succ calls =>
    exact v.enterWithin_eq
      (v.visitForestWithin_eq n 0 n.start n.children (Nat.le_of_lt_succ h)) state

end Visitor

/-! ## Walks step by step -/

namespace Walker

/-- What can be made of a walker: it is asked for the next event, passes over tokens, or leaves out
what is below a node. -/
inductive Steps : Walker → Walker → Prop
  | next {w e w'} (h : w.next? = some (e, w')) : Steps w w'
  | tokens {w} : Steps w w.skipTokens
  | subtree {w w'} (h : w.skipSubtree? = some w') : Steps w w'

/-- What a walker can become, however it is used. -/
inductive Reaches (w : Walker) : Walker → Prop
  | refl : Reaches w w
  | step {w' w''} (h : Reaches w w') (hstep : Steps w' w'') : Reaches w w''

/-- The nodes that have been entered stand below each other, from a node of the tree down. -/
def Stacked (root : NodeRef) : List (NodeRef × List ElementRef) → Prop
  | [] => True
  | (n, ahead) :: outer =>
    n ∈ root.descendants ∧ n.above.length = root.above.length + outer.length ∧
      (∀ m, .node m ∈ ahead → m ∈ n.nodes) ∧ Stacked root outer

/-- The nodes that a walker has entered, or is about to enter, stand below each other. -/
def Ordered (root : NodeRef) (w : Walker) : Prop :=
  (∀ n ∈ w.ahead, n = root ∧ w.entered = []) ∧ Stacked root w.entered

variable {root : NodeRef} {w w' : Walker}

theorem mem_nodes_of_elements {m n : NodeRef} (h : .node m ∈ n.elements) : m ∈ n.nodes :=
  List.mem_filterMap.2 ⟨_, h, rfl⟩

/-- A node is entered among the children of the one entered last. -/
theorem Stacked.enter {m n : NodeRef} {ahead : List ElementRef}
    {outer : List (NodeRef × List ElementRef)} (h : Stacked root ((n, .node m :: ahead) :: outer)) :
    Stacked root ((m, m.elements) :: (n, ahead) :: outer) := by
  obtain ⟨hn, habove, hahead, houter⟩ := h
  have hm : m ∈ n.nodes := hahead m List.mem_cons_self
  refine ⟨NodeRef.descendants_subset hn (NodeRef.mem_descendants_of_mem_nodes hm), ?_,
    fun k hk => mem_nodes_of_elements hk, hn, habove, ?_, houter⟩
  · rw [NodeRef.above_of_mem_nodes hm, List.length_cons, List.length_cons, habove]
    rfl
  · exact fun k hk => hahead k (List.mem_cons_of_mem _ hk)

/-- Children may be passed over. -/
theorem Stacked.pass {n : NodeRef} {ahead ahead' : List ElementRef}
    {outer : List (NodeRef × List ElementRef)} (h : Stacked root ((n, ahead) :: outer))
    (hsub : ahead' ⊆ ahead) : Stacked root ((n, ahead') :: outer) := by
  obtain ⟨hn, habove, hahead, houter⟩ := h
  exact ⟨hn, habove, fun m hm => hahead m (hsub hm), houter⟩

theorem Ordered.steps (h : w.Ordered root) (hstep : Steps w w') : w'.Ordered root := by
  obtain ⟨hahead, hstacked⟩ := h
  cases hstep with
  | next hnext =>
    unfold next? at hnext
    split at hnext
    · next n hn =>
      cases hnext
      obtain ⟨rfl, hentered⟩ := hahead n hn
      rw [hentered]
      exact ⟨nofun, n.mem_descendants_self, rfl, fun m hm => mem_nodes_of_elements hm, trivial⟩
    · split at hnext
      · cases hnext
      · next hentered =>
        cases hnext
        rw [hentered] at hstacked
        exact ⟨nofun, hstacked.2.2.2⟩
      · next hentered =>
        cases hnext
        rw [hentered] at hstacked
        exact ⟨nofun, hstacked.pass (List.subset_cons_self _ _)⟩
      · next hentered =>
        cases hnext
        rw [hentered] at hstacked
        exact ⟨nofun, hstacked.enter⟩
  | tokens =>
    unfold skipTokens
    split
    · next n ahead outer hnone hentered =>
      rw [hentered] at hstacked
      exact ⟨nofun, hstacked.pass (List.dropWhile_subset _)⟩
    · exact ⟨hahead, hstacked⟩
  | subtree hskip =>
    unfold skipSubtree? at hskip
    split at hskip
    · cases hskip
    · next p outer hentered =>
      cases hskip
      rw [hentered] at hstacked
      refine ⟨fun n hn => ?_, hstacked.2.2.2⟩
      rw [hentered] at hahead
      cases (hahead n hn).2

/-- However a walk is made, the nodes entered at once stand below each other. -/
theorem Reaches.ordered (h : (start root).Reaches w) : w.Ordered root := by
  induction h with
  | refl => exact ⟨fun n hn => ⟨(Option.mem_some_iff.1 hn).symm, rfl⟩, trivial⟩
  | step _ hstep ih => exact ih.steps hstep

/-- **However a walk is made, no more nodes are entered at once than the way down to a node is
long.** -/
theorem Reaches.length_entered_le {bound : Nat} (hbound : ∀ n ∈ root.descendants,
    n.above.length + 1 ≤ root.above.length + bound) (h : (start root).Reaches w) :
    w.entered.length ≤ bound := by
  obtain ⟨-, hstacked⟩ := h.ordered
  cases hentered : w.entered with
  | nil => exact Nat.zero_le _
  | cons p outer =>
    rw [hentered] at hstacked
    obtain ⟨hn, habove, -⟩ := hstacked
    have hlength := hbound p.1 hn
    rw [List.length_cons]
    omega

end Walker

end NginxConf
