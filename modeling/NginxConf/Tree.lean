import NginxConf.Kind

/-!
# Trees

A tree is a leaf or a node with a kind and smaller trees. What a leaf is stays open: rules of the
grammar build trees over whatever they read, and a finished tree has tokens with their trivia as
leaves. Nothing is stored but the tree itself; sizes, offsets and parents follow from it.

## Termination

Functions on trees come in pairs, one for a tree and one for a list of trees, and both recurse on
the structure.
-/

namespace NginxConf

/-- A tree with leaves in `α`. -/
inductive Tree (α : Type) where
  | leaf (a : α)
  | node (kind : NodeKind) (children : List (Tree α))
deriving Repr, Inhabited

/-- A tree that is a node. -/
structure Node (α : Type) where
  kind : NodeKind
  children : List (Tree α)
deriving Repr, Inhabited

namespace Tree

variable {α β : Type}

mutual

/-- The leaves, in order. -/
def leaves : Tree α → List α
  | leaf a => [a]
  | node _ children => forestLeaves children

/-- The leaves of some trees, in order. -/
def forestLeaves : List (Tree α) → List α
  | [] => []
  | t :: ts => t.leaves ++ forestLeaves ts

end

mutual

/-- The first leaf. -/
def firstLeaf? : Tree α → Option α
  | leaf a => some a
  | node _ children => forestFirstLeaf? children

/-- The first leaf of some trees. -/
def forestFirstLeaf? : List (Tree α) → Option α
  | [] => none
  | t :: ts =>
    match t.firstLeaf? with
    | some a => some a
    | none => forestFirstLeaf? ts

end

mutual

/-- The last leaf. -/
def lastLeaf? : Tree α → Option α
  | leaf a => some a
  | node _ children => forestLastLeaf? children

/-- The last leaf of some trees. -/
def forestLastLeaf? : List (Tree α) → Option α
  | [] => none
  | t :: ts =>
    match forestLastLeaf? ts with
    | some a => some a
    | none => t.lastLeaf?

end

mutual

/-- The tree with its leaves replaced. -/
def map (f : α → β) : Tree α → Tree β
  | leaf a => leaf (f a)
  | node kind children => node kind (forestMap f children)

/-- Some trees with their leaves replaced. -/
def forestMap (f : α → β) : List (Tree α) → List (Tree β)
  | [] => []
  | t :: ts => t.map f :: forestMap f ts

end

mutual

/-- The sum of a measure over the leaves. -/
def sum (f : α → Nat) : Tree α → Nat
  | leaf a => f a
  | node _ children => forestSum f children

/-- The sum of a measure over the leaves of some trees. -/
def forestSum (f : α → Nat) : List (Tree α) → Nat
  | [] => 0
  | t :: ts => t.sum f + forestSum f ts

end

mutual

/-- The kinds of all nodes, a node before those below it. -/
def kinds : Tree α → List NodeKind
  | leaf _ => []
  | node kind children => kind :: forestKinds children

/-- The kinds of all nodes of some trees. -/
def forestKinds : List (Tree α) → List NodeKind
  | [] => []
  | t :: ts => t.kinds ++ forestKinds ts

end

mutual

/-- The most nodes on a way from the top to a leaf. -/
def depth : Tree α → Nat
  | leaf _ => 0
  | node _ children => forestDepth children + 1

/-- The most nodes on a way down in some trees. -/
def forestDepth : List (Tree α) → Nat
  | [] => 0
  | t :: ts => max t.depth (forestDepth ts)

end

@[simp]
theorem forestLeaves_eq (ts : List (Tree α)) : forestLeaves ts = ts.flatMap leaves := by
  induction ts with
  | nil => rfl
  | cons t ts ih => simp [forestLeaves, ih]

/-- Trees that are leaves have just these leaves. -/
theorem flatMap_leaves_map_leaf (as : List α) : (as.map leaf).flatMap leaves = as := by
  induction as with
  | nil => rfl
  | cons a as ih => simp only [List.map_cons, List.flatMap_cons, leaves, ih, List.singleton_append]

@[simp]
theorem forestMap_eq (f : α → β) (ts : List (Tree α)) : forestMap f ts = ts.map (map f) := by
  induction ts with
  | nil => rfl
  | cons t ts ih => simp [forestMap, ih]

@[simp]
theorem forestSum_append (f : α → Nat) (ss ts : List (Tree α)) :
    forestSum f (ss ++ ts) = forestSum f ss + forestSum f ts := by
  induction ss with
  | nil => simp [forestSum]
  | cons s ss ih => simp [forestSum, ih, Nat.add_assoc]

@[simp]
theorem forestKinds_eq (ts : List (Tree α)) : forestKinds ts = ts.flatMap kinds := by
  induction ts with
  | nil => rfl
  | cons t ts ih => simp [forestKinds, ih]

mutual

theorem leaves_map (f : α → β) : (t : Tree α) → (t.map f).leaves = t.leaves.map f
  | leaf _ => rfl
  | node _ children => by rw [map, leaves, leaves, forestLeaves_map f children]

theorem forestLeaves_map (f : α → β) :
    (ts : List (Tree α)) → forestLeaves (forestMap f ts) = (forestLeaves ts).map f
  | [] => rfl
  | t :: ts => by
    rw [forestMap, forestLeaves, forestLeaves, leaves_map f t, forestLeaves_map f ts,
      List.map_append]

end

theorem flatMap_leaves_map (f : α → β) (ts : List (Tree α)) :
    (ts.map (map f)).flatMap leaves = (ts.flatMap leaves).map f := by
  have h := forestLeaves_map f ts
  rwa [forestMap_eq, forestLeaves_eq, forestLeaves_eq] at h

mutual

theorem firstLeaf?_eq : (t : Tree α) → t.firstLeaf? = t.leaves.head?
  | leaf _ => rfl
  | node _ children => by rw [firstLeaf?, leaves, forestFirstLeaf?_eq children]

theorem forestFirstLeaf?_eq : (ts : List (Tree α)) → forestFirstLeaf? ts = (forestLeaves ts).head?
  | [] => rfl
  | t :: ts => by
    rw [forestFirstLeaf?, forestLeaves, firstLeaf?_eq t, forestFirstLeaf?_eq ts, List.head?_append]
    cases t.leaves.head? <;> rfl

end

mutual

theorem lastLeaf?_eq : (t : Tree α) → t.lastLeaf? = t.leaves.getLast?
  | leaf _ => rfl
  | node _ children => by rw [lastLeaf?, leaves, forestLastLeaf?_eq children]

theorem forestLastLeaf?_eq :
    (ts : List (Tree α)) → forestLastLeaf? ts = (forestLeaves ts).getLast?
  | [] => rfl
  | t :: ts => by
    rw [forestLastLeaf?, forestLeaves, lastLeaf?_eq t, forestLastLeaf?_eq ts,
      List.getLast?_append]
    cases (forestLeaves ts).getLast? <;> rfl

end

section Equality

variable [DecidableEq α]

mutual

/-- Whether two trees are equal. -/
def decideEq : (s t : Tree α) → Decidable (s = t)
  | leaf a, leaf b =>
    if h : a = b then isTrue (h ▸ rfl) else isFalse fun e => h (by cases e; rfl)
  | leaf _, node _ _ => isFalse (by simp)
  | node _ _, leaf _ => isFalse (by simp)
  | node k xs, node l ys =>
    if hk : k = l then
      match forestDecideEq xs ys with
      | isTrue hc => isTrue (hk ▸ hc ▸ rfl)
      | isFalse hc => isFalse fun e => hc (by cases e; rfl)
    else isFalse fun e => hk (by cases e; rfl)

/-- Whether two lists of trees are equal. -/
def forestDecideEq : (ss ts : List (Tree α)) → Decidable (ss = ts)
  | [], [] => isTrue rfl
  | [], _ :: _ => isFalse (by simp)
  | _ :: _, [] => isFalse (by simp)
  | s :: ss, t :: ts =>
    match decideEq s t with
    | isTrue hs =>
      match forestDecideEq ss ts with
      | isTrue hss => isTrue (hs ▸ hss ▸ rfl)
      | isFalse hss => isFalse fun e => hss (by cases e; rfl)
    | isFalse hs => isFalse fun e => hs (by cases e; rfl)

end

instance : DecidableEq (Tree α) := decideEq

end Equality

end Tree

namespace Node

variable {α β : Type}

/-- The node as a tree. -/
def toTree (n : Node α) : Tree α := .node n.kind n.children

/-- The leaves, in order. -/
def leaves (n : Node α) : List α := n.children.flatMap Tree.leaves

/-- The node with its leaves replaced. -/
def map (f : α → β) (n : Node α) : Node β := ⟨n.kind, n.children.map (Tree.map f)⟩

instance [DecidableEq α] : DecidableEq (Node α) := fun m n =>
  if h : m.toTree = n.toTree then
    isTrue (by cases m; cases n; simpa [toTree] using h)
  else isFalse fun e => h (e ▸ rfl)

end Node

end NginxConf
