import NginxConf.Proofs.Token.Braces
import NginxConf.Proofs.Tree.Context

/-!
# Nodes of trees, and the tokens that belong to each

A token belongs to the node that it is a child of. The tokens of one node, in order, are a row of
their own (`Node.row`), in which its braces can be matched. `Tree.nested` takes the braces of all
nodes together.
-/

namespace NginxConf

variable {α : Type}

namespace Tree

/-- The tokens that stand among some trees, apart from those inside of nodes. -/
def row : List (Tree α) → List α
  | [] => []
  | leaf t :: ts => t :: row ts
  | node _ _ :: ts => row ts

@[simp]
theorem row_append (ss ts : List (Tree α)) : row (ss ++ ts) = row ss ++ row ts := by
  fun_induction row ss with
  | case1 => rfl
  | case2 t ss ih => rw [List.cons_append, row, ih, List.cons_append]
  | case3 kind children ss ih => rw [List.cons_append, row, ih]

@[simp]
theorem row_leaves (ts : List α) : row (ts.map leaf) = ts := by
  induction ts with
  | nil => rfl
  | cons t ts ih => rw [List.map_cons, row, ih]

mutual

/-- All nodes, a node before those below it. -/
def subnodes : Tree α → List (Node α)
  | leaf _ => []
  | node kind children => ⟨kind, children⟩ :: forestSubnodes children

/-- All nodes of some trees, a node before those below it. -/
def forestSubnodes : List (Tree α) → List (Node α)
  | [] => []
  | t :: ts => t.subnodes ++ forestSubnodes ts

end

@[simp]
theorem forestSubnodes_append (ss ts : List (Tree α)) :
    forestSubnodes (ss ++ ts) = forestSubnodes ss ++ forestSubnodes ts := by
  induction ss with
  | nil => rfl
  | cons s ss ih => rw [List.cons_append, forestSubnodes, forestSubnodes, ih, List.append_assoc]

@[simp]
theorem forestSubnodes_leaves (ts : List α) : forestSubnodes (ts.map leaf) = [] := by
  induction ts with
  | nil => rfl
  | cons t ts ih => rw [List.map_cons, forestSubnodes, ih]; rfl

theorem forestSubnodes_node (kind : NodeKind) (children : List (Tree α)) :
    forestSubnodes [node kind children] = ⟨kind, children⟩ :: forestSubnodes children :=
  List.append_nil _

mutual

/-- The nodes of a tree with other leaves. -/
theorem subnodes_map {β : Type} (f : α → β) :
    (t : Tree α) → (t.map f).subnodes = t.subnodes.map (Node.map f)
  | leaf _ => rfl
  | node kind children => by
    rw [map, subnodes, subnodes, forestSubnodes_map f children, List.map_cons, Node.map,
      forestMap_eq]

theorem forestSubnodes_map {β : Type} (f : α → β) : (ts : List (Tree α)) →
    forestSubnodes (forestMap f ts) = (forestSubnodes ts).map (Node.map f)
  | [] => rfl
  | t :: ts => by
    rw [forestMap, forestSubnodes, forestSubnodes, subnodes_map f t, forestSubnodes_map f ts,
      List.map_append]

end

end Tree

/-- The tokens that belong to the node itself. -/
def Node.row (n : Node α) : List α := Tree.row n.children

namespace Tree

theorem row_subset (ts : List (Tree α)) : row ts ⊆ forestLeaves ts := by
  fun_induction row ts with
  | case1 => exact List.nil_subset _
  | case2 t ts ih => exact List.cons_subset_cons t ih
  | case3 kind children ts ih => exact List.subset_append_of_subset_right _ ih

mutual

/-- A token of a node is a leaf of the tree. -/
theorem row_subset_leaves : (t : Tree α) → ∀ n ∈ t.subnodes, n.row ⊆ t.leaves
  | leaf _, _, hn => absurd hn List.not_mem_nil
  | node kind children, n, hn => by
    rcases List.mem_cons.1 hn with rfl | hn
    · exact row_subset children
    · exact row_subset_forestLeaves children n hn

theorem row_subset_forestLeaves :
    (ts : List (Tree α)) → ∀ n ∈ forestSubnodes ts, n.row ⊆ forestLeaves ts
  | [], _, hn => absurd hn List.not_mem_nil
  | t :: ts, n, hn => by
    rcases List.mem_append.1 hn with hn | hn
    · exact List.subset_append_of_subset_left _ (row_subset_leaves t n hn)
    · exact List.subset_append_of_subset_right _ (row_subset_forestLeaves ts n hn)

end

end Tree

/-! ## Braces, node by node -/

namespace Tree

variable [Lexical α] {ss ts : List (Tree α)}

/-- The braces of some trees, matched in each node apart. -/
def nested (ts : List (Tree α)) : Braces α :=
  (matchBraces (row ts)).join (.sum ((forestSubnodes ts).map fun n => matchBraces n.row))

theorem nested_leaves (ts : List α) : nested (ts.map leaf) = matchBraces ts := by
  rw [nested, row_leaves, forestSubnodes_leaves]
  exact Braces.join_none _

/-- A node around trees changes nothing. -/
theorem nested_node (kind : NodeKind) (children : List (Tree α)) :
    nested [node kind children] = nested children := by
  rw [nested, forestSubnodes_node]
  exact Braces.none_join _

/-- Trees after others, where no brace has its partner among the others. -/
theorem nested_append
    (h : (matchBraces (row ts)).unmatched = [] ∨ (matchBraces (row ss)).opened = []) :
    ((nested (ss ++ ts)).Alike ((nested ss).join (nested ts))) := by
  rw [nested, row_append, matchBraces_append _ h, forestSubnodes_append, List.map_append,
    Braces.sum_append]
  exact Braces.alike_join_join _ _ _ _

/-- Nodes between braces, the second of which may be missing. -/
theorem nested_enclosed (hrow : row ts = []) (l : α) (closing : List α) :
    nested (leaf l :: ts ++ closing.map leaf)
      = (matchBraces (l :: closing)).join (nested ts) := by
  have hrow' : row (leaf l :: ts ++ closing.map leaf) = l :: closing := by
    rw [row_append, row, hrow, row_leaves]
    rfl
  have hnodes : forestSubnodes (leaf l :: ts ++ closing.map leaf) = forestSubnodes ts := by
    rw [forestSubnodes_append, forestSubnodes_leaves, List.append_nil]
    rfl
  rw [nested, nested, hrow, hrow', hnodes]
  exact congrArg _ (Braces.none_join _).symm

end Tree

end NginxConf
