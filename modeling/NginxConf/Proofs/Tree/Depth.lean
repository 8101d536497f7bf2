import NginxConf.Proofs.Tree.Context

/-!
# How deep trees are

`Tree.most` counts the nodes of some kinds on a way down a tree, where there are the most of them;
with all kinds it is the depth of the tree. The frames around a place are a part of such a way
(`Tree.countP_add_most_le`).

A node begins where its first child does, so the nodes that begin at one place are those on the way
down through first children (`Tree.chain`).
-/

namespace NginxConf

namespace Tree

variable {α β : Type} (p : NodeKind → Bool)

mutual

/-- The most nodes of some kinds on a way from the top to a leaf. -/
def most : Tree α → Nat
  | leaf _ => 0
  | node kind children => forestMost children + if p kind then 1 else 0

/-- The most nodes of some kinds on a way down in some trees. -/
def forestMost : List (Tree α) → Nat
  | [] => 0
  | t :: ts => max t.most (forestMost ts)

end

mutual

theorem most_true : (t : Tree α) → t.most (fun _ => true) = t.depth
  | leaf _ => rfl
  | node _ children => by rw [most, depth, forestMost_true children, if_pos rfl]

theorem forestMost_true : (ts : List (Tree α)) → forestMost (fun _ => true) ts = forestDepth ts
  | [] => rfl
  | t :: ts => by rw [forestMost, forestDepth, most_true t, forestMost_true ts]

end

mutual

/-- Only the nodes count. -/
theorem most_map (f : α → β) : (t : Tree α) → (t.map f).most p = t.most p
  | leaf _ => rfl
  | node _ children => by rw [map, most, most, forestMost_forestMap f children]

theorem forestMost_forestMap (f : α → β) :
    (ts : List (Tree α)) → forestMost p (forestMap f ts) = forestMost p ts
  | [] => rfl
  | t :: ts => by rw [forestMap, forestMost, forestMost, most_map f t, forestMost_forestMap f ts]

end

@[simp]
theorem forestMost_nil : forestMost p ([] : List (Tree α)) = 0 := rfl

@[simp]
theorem forestMost_singleton (t : Tree α) : forestMost p [t] = t.most p := Nat.max_zero _

@[simp]
theorem forestMost_append (ss ts : List (Tree α)) :
    forestMost p (ss ++ ts) = max (forestMost p ss) (forestMost p ts) := by
  induction ss with
  | nil => simp
  | cons s ss ih => rw [List.cons_append, forestMost, forestMost, ih, Nat.max_assoc]

@[simp]
theorem forestMost_leaves (us : List α) : forestMost p (us.map leaf) = 0 := by
  induction us with
  | nil => rfl
  | cons u us ih => rw [List.map_cons, forestMost, ih, most, Nat.max_zero]

theorem most_le_forestMost {t : Tree α} {ts : List (Tree α)} (h : t ∈ ts) :
    t.most p ≤ forestMost p ts := by
  obtain ⟨before, after, rfl⟩ := List.append_of_mem h
  rw [forestMost_append, forestMost]
  omega

/-- **The nodes around a place stand on a way down.** -/
theorem countP_add_most_le (frames : List (Frame α)) (t : Tree α) :
    frames.countP (p ·.kind) + t.most p ≤ (fill frames t).most p := by
  induction frames with
  | nil => simp [fill]
  | cons frame frames ih =>
    have hchild := most_le_forestMost p
      (List.mem_append_right frame.before (List.mem_cons_self (a := fill frames t) (l := frame.after)))
    rw [List.countP_cons, fill, most]
    omega

/-! ## Nodes that begin at one place -/

mutual

/-- The number of nodes that begin where the tree does. -/
def chain : Tree α → Nat
  | leaf _ => 0
  | node _ children => forestChain children + 1

/-- The number of nodes that begin where some trees do. -/
def forestChain : List (Tree α) → Nat
  | [] => 0
  | t :: _ => t.chain

end

mutual

/-- No more than `k` nodes begin at one place in the tree. -/
def Chained (k : Nat) : Tree α → Prop
  | leaf _ => True
  | node _ children => forestChain children < k ∧ forestChained k children

/-- No more than `k` nodes begin at one place in some trees. -/
def forestChained (k : Nat) : List (Tree α) → Prop
  | [] => True
  | t :: ts => t.Chained k ∧ forestChained k ts

end

variable {k n : Nat}

theorem Chained.chain_le {t : Tree α} (h : t.Chained k) : t.chain ≤ k := by
  cases t with
  | leaf a => exact Nat.zero_le k
  | node kind children => exact h.1

theorem forestChained_append {ss ts : List (Tree α)} (hs : forestChained k ss)
    (ht : forestChained k ts) : forestChained k (ss ++ ts) := by
  induction ss with
  | nil => exact ht
  | cons s ss ih => exact ⟨hs.1, ih hs.2⟩

theorem forestChained_leaves (us : List α) : forestChained k (us.map leaf) := by
  induction us with
  | nil => trivial
  | cons u us ih => exact ⟨trivial, ih⟩

theorem forestChain_le {ts : List (Tree α)} (h : ∀ t ∈ ts, t.chain ≤ n) : forestChain ts ≤ n := by
  cases ts with
  | nil => exact Nat.zero_le n
  | cons t ts => exact h t List.mem_cons_self

end Tree

end NginxConf
