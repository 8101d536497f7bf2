import NginxConf.Proofs.Tree.Context

/-!
# Holes in rows of trees

What a rule builds is a row of trees. A place in it is the trees before and after the one that holds
it, with the way down in that one (`Hole`).
-/

namespace NginxConf

variable {α β : Type}

/-! ## Rows with a marked element -/

/-- Where two lists are one with a marked element, the element is in one of the two. -/
theorem append_eq_append_cons {xs ys before after : List α} {x : α}
    (h : xs ++ ys = before ++ x :: after) :
    (∃ inner, xs = before ++ x :: inner ∧ after = inner ++ ys) ∨
      ∃ inner, before = xs ++ inner ∧ ys = inner ++ x :: after := by
  rcases List.append_eq_append_iff.1 h with ⟨inner, hbefore, hys⟩ | ⟨inner, hxs, hafter⟩
  · exact .inr ⟨inner, hbefore, hys⟩
  · cases inner with
    | nil => exact .inr ⟨[], by simpa using hxs.symm, by simpa using hafter.symm⟩
    | cons y inner =>
      rw [List.cons_append, List.cons.injEq] at hafter
      obtain ⟨rfl, hafter⟩ := hafter
      exact .inl ⟨inner, hxs, hafter⟩

theorem singleton_eq_append_cons {before after : List α} {x y : α}
    (h : [y] = before ++ x :: after) : before = [] ∧ y = x ∧ after = [] := by
  cases before with
  | nil => cases h; exact ⟨rfl, rfl, rfl⟩
  | cons z before => simp at h

theorem head?_append_congr {xs ys zs : List α} (h : ys.head? = zs.head?) :
    (xs ++ ys).head? = (xs ++ zs).head? := by
  rw [List.head?_append, List.head?_append, h]

/-! ## Holes -/

/-- A place in some trees. -/
structure Hole (α : Type) where
  before : List (Tree α)
  frames : List (Frame α)
  after : List (Tree α)

namespace Hole

variable (hole : Hole α)

/-- The trees, with a tree in the hole. -/
def fill (t : Tree α) : List (Tree α) := hole.before ++ Tree.fill hole.frames t :: hole.after

/-- The leaves before the hole. -/
def leavesBefore : List α := hole.before.flatMap Tree.leaves ++ Tree.leavesBefore hole.frames

/-- The leaves after the hole. -/
def leavesAfter : List α := Tree.leavesAfter hole.frames ++ hole.after.flatMap Tree.leaves

theorem leaves_fill (t : Tree α) :
    (hole.fill t).flatMap Tree.leaves = hole.leavesBefore ++ t.leaves ++ hole.leavesAfter := by
  simp [fill, leavesBefore, leavesAfter, Tree.leaves_fill]

/-- The hole with more trees before it. -/
def preceded (trees : List (Tree α)) : Hole α := { hole with before := trees ++ hole.before }

/-- The hole with more trees after it. -/
def followed (trees : List (Tree α)) : Hole α := { hole with after := hole.after ++ trees }

/-- The hole with a node around all of the trees. -/
def wrapped (kind : NodeKind) : Hole α := ⟨[], ⟨kind, hole.before, hole.after⟩ :: hole.frames, []⟩

@[simp]
theorem fill_preceded (trees : List (Tree α)) (t : Tree α) :
    (hole.preceded trees).fill t = trees ++ hole.fill t := by simp [fill, preceded]

@[simp]
theorem fill_followed (trees : List (Tree α)) (t : Tree α) :
    (hole.followed trees).fill t = hole.fill t ++ trees := by simp [fill, followed]

@[simp]
theorem fill_wrapped (kind : NodeKind) (t : Tree α) :
    (hole.wrapped kind).fill t = [.node kind (hole.fill t)] := rfl

@[simp]
theorem leavesBefore_preceded (trees : List (Tree α)) :
    (hole.preceded trees).leavesBefore = trees.flatMap Tree.leaves ++ hole.leavesBefore := by
  simp [leavesBefore, preceded]

@[simp]
theorem leavesAfter_preceded (trees : List (Tree α)) :
    (hole.preceded trees).leavesAfter = hole.leavesAfter := rfl

@[simp]
theorem leavesBefore_followed (trees : List (Tree α)) :
    (hole.followed trees).leavesBefore = hole.leavesBefore := rfl

@[simp]
theorem leavesAfter_followed (trees : List (Tree α)) :
    (hole.followed trees).leavesAfter = hole.leavesAfter ++ trees.flatMap Tree.leaves := by
  simp [leavesAfter, followed]

@[simp]
theorem leavesBefore_wrapped (kind : NodeKind) :
    (hole.wrapped kind).leavesBefore = hole.leavesBefore := by simp [leavesBefore, wrapped]

@[simp]
theorem leavesAfter_wrapped (kind : NodeKind) :
    (hole.wrapped kind).leavesAfter = hole.leavesAfter := by simp [leavesAfter, wrapped]

/-- The tokens of the trees with a block in the hole, and of what follows the trees. -/
def tokens (l : α) (mid : List α) (r : α) (rest : List α) : List α :=
  hole.leavesBefore ++ l :: (mid ++ r :: (hole.leavesAfter ++ rest))

@[simp]
theorem tokens_preceded (trees : List (Tree α)) (l : α) (mid : List α) (r : α) (rest : List α) :
    (hole.preceded trees).tokens l mid r rest
      = trees.flatMap Tree.leaves ++ hole.tokens l mid r rest := by simp [tokens]

@[simp]
theorem tokens_followed (trees : List (Tree α)) (l : α) (mid : List α) (r : α) (rest : List α) :
    (hole.followed trees).tokens l mid r rest
      = hole.tokens l mid r (trees.flatMap Tree.leaves ++ rest) := by simp [tokens]

@[simp]
theorem tokens_wrapped (kind : NodeKind) (l : α) (mid : List α) (r : α) (rest : List α) :
    (hole.wrapped kind).tokens l mid r rest = hole.tokens l mid r rest := by simp [tokens]

/-- The first token does not depend on what stands between the braces. -/
theorem head?_tokens (l : α) (mid : List α) (r : α) (rest : List α) :
    (hole.tokens l mid r rest).head? = (hole.leavesBefore ++ [l]).head? :=
  head?_append_congr rfl

/-- The first token does not depend on what stands between the braces. -/
theorem eq_of_tokens_eq_cons {l t r : α} {mid rest ts : List α}
    (h : hole.tokens l mid r rest = t :: ts) :
    t ∈ hole.leavesBefore ++ [l] ∧
      ∀ mid' rest', ∃ us, hole.tokens l mid' r rest' = t :: us := by
  have hhead := hole.head?_tokens l mid r rest
  rw [h] at hhead
  refine ⟨List.mem_of_head? hhead.symm, fun mid' rest' => ?_⟩
  rw [List.head?_cons, ← hole.head?_tokens l mid' r rest'] at hhead
  exact List.head?_eq_some_iff.1 hhead.symm

/-- A hole in a row of trees is in the first or in the second part of the row. -/
theorem eq_of_fill_eq_append {t : Tree α} {ss ts : List (Tree α)} (h : ss ++ ts = hole.fill t) :
    (∃ left : Hole α, hole = left.followed ts ∧ ss = left.fill t) ∨
      ∃ right : Hole α, hole = right.preceded ss ∧ ts = right.fill t := by
  obtain ⟨before, frames, after⟩ := hole
  rcases append_eq_append_cons h with ⟨inner, hss, hafter⟩ | ⟨inner, hbefore, hts⟩
  · cases hafter
    exact .inl ⟨⟨before, frames, inner⟩, rfl, hss⟩
  · cases hbefore
    exact .inr ⟨⟨inner, frames, after⟩, rfl, hts⟩

/-- A hole in a node is the whole node, or further down. -/
theorem eq_of_fill_eq_node {t : Tree α} {kind : NodeKind} {trees : List (Tree α)}
    (h : [.node kind trees] = hole.fill t) :
    (hole = ⟨[], [], []⟩ ∧ t = .node kind trees) ∨
      ∃ inner : Hole α, hole = inner.wrapped kind ∧ trees = inner.fill t := by
  obtain ⟨before, frames, after⟩ := hole
  obtain ⟨hbefore, hnode, hafter⟩ := singleton_eq_append_cons h
  cases hbefore
  cases hafter
  cases frames with
  | nil => exact .inl ⟨rfl, hnode.symm⟩
  | cons frame frames =>
    obtain ⟨hkind, htrees⟩ := Tree.node.inj hnode
    exact .inr ⟨⟨frame.before, frames, frame.after⟩, by rw [hkind]; rfl, htrees⟩

/-! ## Holes over other leaves -/

/-- The hole with the leaves around it replaced. -/
def map (f : α → β) : Hole β :=
  ⟨hole.before.map (Tree.map f), hole.frames.map (Frame.map f), hole.after.map (Tree.map f)⟩

theorem map_fill (f : α → β) (t : Tree α) :
    (hole.fill t).map (Tree.map f) = (hole.map f).fill (t.map f) := by
  simp [fill, map, Tree.map_fill]

theorem leavesBefore_map (f : α → β) :
    (hole.map f).leavesBefore = hole.leavesBefore.map f := by
  simp [leavesBefore, map, Tree.flatMap_leaves_map, Tree.leavesBefore_map]

theorem leavesAfter_map (f : α → β) : (hole.map f).leavesAfter = hole.leavesAfter.map f := by
  simp [leavesAfter, map, Tree.flatMap_leaves_map, Tree.leavesAfter_map]

theorem map_map {γ : Type} (g : β → γ) (f : α → β) : (hole.map f).map g = hole.map (g ∘ f) := by
  have htrees : Tree.map g ∘ Tree.map f = Tree.map (g ∘ f) := funext (Tree.map_map g f)
  have hframe : Frame.map g ∘ Frame.map f = Frame.map (g ∘ f) := by
    funext frame
    simp [Frame.map, htrees]
  simp [map, htrees, hframe]

/-- Only what becomes of the leaves around the hole matters. -/
theorem map_congr {f g : α → β} (hbefore : ∀ a ∈ hole.leavesBefore, f a = g a)
    (hafter : ∀ a ∈ hole.leavesAfter, f a = g a) : hole.map f = hole.map g := by
  obtain ⟨before, frames, after⟩ := hole
  have hframes : ∀ frames : List (Frame α), (∀ a ∈ Tree.leavesBefore frames, f a = g a) →
      (∀ a ∈ Tree.leavesAfter frames, f a = g a) →
      frames.map (Frame.map f) = frames.map (Frame.map g) := by
    intro frames h1 h2
    induction frames with
    | nil => rfl
    | cons frame frames ih =>
      rw [Tree.leavesBefore_cons] at h1
      rw [Tree.leavesAfter_cons] at h2
      rw [List.map_cons, List.map_cons, Frame.map, Frame.map,
        Tree.map_map_congr fun a ha => h1 a (List.mem_append_left _ ha),
        Tree.map_map_congr fun a ha => h2 a (List.mem_append_right _ ha),
        ih (fun a ha => h1 a (List.mem_append_right _ ha))
          fun a ha => h2 a (List.mem_append_left _ ha)]
  rw [map, map, Tree.map_map_congr fun a ha => hbefore a (List.mem_append_left _ ha),
    Tree.map_map_congr fun a ha => hafter a (List.mem_append_right _ ha),
    hframes frames (fun a ha => hbefore a (List.mem_append_right _ ha))
      fun a ha => hafter a (List.mem_append_left _ ha)]

end Hole

/-- A hole in trees with other leaves is one in the trees. -/
theorem Hole.exists_of_map_eq_fill {f : α → β} {ts : List (Tree α)} {hole : Hole β} {u : Tree β}
    (h : ts.map (Tree.map f) = hole.fill u) :
    ∃ hole' u', ts = Hole.fill hole' u' ∧ hole = hole'.map f ∧ u = u'.map f := by
  obtain ⟨before, more, rfl, hbefore, hmore⟩ := List.map_eq_append_iff.1 h
  obtain ⟨t, after, rfl, ht, hafter⟩ := List.map_eq_cons_iff.1 hmore
  obtain ⟨frames, u', rfl, hframes, hu⟩ := Tree.exists_of_map_eq_fill ht
  refine ⟨⟨before, frames, after⟩, u', rfl, ?_, hu⟩
  rw [Hole.map, ← hframes, hbefore, hafter]

end NginxConf
