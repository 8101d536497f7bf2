import NginxConf.Edit.Reparse

/-!
# Trees with a hole

A place in a tree is given by the nodes around it, each with the trees before and after the way
down (`Frame`). Filling the hole gives the tree back; the leaves, the path and the replacement of
what stands there can be read off the frames.
-/

namespace NginxConf

variable {α β : Type}

/-- A node around a place in a tree, with its children on both sides of the way down. -/
structure Frame (α : Type) where
  kind : NodeKind
  before : List (Tree α)
  after : List (Tree α)

/-- The frame with its leaves replaced. -/
def Frame.map (f : α → β) (frame : Frame α) : Frame β :=
  ⟨frame.kind, frame.before.map (Tree.map f), frame.after.map (Tree.map f)⟩

namespace Tree

mutual

/-- Replacing the leaves twice. -/
theorem map_map {γ : Type} (g : β → γ) (f : α → β) :
    (t : Tree α) → (t.map f).map g = t.map (g ∘ f)
  | leaf _ => rfl
  | node _ children => by rw [map, map, map, forestMap_forestMap g f children]

theorem forestMap_forestMap {γ : Type} (g : β → γ) (f : α → β) :
    (ts : List (Tree α)) → forestMap g (forestMap f ts) = forestMap (g ∘ f) ts
  | [] => rfl
  | t :: ts => by
    rw [forestMap, forestMap, forestMap, map_map g f t, forestMap_forestMap g f ts]

end

mutual

/-- Only what becomes of the leaves matters. -/
theorem map_congr {f g : α → β} :
    (t : Tree α) → (∀ a ∈ t.leaves, f a = g a) → t.map f = t.map g
  | leaf a, h => congrArg leaf (h a (List.mem_singleton.2 rfl))
  | node _ children, h => by rw [map, map, forestMap_congr children h]

theorem forestMap_congr {f g : α → β} :
    (ts : List (Tree α)) → (∀ a ∈ forestLeaves ts, f a = g a) → forestMap f ts = forestMap g ts
  | [], _ => rfl
  | t :: ts, h => by
    rw [forestMap, forestMap,
      map_congr t fun a ha => h a (List.mem_append_left _ ha),
      forestMap_congr ts fun a ha => h a (List.mem_append_right _ ha)]

end

theorem map_map_congr {f g : α → β} {ts : List (Tree α)}
    (h : ∀ a ∈ ts.flatMap leaves, f a = g a) : ts.map (map f) = ts.map (map g) := by
  have hforest := forestMap_congr (f := f) (g := g) ts (by rwa [forestLeaves_eq])
  rwa [forestMap_eq, forestMap_eq] at hforest

/-- A tree with nodes around it, the outermost one first. -/
def fill : List (Frame α) → Tree α → Tree α
  | [], t => t
  | frame :: frames, t => node frame.kind (frame.before ++ fill frames t :: frame.after)

/-- The leaves before the hole. -/
def leavesBefore (frames : List (Frame α)) : List α :=
  frames.flatMap fun frame => frame.before.flatMap leaves

/-- The leaves after the hole. -/
def leavesAfter : List (Frame α) → List α
  | [] => []
  | frame :: frames => leavesAfter frames ++ frame.after.flatMap leaves

/-- The child positions on the way down to the hole. -/
def path (frames : List (Frame α)) : List Nat := frames.map (·.before.length)

@[simp]
theorem leavesBefore_nil : leavesBefore ([] : List (Frame α)) = [] := rfl

@[simp]
theorem leavesBefore_cons (frame : Frame α) (frames : List (Frame α)) :
    leavesBefore (frame :: frames) = frame.before.flatMap leaves ++ leavesBefore frames := rfl

@[simp]
theorem leavesAfter_nil : leavesAfter ([] : List (Frame α)) = [] := rfl

@[simp]
theorem leavesAfter_cons (frame : Frame α) (frames : List (Frame α)) :
    leavesAfter (frame :: frames) = leavesAfter frames ++ frame.after.flatMap leaves := rfl

theorem fill_append (frames inner : List (Frame α)) (t : Tree α) :
    fill (frames ++ inner) t = fill frames (fill inner t) := by
  induction frames with
  | nil => rfl
  | cons frame frames ih => rw [List.cons_append, fill, fill, ih]

/-- A hole filled with a node is a node. -/
theorem fill_ne_leaf (frames : List (Frame α)) (kind : NodeKind) (children : List (Tree α))
    (a : α) : fill frames (node kind children) ≠ leaf a := by
  cases frames <;> simp [fill]

/-- **The leaves are those of the tree in the hole, between those around it.** -/
theorem leaves_fill (frames : List (Frame α)) (t : Tree α) :
    (fill frames t).leaves = leavesBefore frames ++ t.leaves ++ leavesAfter frames := by
  induction frames with
  | nil => simp [fill]
  | cons frame frames ih => simp [fill, leaves, ih]

/-- Changing the element after so many others. -/
theorem modify_append_cons (before after : List α) (a : α) (f : α → α) :
    (before ++ a :: after).modify before.length f = before ++ f a :: after := by
  induction before with
  | nil => rfl
  | cons b before ih => rw [List.cons_append, List.length_cons, List.modify_succ_cons, ih]; rfl

/-- **Replacing what stands at the hole fills the hole anew.** -/
theorem replaceAt_fill (frames : List (Frame α)) (t new : Tree α) :
    (fill frames t).replaceAt (path frames) new = fill frames new := by
  induction frames with
  | nil => cases t <;> rfl
  | cons frame frames ih =>
    have hpath : path (frame :: frames) = frame.before.length :: path frames := rfl
    rw [fill, hpath, replaceAt, modify_append_cons, ih, fill]

theorem map_fill (f : α → β) (frames : List (Frame α)) (t : Tree α) :
    (fill frames t).map f = fill (frames.map (Frame.map f)) (t.map f) := by
  induction frames with
  | nil => rfl
  | cons frame frames ih => simp [fill, map, ih, Frame.map]

theorem leavesBefore_map (f : α → β) (frames : List (Frame α)) :
    leavesBefore (frames.map (Frame.map f)) = (leavesBefore frames).map f := by
  induction frames with
  | nil => rfl
  | cons frame frames ih => simp [ih, Frame.map, flatMap_leaves_map]

theorem leavesAfter_map (f : α → β) (frames : List (Frame α)) :
    leavesAfter (frames.map (Frame.map f)) = (leavesAfter frames).map f := by
  induction frames with
  | nil => rfl
  | cons frame frames ih => simp [ih, Frame.map, flatMap_leaves_map]

@[simp]
theorem path_map (f : α → β) (frames : List (Frame α)) :
    path (frames.map (Frame.map f)) = path frames := by
  simp [path, Frame.map]

/-- The ways down in a tree with other leaves are those in the tree. -/
theorem exists_of_map_eq_fill {f : α → β} {frames : List (Frame β)} {t : Tree α} {u : Tree β}
    (h : t.map f = fill frames u) :
    ∃ frames' u', t = fill frames' u' ∧ frames = frames'.map (Frame.map f) ∧ u = u'.map f := by
  induction frames generalizing t with
  | nil => exact ⟨[], t, rfl, rfl, h.symm⟩
  | cons frame frames ih =>
    cases t with
    | leaf a => cases h
    | node kind children =>
      rw [map, forestMap_eq, fill, node.injEq] at h
      obtain ⟨rfl, hchildren⟩ := h
      obtain ⟨before, inner, rfl, hbefore, hinner⟩ := List.map_eq_append_iff.1 hchildren
      obtain ⟨s, after, rfl, hs, hafter⟩ := List.map_eq_cons_iff.1 hinner
      obtain ⟨frames', u', rfl, hframes, hu⟩ := ih hs
      refine ⟨⟨frame.kind, before, after⟩ :: frames', u', rfl, ?_, hu⟩
      rw [List.map_cons, ← hframes, Frame.map, hbefore, hafter]

end Tree

/-- How many blocks stand around the hole. -/
def Frame.blocks (frames : List (Frame α)) : Nat := frames.countP (·.kind.isBlock)

@[simp]
theorem Frame.blocks_nil : blocks ([] : List (Frame α)) = 0 := rfl

theorem Frame.blocks_cons (frame : Frame α) (frames : List (Frame α)) :
    blocks (frame :: frames) = blocks frames + if frame.kind.isBlock then 1 else 0 :=
  List.countP_cons

@[simp]
theorem Frame.blocks_map (f : α → β) (frames : List (Frame α)) :
    blocks (frames.map (Frame.map f)) = blocks frames := by
  simp only [blocks, List.countP_map]
  rfl

end NginxConf
