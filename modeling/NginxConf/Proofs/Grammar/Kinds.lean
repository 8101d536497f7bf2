import NginxConf.Proofs.Grammar.Origin

/-!
# Which nodes there are

The kind of a node tells which rule has built it (`Rule.MakesNode.makes`). Two kinds are made by no
rule: that of a whole file, so the root of a tree is the only such node, and that of a node that
stands for nothing.
-/

namespace NginxConf

variable {α : Type}

/-! ## Kinds and places -/

namespace Tree

/-- A node in a hole is one of the nodes of the tree. -/
theorem mem_kinds_fill (frames : List (Frame α)) (kind : NodeKind) (children : List (Tree α)) :
    kind ∈ (fill frames (node kind children)).kinds := by
  induction frames with
  | nil => exact List.mem_cons_self
  | cons frame frames ih =>
    rw [fill, kinds, forestKinds_eq, List.flatMap_append, List.flatMap_cons]
    exact List.mem_cons_of_mem _ (List.mem_append_right _ (List.mem_append_left _ ih))

mutual

/-- Each of the nodes of a tree is found in a hole. -/
theorem exists_fill_of_mem_kinds {kind : NodeKind} : (t : Tree α) → kind ∈ t.kinds →
    ∃ frames children, t = fill frames (node kind children)
  | leaf _, h => absurd h List.not_mem_nil
  | node kind' children, h => by
    rcases List.mem_cons.1 h with rfl | h
    · exact ⟨[], children, rfl⟩
    · obtain ⟨before, frames, inner, after, rfl⟩ := exists_fill_of_mem_forestKinds children h
      exact ⟨⟨kind', before, after⟩ :: frames, inner, rfl⟩

theorem exists_fill_of_mem_forestKinds {kind : NodeKind} : (ts : List (Tree α)) →
    kind ∈ forestKinds ts →
    ∃ before frames children after, ts = before ++ fill frames (node kind children) :: after
  | [], h => absurd h List.not_mem_nil
  | t :: ts, h => by
    rcases List.mem_append.1 h with h | h
    · obtain ⟨frames, children, rfl⟩ := exists_fill_of_mem_kinds t h
      exact ⟨[], frames, children, ts, rfl⟩
    · obtain ⟨before, frames, children, after, rfl⟩ := exists_fill_of_mem_forestKinds ts h
      exact ⟨t :: before, frames, children, after, rfl⟩

end

end Tree

/-! ## The kinds that rules make -/

variable [Lexical α] {room : Nat} {known seen : List α} {rule : Rule α} {last : α} {rest : List α}
  {a : Outcome α} {kind : NodeKind}

/-- **Each node that a run builds is of a kind that some rule makes.** -/
theorem Runs.exists_makes (h : Runs room known seen rule last rest a)
    (hrule : rule.NodesIn rest.head?) (hkind : kind ∈ a.trees.flatMap Tree.kinds) :
    ∃ (t : α) (maker : Rule α), maker.Makes t kind := by
  rw [← Tree.forestKinds_eq] at hkind
  obtain ⟨before, frames, children, after, htrees⟩ :=
    Tree.exists_fill_of_mem_forestKinds a.trees hkind
  obtain ⟨_, _, maker, _, _, _, horigin⟩ := h.exists_origin hrule htrees
  obtain ⟨t, _, -, hmakes⟩ := horigin.builds.makes rfl (horigin.runs.eq_run ▸ horigin.trees)
  exact ⟨t, maker, hmakes⟩

/-- The node is none of a whole file. -/
def NodeKind.IsInner (kind : NodeKind) : Prop := kind ≠ .sourceFile

/-- **No node below the root of a file is one of a whole file.** -/
theorem isInner_of_mem_kinds {last : α} {tokens : List α} {kind : NodeKind}
    (h : kind ∈ (Rule.file.run maxDepth last tokens).trees.flatMap Tree.kinds) : kind.IsInner := by
  rintro rfl
  obtain ⟨_, _, hmakes⟩ := (Rule.runs_file last tokens).exists_makes Rule.nodesIn_file h
  exact hmakes

end NginxConf
