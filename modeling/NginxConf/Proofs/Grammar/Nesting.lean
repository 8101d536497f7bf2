import NginxConf.Proofs.Grammar.NestedPatterns
import NginxConf.Proofs.Tree.Subnodes

/-!
# Braces in what a rule returns

Each brace has its partner in the node that it belongs to, wherever a stack finds it
(`Outcome.Bracketed`): the braces of what has been read, matched with a stack, are those of the nodes
that have been built, matched in each node apart. A block that is not closed is reported once. In a
whole file a `}` can close nothing, and is then reported and put into a node of its own
(`nests_file`).
-/

namespace NginxConf

variable {α : Type} [Lexical α]

/-- The `{` of blocks that are not closed. -/
def Tree.unclosed (ts : List (Tree α)) : List α :=
  (forestSubnodes ts).flatMap fun n => if n.kind.isBlock then (matchBraces n.row).opened else []

theorem Tree.unclosed_append (ss ts : List (Tree α)) :
    unclosed (ss ++ ts) = unclosed ss ++ unclosed ts := by
  rw [unclosed, forestSubnodes_append, List.flatMap_append]
  rfl

theorem Tree.unclosed_leaves (ts : List α) : unclosed (ts.map leaf) = [] := by
  rw [unclosed, forestSubnodes_leaves]
  rfl

theorem Tree.unclosed_node (kind : NodeKind) (children : List (Tree α)) :
    unclosed [node kind children]
      = (if kind.isBlock then (matchBraces (row children)).opened else []) ++ unclosed children := by
  rw [unclosed, forestSubnodes_node]
  rfl

/-- What is reported of braces. -/
def braceIssues (issues : List (Issue α)) : List (Issue α) := issues.filter (·.problem.isBrace)

omit [Lexical α] in
theorem braceIssues_append (is js : List (Issue α)) :
    braceIssues (is ++ js) = braceIssues is ++ braceIssues js := List.filter_append _ _

@[simp]
theorem braceIssues_faultOf (t : α) : braceIssues (Outcome.faultOf t) = [] := by
  unfold Outcome.faultOf
  split <;> rfl

@[simp]
theorem braceIssues_flatMap_faultOf (ts : List α) :
    braceIssues (ts.flatMap Outcome.faultOf) = [] := by
  induction ts with
  | nil => rfl
  | cons t ts ih => rw [List.flatMap_cons, braceIssues_append, ih, braceIssues_faultOf]; rfl

omit [Lexical α] in
theorem Tree.row_of_nodes {ts : List (Tree α)} (h : ∀ t ∈ ts, t.IsNode) : row ts = [] := by
  induction ts with
  | nil => rfl
  | cons t ts ih =>
    obtain ⟨ht, hts⟩ := List.forall_mem_cons.1 h
    cases t with
    | leaf => exact ht.elim
    | node => exact ih hts

/-! ## Inside of blocks -/

/-- Each brace has its partner in the node that it belongs to, and no partner outside. -/
structure Outcome.Bracketed (a : Outcome α) : Prop where
  whole : Whole a.read a.rest
  nested : (matchBraces a.read).Alike (Tree.nested a.trees)
  issues : (braceIssues a.issues).Perm
    ((Tree.unclosed a.trees).map fun t => ⟨.unclosedBrace, .across t t⟩)

namespace Outcome

theorem read_eq_leaves (n : Nat) (last : α) (rest : List α) :
    (reading n last rest).trees = (rest.take n).map .leaf := rfl

theorem bracketed_reading {n : Nat} {last : α} {rest : List α}
    (h : Whole (rest.take n) (rest.drop n)) : (reading n last rest).Bracketed where
  whole := by rwa [read_reading]
  nested := by
    rw [read_reading, read_eq_leaves, Tree.nested_leaves]
    exact .refl _
  issues := by
    rw [read_eq_leaves, Tree.unclosed_leaves, reading, braceIssues_flatMap_faultOf]
    exact .refl _

/-- In what is read after something that is whole, nothing of it is closed. -/
theorem Bracketed.row_unmatched {a : Outcome α} (h : a.Bracketed) :
    (matchBraces (Tree.row a.trees)).unmatched = [] :=
  (h.nested.unmatched_eq_nil h.whole.unmatched).1

theorem Bracketed.join {a b : Outcome α} (hrest : a.rest = b.read ++ b.rest) (ha : a.Bracketed)
    (hb : b.Bracketed) : (a.join b).Bracketed where
  whole := by
    rw [read_join, rest_join]
    exact (hrest ▸ ha.whole).append hb.whole
  nested := by
    rw [read_join, matchBraces_append _ (.inl hb.whole.unmatched)]
    exact (ha.nested.join hb.nested).trans (Tree.nested_append (.inl hb.row_unmatched)).symm
  issues := by
    rw [Outcome.join, braceIssues_append, Tree.unclosed_append, List.map_append]
    exact ha.issues.append hb.issues

theorem Bracketed.wrapped {kind : NodeKind} {a : Outcome α} (hkind : kind.isBlock = false)
    (h : a.Bracketed) : (a.wrapped kind).Bracketed where
  whole := by
    rw [read_wrapped]
    exact h.whole
  nested := by
    rw [read_wrapped, Outcome.wrapped, Tree.nested_node]
    exact h.nested
  issues := by
    rw [Outcome.wrapped, Tree.unclosed_node, hkind]
    exact h.issues

/-- A block, with the braces that it has. -/
theorem Bracketed.block {kind : NodeKind} {l last : α} (closing : List α) {rest : List α}
    {items : Outcome α} {issues : List (Issue α)} (hkind : kind.isBlock = true)
    (hitems : items.Bracketed) (hnodes : ∀ u ∈ items.trees, u.IsNode)
    (hwhole : Whole (l :: items.read ++ closing) rest)
    (hbraces : (matchBraces (l :: items.read ++ closing)).Alike
      ((matchBraces (l :: closing)).join (matchBraces items.read)))
    (hissues : braceIssues issues = braceIssues items.issues
      ++ (matchBraces (l :: closing)).opened.map fun t => ⟨.unclosedBrace, .across t t⟩) :
    Bracketed ⟨[.node kind (.leaf l :: items.trees ++ closing.map .leaf)], issues, last, rest⟩ := by
  have hrow := Tree.row_of_nodes hnodes
  have hread : Outcome.read ⟨[.node kind (.leaf l :: items.trees ++ closing.map .leaf)], issues,
      last, rest⟩ = l :: items.read ++ closing := by
    simp [read, Tree.leaves, Tree.flatMap_leaves_map_leaf]
  have hrow' : Tree.row (.leaf l :: items.trees ++ closing.map .leaf) = l :: closing := by
    rw [Tree.row_append, Tree.row, hrow, Tree.row_leaves]
    rfl
  have hunclosed : Tree.unclosed (.leaf l :: items.trees ++ closing.map .leaf)
      = Tree.unclosed items.trees := by
    rw [Tree.unclosed_append, Tree.unclosed_leaves, List.append_nil]
    rfl
  refine ⟨hread ▸ hwhole, ?_, ?_⟩
  · rw [hread, Tree.nested_node, Tree.nested_enclosed hrow]
    exact hbraces.trans ((Braces.Alike.refl _).join hitems.nested)
  · rw [Tree.unclosed_node, if_pos hkind, hrow', hunclosed, hissues, List.map_append]
    exact List.perm_append_comm.trans (.append (.refl _) hitems.issues)

/-- **Braces have their partners in their nodes**, whatever is built. -/
theorem closed_bracketed : Closed (Bracketed (α := α)) where
  issue hproblem := by
    refine ⟨Whole.of_forall (by simp [read]), .refl _, ?_⟩
    rw [braceIssues, List.filter_singleton, hproblem]
    exact .refl _
  reading h := bracketed_reading (Whole.of_forall h)
  script _ hwhole := bracketed_reading hwhole
  deep ht _ := by
    refine Bracketed.wrapped rfl (Bracketed.join ?_ ⟨Whole.of_forall (by simp [read]), .refl _, .refl _⟩
      (bracketed_reading (whole_group ht)))
    rw [read_reading]
    exact (List.take_append_drop _ _).symm
  join := Bracketed.join
  wrapped hkind _ _ h := h.wrapped hkind
  openBlock {shape t items} ht hitems hnodes hrest _ := by
    have hbraces := matchBraces_cons (l := t) hitems.whole
    rw [show (Tree.leaf t :: items.trees) = .leaf t :: items.trees ++ [].map Tree.leaf from
      (List.append_nil _).symm]
    refine Bracketed.block [] shape.isBlock_kind hitems hnodes ⟨?_, fun _ => rfl⟩ ?_ ?_
    · rw [List.append_nil, hbraces, Braces.join, hitems.whole.unmatched, matchBraces_open ht]
      rfl
    · rw [List.append_nil, hbraces]
      exact .refl _
    · rw [braceIssues_append, braceIssues_append, braceIssues_faultOf, matchBraces_open ht]
      rfl
  closedBlock {shape t r rest items} ht hr hitems hnodes hrest _ := by
    have hbraces := matchBraces_enclosed ht hr (hrest ▸ hitems.whole)
    have hpair := matchBraces_pair ht hr
    have hopened : (matchBraces items.read).opened = [] := by
      by_contra h
      rw [hitems.whole.opened h] at hrest
      cases hrest
    refine Bracketed.block [r] shape.isBlock_kind hitems hnodes ⟨?_, fun h => ?_⟩ hbraces ?_
    · have hperm := hbraces.unmatched
      rw [hpair, Braces.join, hitems.whole.unmatched] at hperm
      exact List.perm_nil.1 hperm
    · have hperm := hbraces.opened
      rw [hpair, Braces.join, hopened] at hperm
      exact absurd (List.perm_nil.1 hperm) h
    · rw [braceIssues_append, braceIssues_append, braceIssues_faultOf, braceIssues_faultOf, hpair]
      rfl

/-! ## Whole files -/

/-- Each brace has its partner in the node that it belongs to, and what has none is reported. -/
structure Nests (a : Outcome α) : Prop where
  nested : (matchBraces a.read).Alike (Tree.nested a.trees)
  issues : (braceIssues a.issues).Perm
    ((Tree.unclosed a.trees).map (fun t => ⟨.unclosedBrace, .across t t⟩)
      ++ (matchBraces a.read).unmatched.map fun t => ⟨.unmatchedBrace, .across t t⟩)
  /-- A `}` that closes nothing is all of its node. -/
  single : ∀ n ∈ Tree.forestSubnodes a.trees, (matchBraces n.row).unmatched = [] ∨ ∃ r, n.row = [r]

theorem Bracketed.nests {a : Outcome α} (h : a.Bracketed) : a.Nests where
  nested := h.nested
  single n hn := by
    have hsum := (h.nested.unmatched_eq_nil h.whole.unmatched).2
    rw [Braces.unmatched_sum, List.flatMap_eq_nil_iff] at hsum
    exact .inl (hsum _ (List.mem_map_of_mem hn))
  issues := by
    rw [h.whole.unmatched]
    simpa using h.issues

/-- Either nothing comes behind, or nothing is open there. -/
theorem Nests.join {a b : Outcome α} (ha : a.Nests) (hb : b.Nests)
    (h : b.read = [] ∨ (matchBraces a.read).opened = []) : (a.join b).Nests := by
  have hread : (matchBraces b.read).unmatched = [] ∨ (matchBraces a.read).opened = [] :=
    h.imp_left fun hb => by rw [hb]; rfl
  have hrow : (matchBraces (Tree.row b.trees)).unmatched = []
      ∨ (matchBraces (Tree.row a.trees)).opened = [] := by
    rcases hread with hread | hread
    · exact .inl (hb.nested.unmatched_eq_nil hread).1
    · exact .inr (ha.nested.opened_eq_nil hread).1
  refine ⟨?_, ?_, ?_⟩
  · rw [read_join, matchBraces_append _ hread]
    exact (ha.nested.join hb.nested).trans (Tree.nested_append hrow).symm
  · rw [read_join, matchBraces_append _ hread, Outcome.join, braceIssues_append,
      Tree.unclosed_append, Braces.join, List.map_append, List.map_append]
    refine (ha.issues.append hb.issues).trans ?_
    simp only [List.append_assoc]
    refine .append (.refl _) ?_
    rw [← List.append_assoc, ← List.append_assoc]
    exact List.perm_append_comm.append_right _
  · rw [Outcome.join, Tree.forestSubnodes_append]
    exact fun n hn => (List.mem_append.1 hn).elim (ha.single n) (hb.single n)

theorem read_strayBrace (r : α) (rest : List α) : (strayBrace r rest).read = [r] := by
  simp [strayBrace, read, Tree.leaves]

theorem nests_strayBrace {r : α} (hr : Lexical.kind r = .rightBrace) (rest : List α) :
    (strayBrace r rest).Nests := by
  have hread := read_strayBrace r rest
  refine ⟨?_, ?_, fun n hn => .inr ⟨r, ?_⟩⟩
  · rw [hread, strayBrace, Tree.nested_node]
    exact (Tree.nested_leaves [r]) ▸ .refl _
  · rw [hread, strayBrace, Tree.unclosed_node]
    rw [matchBraces_stray hr]
    have hfault := braceIssues_faultOf r
    rw [braceIssues] at hfault ⊢
    rw [List.filter_cons, hfault]
    exact .refl _
  · rw [strayBrace, Tree.forestSubnodes_node] at hn
    rw [List.mem_singleton.1 hn]
    rfl

/-- **Braces have their partners in their nodes**, in a whole file. -/
theorem nests_file {stage : Stage} {tokens : List α} (last : α) (hfits : stage.Fits tokens)
    (hcalm : Spot.calm stage tokens) : (Rule.file.run maxDepth last tokens).Nests := by
  refine (Rule.file_ends closed_bracketed (fun _ => ⟨.refl _, .refl _, by rintro n ⟨⟩⟩)
    (fun hrest ha hb => ?_)
    (fun hr _ hb => ?_) last hfits hcalm).1
  · refine ha.nests.join hb (or_iff_not_imp_right.2 fun hopened => ?_)
    exact hrest ▸ ha.whole.opened hopened
  · refine (nests_strayBrace hr _).join hb (.inr ?_)
    rw [read_strayBrace, matchBraces_stray hr]

end Outcome

end NginxConf
