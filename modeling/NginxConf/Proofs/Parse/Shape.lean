import NginxConf.Proofs.Grammar.NestedPatterns
import NginxConf.Proofs.Parse.Lossless
import NginxConf.Proofs.SyntaxTree.Descent

/-!
# The shape of the tree of a text

Whatever a text is, the children of each node of its tree match the pattern of the node
(`admits_parse`). Code that reads a tree may rely on this: it need not tell clean texts from broken
ones.
-/

namespace NginxConf

/-- A token of a finished tree. What was wrong with it is said by a diagnostic. -/
instance : Lexical Token where
  kind t := t.kind
  text t := t.text
  fault _ := none

section Outcome

variable {α : Type} [Lexical α]

/-- The children of all nodes that have been built match their patterns. -/
def Outcome.Shaped (a : Outcome α) : Prop := ∀ t ∈ a.trees, t.Shaped

theorem Outcome.Shaped.join {a b : Outcome α} (ha : a.Shaped) (hb : b.Shaped) : (a.join b).Shaped :=
  fun t ht => (List.mem_append.1 ht).elim (ha t) (hb t)

theorem Tree.shaped_leaves (ts : List α) : ∀ t ∈ ts.map Tree.leaf, t.Shaped := by
  intro t ht
  obtain ⟨_, -, rfl⟩ := List.mem_map.1 ht
  trivial

theorem Outcome.closed_shaped : Outcome.Closed (Outcome.Shaped (α := α)) where
  issue _ := by simp [Shaped]
  reading _ := Tree.shaped_leaves _
  script _ _ := Tree.shaped_leaves _
  deep _ hadmits := List.forall_mem_singleton.2 (Tree.shaped_node.2 ⟨hadmits, Tree.shaped_leaves _⟩)
  join _ ha hb := ha.join hb
  wrapped _ hadmits _ ha := by
    intro t ht
    rw [List.mem_singleton.1 ht]
    exact Tree.shaped_node.2 ⟨hadmits, ha⟩
  openBlock _ hitems _ _ hadmits := by
    intro t ht
    rw [List.mem_singleton.1 ht]
    exact Tree.shaped_node.2 ⟨hadmits, List.forall_mem_cons.2 ⟨trivial, hitems⟩⟩
  closedBlock _ _ hitems _ _ hadmits := by
    intro t ht
    rw [List.mem_singleton.1 ht]
    refine Tree.shaped_node.2 ⟨hadmits, List.forall_mem_append.2 ⟨?_, ?_⟩⟩
    · exact List.forall_mem_cons.2 ⟨trivial, hitems⟩
    · exact List.forall_mem_singleton.2 trivial

theorem Outcome.shaped_strayBrace {r : α} (hr : Lexical.kind r = .rightBrace) (rest : List α) :
    (Outcome.strayBrace r rest).Shaped := by
  refine List.forall_mem_singleton.2 (Tree.shaped_node.2 ⟨?_, List.forall_mem_singleton.2 trivial⟩)
  refine Pattern.misfit_le_error (Rule.oneOf_le_misfit (s := [.token .rightBrace]) (by decide) ?_)
  exact Pattern.mem_oneOf.2 ⟨_, List.mem_cons_self, by simp [Tree.symbol, hr]⟩

/-- A file is a row of statements, and all that it is made of has its shape. -/
theorem shaped_file {stage : Stage} {tokens : List α} (last : α) (hfits : stage.Fits tokens)
    (hcalm : Spot.calm stage tokens) :
    (Rule.file.run maxDepth last tokens).Shaped ∧
      (Rule.file.run maxDepth last tokens).trees.map Tree.symbol
        ∈ (Pattern.repeated Pattern.statement).matches' :=
  Rule.file_ends Outcome.closed_shaped (fun _ => by simp [Outcome.Shaped, Outcome.idle])
    (fun _ ha hb => ha.join hb) (fun hr _ hb => (Outcome.shaped_strayBrace hr _).join hb) last hfits
    hcalm

end Outcome

/-- What stands in a tree has its shape where the tree has. -/
theorem Tree.Shaped.of_fill {α : Type} [Lexical α] {frames : List (Frame α)} {t : Tree α}
    (h : (Tree.fill frames t).Shaped) : t.Shaped := by
  induction frames with
  | nil => exact h
  | cons frame frames ih =>
    exact ih ((Tree.shaped_node.1 h).2 _ (List.mem_append_right _ List.mem_cons_self))

theorem calm_tokenize (s : Text) : Spot.calm .normal (tokenize s).tokens :=
  Spot.calm_of_isPlain (fits_tokenize s) ⟨by decide, by decide⟩

theorem shaped_fileOutcome (s : Text) : (fileOutcome s).Shaped :=
  (shaped_file PlacedToken.origin (fits_tokenize s) (calm_tokenize s)).1

/-- **The tree of any text has its shape.** -/
theorem shaped_parse (s : Text) : (parse s).tree.toTree.Shaped := by
  obtain ⟨-, hsymbols⟩ := shaped_file PlacedToken.origin (fits_tokenize s) (calm_tokenize s)
  obtain ⟨left, hstop⟩ := stop_attachTrivia 0 [] (lex s)
  rw [parse_tree, show (tokenize s).stop.token = .endOfFile left from hstop]
  refine Tree.shaped_node.2 ⟨?_, List.forall_mem_append.2 ⟨?_, List.forall_mem_singleton.2 trivial⟩⟩
  · rw [NodeKind.Admits, List.map_append, Tree.map_symbol_map (f := PlacedToken.token) fun _ => rfl]
    exact Language.append_mem_mul hsymbols (Pattern.mem_oneOf.2 ⟨_, List.mem_cons_self, rfl⟩)
  · intro t ht
    obtain ⟨u, hu, rfl⟩ := List.mem_map.1 ht
    exact (Tree.shaped_map (f := PlacedToken.token) (fun _ => rfl) (fun _ => rfl) u).2
      (shaped_fileOutcome s u hu)

/-- Each node of a tree that has its shape has a shape of its own. -/
theorem Tree.Shaped.of_mem_descendants {t : SyntaxTree} (h : t.toTree.Shaped) {n : NodeRef}
    (hn : n ∈ (NodeRef.root t).descendants) : (Tree.node n.kind n.children).Shaped := by
  obtain ⟨frames, hin⟩ := NodeRef.exists_in_of_mem_descendants hn
  rw [hin.tree] at h
  exact h.of_fill

theorem Tree.Shaped.admits {t : SyntaxTree} (h : t.toTree.Shaped) {n : NodeRef}
    (hn : n ∈ (NodeRef.root t).descendants) : n.kind.Admits n.children :=
  (Tree.shaped_node.1 (h.of_mem_descendants hn)).1

/-- **The children of every node of the tree of a text match the pattern of its kind**, whether the
text is clean or broken. -/
theorem admits_parse (s : Text) :
    ∀ n ∈ (NodeRef.root (parse s).tree).descendants, n.kind.Admits n.children :=
  fun _ hn => (shaped_parse s).admits hn

/-- The node of an `if` with nothing behind it. -/
theorem admits_parse_unfinished_if : ∃ n ∈ (NodeRef.root (parse "if".toList).tree).descendants,
    n.kind = .ifStatement ∧ n.kind.Admits n.children := by
  have hfound : ∃ n ∈ (NodeRef.root (parse "if".toList).tree).descendants,
      n.kind = .ifStatement := by decide +kernel
  obtain ⟨n, hn, hkind⟩ := hfound
  exact ⟨n, hn, hkind, admits_parse _ n hn⟩

end NginxConf
