import NginxConf.Proofs.Arena.Capacity
import NginxConf.Proofs.Grammar.Depth
import NginxConf.Proofs.Parse.Shape

/-!
# What is stored of a text

Two kinds of numbers are stored in 32 bits when a text is parsed: the places among the events at
which nodes begin, and the numbers in the arena of the tree (`Storable`). They count calls of a
builder, nodes, pieces of the text and children. A text has hardly more pieces than characters
(`length_lexFrom_le`), and at most three nodes for each token, so there are at most seven calls for
each byte, and all numbers of a text of up to 2 ^ 29 bytes are small enough (`storable_of_size`).
-/

namespace NginxConf

/-- All that is stored when a text is parsed has 32 bits. -/
structure Storable (s : Text) : Prop where
  /-- The places among the events at which nodes begin. -/
  marks : ∀ i kind, (parse s).tree.calls[i]? = some (.start kind) → i < Overflow.offsetBound
  arena : (Arena.ofTree (parse s).tree).Fits

/-! ## Pieces of a text -/

/-- No lexeme is empty but one for a script that begins where the text ends, which is the last. -/
theorem lexFrom_of_text_nil {mode : Mode} {s : Text} {step : LexStep}
    (h : lexStep mode s = some step) (hempty : step.lexeme.text = []) :
    lexFrom step.mode step.rest = [] := by
  have hplain : ∀ {m}, lexPlain m s ≠ some step := by
    intro m hm
    cases s with
    | nil => cases hm
    | cons c rest =>
      cases hm
      exact LexStep.plain_text_ne_nil m c rest hempty
  unfold lexStep at h
  split at h
  · split at h
    · cases h
      exact lexFrom_of_none rfl
    · exact absurd h hplain
    · next hne _ =>
      cases h
      exact absurd hempty hne
  · exact absurd h hplain

/-- **A text has no more lexemes than characters, and one more at most.** -/
theorem length_lexFrom_le (mode : Mode) (s : Text) : (lexFrom mode s).length ≤ s.length + 1 := by
  fun_induction lexFrom mode s with
  | case1 => exact Nat.zero_le _
  | case2 mode s step h ih =>
    have hlength := congrArg List.length (lexStep_append h)
    rw [List.length_append] at hlength
    rw [List.length_cons]
    rcases Nat.eq_zero_or_pos step.lexeme.text.length with hempty | hpos
    · rw [lexFrom_of_text_nil h (List.length_eq_zero_iff.1 hempty), List.length_nil]
      omega
    · omega

theorem Text.length_le_size (s : Text) : s.length ≤ size s := by
  induction s with
  | nil => exact Nat.le_refl 0
  | cons c s ih =>
    have hpos := c.utf8Size_pos
    rw [List.length_cons, size_cons]
    omega

/-! ## Calls, nodes and pieces -/

mutual

/-- There are two calls for each node, and one for each token. -/
theorem length_treeCalls : (t : Tree Token) →
    (treeCalls t).length = 2 * t.kinds.length + t.leaves.length
  | .leaf _ => rfl
  | .node _ children => by
    simp only [treeCalls, Tree.kinds, Tree.leaves, List.length_cons, List.length_append,
      List.length_nil, length_forestCalls children]
    omega

theorem length_forestCalls : (ts : List (Tree Token)) →
    (forestCalls ts).length = 2 * (Tree.forestKinds ts).length + (Tree.forestLeaves ts).length
  | [] => rfl
  | t :: ts => by
    simp only [forestCalls, Tree.forestKinds, Tree.forestLeaves, List.length_append,
      length_treeCalls t, length_forestCalls ts]
    omega

end

theorem Token.length_lexemes (t : Token) :
    t.lexemes.length = t.leading.length + 1 + t.trailing.length := by
  simp [lexemes, Nat.add_assoc, Nat.add_comm 1]

namespace Arena.Mark

mutual

/-- Behind a tree come as many more nodes and pieces as it has. Its nodes and tokens are children,
but for the tree itself. -/
theorem counts_past (m : Mark) : (t : Tree Token) →
    (m.past t).node = m.node + t.kinds.length ∧
      (m.past t).piece = m.piece + (t.leaves.flatMap Token.lexemes).length ∧
      (m.past t).child + 1 = m.child + t.kinds.length + t.leaves.length
  | .leaf t => by
    simp [past, pastToken, Tree.kinds, Tree.leaves, Token.length_lexemes]
  | .node kind children => by
    obtain ⟨hnode, hpiece, hchild⟩ := counts_pastAll m.enter children
    have hentered : m.enter.node = m.node + 1 ∧ m.enter.child = m.child := ⟨rfl, rfl⟩
    simp only [past, Tree.kinds, Tree.leaves, List.length_cons]
    exact ⟨by omega, hpiece, by omega⟩

/-- Behind some trees, their nodes and tokens are children, but for the trees themselves. -/
theorem counts_pastAll (m : Mark) : (ts : List (Tree Token)) →
    (m.pastAll ts).node = m.node + (Tree.forestKinds ts).length ∧
      (m.pastAll ts).piece = m.piece + ((Tree.forestLeaves ts).flatMap Token.lexemes).length ∧
      (m.pastAll ts).child + ts.length
        = m.child + (Tree.forestKinds ts).length + (Tree.forestLeaves ts).length
  | [] => ⟨rfl, rfl, rfl⟩
  | t :: ts => by
    obtain ⟨hnode, hpiece, hchild⟩ := counts_past m t
    obtain ⟨hnodes, hpieces, hchildren⟩ := counts_pastAll (m.past t) ts
    simp only [pastAll, Tree.forestKinds, Tree.forestLeaves, List.flatMap_append,
      List.length_append, List.length_cons]
    exact ⟨by omega, by omega, by omega⟩

end

end Arena.Mark

mutual

theorem Tree.kinds_map {α β : Type} (f : α → β) : (t : Tree α) → (t.map f).kinds = t.kinds
  | leaf _ => rfl
  | node kind children => congrArg (kind :: ·) (forestKinds_map f children)

theorem Tree.forestKinds_map {α β : Type} (f : α → β) :
    (ts : List (Tree α)) → forestKinds (forestMap f ts) = forestKinds ts
  | [] => rfl
  | t :: ts => by rw [forestMap, forestKinds, forestKinds, kinds_map f t, forestKinds_map f ts]

end

/-! ## The tree of a text -/

/-- The tree of a text has no more pieces than the text has bytes, and two more at most. -/
theorem length_lexemes_parse_le (s : Text) :
    ((parse s).tree.leaves.flatMap Token.lexemes).length ≤ Text.size s + 2 := by
  have hlexemes : (parse s).tree.leaves.flatMap Token.lexemes = _ := (isFileOf_parse s).lexemes
  have hlex := length_lexFrom_le .normal s
  have hsize := Text.length_le_size s
  rw [hlexemes, List.length_append, List.length_map]
  exact Nat.succ_le_succ (Nat.le_trans hlex (Nat.succ_le_succ hsize))

/-- No tree has more tokens than pieces. -/
theorem length_leaves_le (ts : List Token) : ts.length ≤ (ts.flatMap Token.lexemes).length := by
  induction ts with
  | nil => exact Nat.le_refl 0
  | cons t ts ih =>
    rw [List.flatMap_cons, List.length_append, Token.length_lexemes, List.length_cons]
    omega

/-- **Below the top of the tree of a text, there are at most three nodes for each token** but the
end. -/
theorem length_kinds_parse_le (s : Text) : (Tree.forestKinds (parse s).tree.children).length + 3
    ≤ 3 * (parse s).tree.leaves.length := by
  have hnodes := Tree.forestShaped.length_kinds_le ((Tree.forestShaped_iff _).2 (shaped_fileOutcome s))
    ((runs_fileOutcome s).chains (by decide) (Rule.within_file (n := 0))).2
  have htokens : Tree.forestLeaves (fileOutcome s).trees = (tokenize s).tokens :=
    (Tree.forestLeaves_eq _).trans (read_fileOutcome s)
  have hkinds : Tree.forestKinds (parse s).tree.children
      = Tree.forestKinds (fileOutcome s).trees := by
    rw [parse_tree, Tree.forestKinds_eq, List.flatMap_append, ← Tree.forestKinds_eq,
      ← Tree.forestMap_eq, Tree.forestKinds_map]
    exact List.append_nil _
  rw [hkinds, leaves_parse, List.length_map, TokenStream.all, List.length_append, ← htokens]
  exact Nat.add_le_add_right hnodes 3

/-- There are at most seven calls for each token, and not all of them for the end. -/
theorem length_calls_parse_le (s : Text) :
    (parse s).tree.calls.length + 4 ≤ 7 * (parse s).tree.leaves.length := by
  have hkinds := length_kinds_parse_le s
  have htop : Tree.forestLeaves (parse s).tree.children = (parse s).tree.leaves :=
    Tree.forestLeaves_eq _
  rw [SyntaxTree.calls, length_treeCalls, Node.toTree, Tree.kinds, Tree.leaves, List.length_cons,
    htop]
  omega

/-- An arena that fits has room for all lexemes, the end of the text, and the sentinel. -/
theorem length_lex_lt_of_fits {s : Text} (h : (Arena.ofTree (parse s).tree).Fits) :
    (lex s).length + 2 < Overflow.offsetBound := by
  have hroom := (Arena.fits_ofTree_iff.1 h).1.piece
  have hlexemes : (parse s).tree.leaves.flatMap Token.lexemes = _ := (isFileOf_parse s).lexemes
  rw [(Arena.Mark.counts_pastAll Arena.Mark.first.enter (parse s).tree.children).2.1,
    show Tree.forestLeaves (parse s).tree.children = (parse s).tree.leaves from
      Tree.forestLeaves_eq _, hlexemes, List.length_append] at hroom
  have hfirst : Arena.Mark.first.enter.piece + ((lex s).length + 1) = (lex s).length + 2 :=
    Nat.add_comm 1 _
  rw [List.length_map] at hroom
  exact hfirst ▸ hroom

/-- **All that is stored of a text of up to 2 ^ 29 bytes has 32 bits.** -/
theorem storable_of_size {s : Text} (hs : Text.size s ≤ 2 ^ 29) : Storable s := by
  have hpieces := length_lexemes_parse_le s
  have hleaves := length_leaves_le (parse s).tree.leaves
  have hbound : Overflow.offsetBound = 2 ^ 32 := rfl
  constructor
  case marks =>
    intro i kind hi
    have hlt := (List.getElem?_eq_some_iff.1 hi).1
    have hcalls := length_calls_parse_le s
    omega
  case arena =>
    have hkinds := length_kinds_parse_le s
    have htop : Tree.forestLeaves (parse s).tree.children = (parse s).tree.leaves :=
      Tree.forestLeaves_eq _
    rw [← htop] at hpieces hleaves hkinds
    obtain ⟨hnode, hpiece, hchild⟩ := Arena.Mark.counts_pastAll Arena.Mark.first.enter
      (parse s).tree.children
    have hfirst : Arena.Mark.first.enter.node = 1 ∧ Arena.Mark.first.enter.piece = 1 ∧
      Arena.Mark.first.enter.child = 0 := ⟨rfl, rfl, rfl⟩
    rw [Arena.fits_ofTree_iff]
    refine ⟨⟨?_, ?_, ?_⟩, ?_⟩ <;> omega

end NginxConf
