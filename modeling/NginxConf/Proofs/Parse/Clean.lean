import NginxConf.Proofs.Edit.Enclosed
import NginxConf.Proofs.Grammar.Items
import NginxConf.Proofs.Grammar.Kinds
import NginxConf.Proofs.Parse.Errors
import NginxConf.Proofs.SyntaxTree.Tokens

/-!
# The tree of a text without errors

Where a text has no errors, its tokens are sound (`fault_eq_none`), each block of its tree has both of
its braces (`braced_of_mem_descendants`), and what stands in a block or in the whole file are trees
that begin and end as statements do (`itemlike_of_file`). Before the `}` of a block therefore stands
its `{`, or a token that ends a statement (`before_rightBrace`).
-/

namespace NginxConf

variable {s : Text}

/-! ## Faults -/

/-- Every token that a rule reads is reported if it is faulty. -/
theorem Runs.faultOf_subset {α : Type} [Lexical α] {room : Nat} {known seen : List α} {rule : Rule α}
    {last : α} {rest : List α} {a : Outcome α} (h : Runs room known seen rule last rest a) :
    ∀ t ∈ a.read, Outcome.faultOf t ⊆ a.issues := by
  have hreading : ∀ (n : Nat) (last : α) (rest : List α), ∀ t ∈ (Outcome.reading n last rest).read,
      Outcome.faultOf t ⊆ (Outcome.reading n last rest).issues := by
    intro n last rest t ht
    rw [Outcome.read_reading] at ht
    exact fun i hi => List.mem_flatMap.2 ⟨t, ht, hi⟩
  have hjoin : ∀ {a b : Outcome α}, (∀ t ∈ a.read, Outcome.faultOf t ⊆ a.issues) →
      (∀ t ∈ b.read, Outcome.faultOf t ⊆ b.issues) →
      ∀ t ∈ (a.join b).read, Outcome.faultOf t ⊆ (a.join b).issues := by
    intro a b ha hb t ht
    rw [Outcome.read_join] at ht
    rcases List.mem_append.1 ht with ht | ht
    · exact List.Subset.trans (ha t ht) (List.subset_append_left _ _)
    · exact List.Subset.trans (hb t ht) (List.subset_append_right _ _)
  induction h with
  | done | complain | complainSince | complainAt | atEnd | manyStop => simp [Outcome.read, Outcome.idle]
  | advance | acceptAll | rawGroup => exact hreading _ _ _
  | andThen _ _ iha ihb | manyStep _ _ _ _ iha ihb => exact hjoin iha ihb
  | withNext _ _ ih | peek _ ih | tooDeep _ _ ih => exact ih
  | wrap _ _ ih | block _ _ ih =>
    rw [Outcome.read_wrapped, Outcome.issues_wrapped]
    exact ih
  | wrapBy _ _ _ iha ihb =>
    rw [Outcome.read_wrapped, Outcome.issues_wrapped]
    exact hjoin iha ihb

/-- **No token of a text without errors is faulty.** -/
theorem fault_eq_none (h : (parse s).hasErrors = false) {p : PlacedToken}
    (hp : p ∈ (tokenize s).tokens) : p.fault = none := by
  rw [not_hasErrors_iff_clean] at h
  have hsubset := (runs_fileOutcome s).faultOf_subset p (by rwa [read_fileOutcome])
  cases hfault : p.fault with
  | none => rfl
  | some fault =>
    have hmem : (⟨.malformed fault, .across p p⟩ : Issue PlacedToken) ∈ Outcome.faultOf p := by
      simp [Outcome.faultOf, show Lexical.fault p = some fault from hfault]
    cases h _ (hsubset hmem)

/-! ## Trees -/

/-- What the rule for a file builds does not depend on the token before the first one. -/
theorem trees_file {α : Type} [Lexical α] (last last' : α) (tokens : List α) :
    (Rule.file.run maxDepth last tokens).trees = (Rule.file.run maxDepth last' tokens).trees :=
  congrArg Prod.fst ((parseFile_eq last tokens).symm.trans (parseFile_eq last' tokens))

/-- The trees of a text are built over tokens that are faulty exactly if they are malformed. -/
theorem exists_shapedOutcome (s : Text) : ∃ a : Outcome ShapedToken,
    a = Rule.file.run maxDepth default ((tokenize s).tokens.map ShapedToken.ofToken) ∧
      (fileOutcome s).trees = a.trees.map (Tree.map Subtype.val) ∧
      ((parse s).hasErrors = false → a.Clean) := by
  have hval : ((tokenize s).tokens.map ShapedToken.ofToken).map Subtype.val
      = (tokenize s).tokens := by
    rw [List.map_map]
    exact (List.map_congr_left fun p hp => ShapedToken.val_ofToken (tokenize_shaped hp)).trans
      (List.map_id _)
  have hrun := run_relabel ShapedToken.relabelling_val (.file ShapedToken.relabelling_val) maxDepth
    default ((tokenize s).tokens.map ShapedToken.ofToken)
  rw [hval] at hrun
  refine ⟨_, rfl, ?_, fun h => ?_⟩
  · rw [fileOutcome, trees_file _ (default : ShapedToken).val, hrun]
    rfl
  · rw [not_hasErrors_iff_clean, fileOutcome,
      (run_alike maxDepth Rule.file _ (default : ShapedToken).val _).clean_iff, hrun] at h
    intro i hi
    exact h (i.map Subtype.val) (List.mem_map_of_mem hi)

/-- **The trees of a file without errors are like statements, and the end follows them.** -/
theorem itemlike_of_file (h : (parse s).hasErrors = false) : ∃ items : List (Tree Token),
    (parse s).tree.children = items ++ [.leaf (tokenize s).stop.token] ∧
      ∀ u ∈ items, u.Itemlike Token.kind := by
  obtain ⟨a, ha, htrees, hclean⟩ := exists_shapedOutcome s
  have hitems := Rule.itemlike_of_file (ha ▸ hclean h)
  refine ⟨_, by rw [parse_tree], fun u hu => ?_⟩
  rw [htrees, ← ha.symm] at hu
  obtain ⟨v, hv, rfl⟩ := List.mem_map.1 hu
  obtain ⟨w, hw, rfl⟩ := List.mem_map.1 hv
  have hlike : w.Itemlike ((Token.kind ∘ PlacedToken.token) ∘ Subtype.val) := hitems w (ha ▸ hw)
  exact hlike.map.map

/-- **A block in a file without errors has both of its braces, and statements between them.** -/
theorem braced_of_mem_descendants (h : (parse s).hasErrors = false) {n : NodeRef}
    (hn : n ∈ (NodeRef.root (parse s).tree).descendants) (hk : n.kind.isBlock = true) :
    Tree.Braced Token.kind n.children := by
  obtain ⟨shape, hshape⟩ : ∃ shape : BlockShape, n.kind = shape.kind := by
    cases hkind : n.kind <;> rw [hkind] at hk <;> first
      | exact ⟨.plain, rfl⟩
      | exact ⟨.geo, rfl⟩
      | cases hk
  obtain ⟨frames, hin⟩ := NodeRef.exists_in_of_mem_descendants hn
  have hfile : n.kind ≠ .sourceFile := by
    rw [hshape]
    cases shape <;> exact (nomatch ·)
  obtain ⟨before, inner, after, children, htrees, hchildren, -⟩ := exists_fileOutcome_of_in hin hfile
  obtain ⟨a, ha, hshaped, hclean⟩ := exists_shapedOutcome s
  rw [hshaped] at htrees
  obtain ⟨before', rest, htrees', -, hrest⟩ := List.map_eq_append_iff.1 htrees
  obtain ⟨t, after', rfl, ht, -⟩ := List.map_eq_cons_iff.1 hrest
  obtain ⟨inner', u, rfl, -, hu⟩ := Tree.exists_of_map_eq_fill ht
  cases u with
  | leaf x => cases hu
  | node kind children' =>
    rw [Tree.map, Tree.forestMap_eq] at hu
    obtain ⟨rfl, rfl⟩ := Tree.node.inj hu
    have hruns : Runs maxDepth [] [] .file default _ a := ha ▸ Rule.runs_file _ _
    have hbraced := hruns.braced_of_block (hclean h) (hshape ▸ htrees')
    have hval : Tree.Braced ((Token.kind ∘ PlacedToken.token) ∘ Subtype.val) children' := hbraced
    rw [hchildren]
    exact hval.map.map

/-- The root is the only node of a whole file. -/
theorem children_of_sourceFile {n : NodeRef}
    (hn : n ∈ (NodeRef.root (parse s).tree).descendants) (hk : n.kind = .sourceFile) :
    n.children = (parse s).tree.children := by
  obtain ⟨frames, hin⟩ := NodeRef.exists_in_of_mem_descendants hn
  by_cases hframes : frames = []
  · subst hframes
    exact (Tree.node.inj hin.tree).2.symm
  -- a node further down is built by a rule
  obtain ⟨before, inner, after, children, htrees, -⟩ := exists_fileOutcome_of_frames hin hframes
  refine absurd hk (@isInner_of_mem_kinds _ _ .origin (tokenize s).tokens _ ?_)
  rw [show (Rule.file.run maxDepth .origin (tokenize s).tokens).trees = _ from htrees]
  exact List.mem_flatMap.2 ⟨_, by simp, Tree.mem_kinds_fill inner n.kind children⟩

/-! ## Tokens -/

section Tokens

variable (h : (parse s).hasErrors = false)

include h

/-- The tokens of a text without errors are not empty, and the end comes after all of them. -/
theorem pairwise_allTokens : (NodeRef.root (parse s).tree).allTokens.Pairwise
    fun t u => t.span.start < u.span.start := by
  refine (NodeRef.consecutive_allTokens _).pairwise fun t ht => ?_
  have hmap : (NodeRef.root (parse s).tree).allTokens.map TokenRef.token
      = (tokenize s).tokens.map PlacedToken.token ++ [(tokenize s).stop.token] := by
    have hleaves := leaves_parse s
    rw [TokenStream.all, List.map_append] at hleaves
    rw [NodeRef.map_token_allTokens, Tree.forestLeaves_eq]
    exact hleaves
  have hmem : t.token ∈ (tokenize s).tokens.map PlacedToken.token := by
    have := List.mem_map_of_mem (f := TokenRef.token) ht
    rwa [List.map_dropLast, hmap, List.dropLast_concat] at this
  obtain ⟨p, hp, htoken⟩ := List.mem_map.1 hmem
  rw [← htoken]
  exact (tokenize_shaped hp).text_ne_nil (fault_eq_none h hp)

omit h in
/-- Where tokens begin one after the other, each of them is met once. -/
theorem left_eq_of_pairwise {left left' right right' : List TokenRef} {t : TokenRef}
    (hpairwise : (left ++ t :: right).Pairwise fun t u => t.span.start < u.span.start)
    (heq : left ++ t :: right = left' ++ t :: right') : left = left' := by
  induction left generalizing left' with
  | nil =>
    cases left' with
    | nil => rfl
    | cons u us =>
      obtain ⟨rfl, hus⟩ := List.cons.inj heq
      have := (List.pairwise_cons.1 hpairwise).1 t (by rw [hus]; simp)
      omega
  | cons u us ih =>
    cases left' with
    | nil =>
      obtain ⟨rfl, -⟩ := List.cons.inj heq
      have := (List.pairwise_cons.1 hpairwise).1 u (by simp)
      omega
    | cons v vs =>
      obtain ⟨rfl, hrest⟩ := List.cons.inj heq
      rw [ih (List.pairwise_cons.1 hpairwise).2 hrest]

/-- Tokens that begin at the same offset are the same. -/
theorem eq_of_start_eq {t u : TokenRef} (ht : t ∈ (NodeRef.root (parse s).tree).allTokens)
    (hu : u ∈ (NodeRef.root (parse s).tree).allTokens) (hstart : t.span.start = u.span.start) :
    t = u := by
  obtain ⟨before, after, hsplit⟩ := List.append_of_mem ht
  have hpairwise := pairwise_allTokens h
  rw [hsplit] at hpairwise hu
  obtain ⟨-, htail, hcross⟩ := List.pairwise_append.1 hpairwise
  rcases List.mem_append.1 hu with hu | hu
  · have := hcross u hu t List.mem_cons_self
    omega
  · rcases List.mem_cons.1 hu with rfl | hu
    · rfl
    · have := (List.pairwise_cons.1 htail).1 u hu
      omega

omit h in
/-- The last token of a row of items ends an item. -/
theorem exists_getLast_of_itemlike {ts : List TokenRef} {front items : List (Tree Token)}
    (hmap : ts.map TokenRef.token = Tree.forestLeaves (front ++ items)) (hne : items ≠ [])
    (hitems : ∀ u ∈ items, u.Itemlike Token.kind) :
    ∃ t, ts.getLast? = some t ∧ (t.token.kind = .semicolon ∨ t.token.kind = .rightBrace) := by
  obtain ⟨init, u, rfl⟩ := List.eq_nil_or_concat items |>.resolve_left hne
  obtain ⟨leaves, x, hu, hx⟩ := (hitems u (by simp)).last
  have hlast : (ts.map TokenRef.token).getLast? = some x := by
    rw [hmap, Tree.forestLeaves_eq, List.concat_eq_append, ← List.append_assoc,
      List.flatMap_append, List.flatMap_singleton, hu, ← List.append_assoc, List.getLast?_concat]
  rw [List.getLast?_map] at hlast
  obtain ⟨t, ht, rfl⟩ := Option.map_eq_some_iff.1 hlast
  exact ⟨t, ht, hx⟩

/-- The tokens of a block, in a text without errors. -/
theorem exists_tokens_of_block {m : NodeRef}
    (hm : m ∈ (NodeRef.root (parse s).tree).descendants) (hk : m.kind.isBlock = true) :
    ∃ first inner last, m.allTokens = first :: inner ++ [last] ∧ m.tokens = [first, last] ∧
      first.token.kind = .leftBrace ∧ last.token.kind = .rightBrace ∧ first.parent = m ∧
      last.parent = m ∧
      ∀ t ∈ inner.getLast?, t.token.kind = .semicolon ∨ t.token.kind = .rightBrace := by
  obtain ⟨l, items, r, hchildren, hl, hr, hitems⟩ := braced_of_mem_descendants h hm hk
  obtain ⟨first, inner, last, htokens, hown, rfl, rfl, hfirst, hlast, hinner⟩ :=
    NodeRef.exists_allTokens_of_braces (fun u hu => (hitems u hu).isNode) hchildren
  refine ⟨first, inner, last, htokens, hown, hl, hr, hfirst, hlast, fun t ht => ?_⟩
  have hne : items ≠ [] := by
    rintro rfl
    rw [List.map_eq_nil_iff.1 hinner] at ht
    cases ht
  obtain ⟨u, hu, hkind⟩ := exists_getLast_of_itemlike
    (show _ = Tree.forestLeaves ([] ++ items) from hinner) hne hitems
  rw [Option.some.inj (ht.symm.trans hu)]
  exact hkind

/-- **Before the `}` of a block stands its `{`, or a token that ends a statement.** -/
theorem before_rightBrace {p t : TokenRef} {before after : List TokenRef}
    (hsplit : (NodeRef.root (parse s).tree).allTokens = before ++ p :: t :: after)
    (hk : t.token.kind = .rightBrace) (hparent : t.parent.kind.isBlock = true) :
    (p.token.kind = .leftBrace ∧ p.parent = t.parent ∧ t.parent.allTokens = [p, t]) ∨
      p.token.kind = .semicolon ∨ p.token.kind = .rightBrace := by
  obtain ⟨hm, hown⟩ := NodeRef.parent_mem_descendants
    (show t ∈ (NodeRef.root (parse s).tree).allTokens by rw [hsplit]; simp)
  obtain ⟨first, inner, last, htokens, howns, hl, -, hfirst, -, hinner⟩ :=
    exists_tokens_of_block h hm hparent
  obtain rfl : t = last := by
    rw [howns] at hown
    simp only [List.mem_cons, List.not_mem_nil, or_false] at hown
    rcases hown with rfl | rfl
    · rw [hk] at hl
      cases hl
    · rfl
  obtain ⟨left, right, hpart⟩ := NodeRef.infix_allTokens hm
  -- the same token is not met twice, so what stands before it is the same
  have hpairwise := pairwise_allTokens h
  have hsame : before ++ [p] = left ++ first :: inner := by
    have hboth : (before ++ [p]) ++ t :: after = (left ++ first :: inner) ++ t :: right := by
      rw [hsplit] at hpart
      rw [htokens] at hpart
      simpa using hpart.symm
    rw [hsplit, show before ++ p :: t :: after = (before ++ [p]) ++ t :: after by simp] at hpairwise
    exact left_eq_of_pairwise hpairwise hboth
  rcases List.eq_nil_or_concat inner with rfl | ⟨init, u, rfl⟩
  · obtain ⟨-, hp⟩ := List.append_inj' hsame rfl
    obtain rfl := (List.cons.inj hp).1
    exact .inl ⟨hl, hfirst, htokens⟩
  · rw [List.concat_eq_append] at hsame hinner
    have hlast := congrArg List.getLast? hsame
    rw [List.getLast?_concat, ← List.cons_append, ← List.append_assoc, List.getLast?_concat] at hlast
    rw [Option.some.inj hlast]
    exact .inr (hinner u (by simp))

end Tokens

end NginxConf
