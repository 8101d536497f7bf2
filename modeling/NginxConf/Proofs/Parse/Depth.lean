import NginxConf.Proofs.Edit.Enclosed
import NginxConf.Proofs.Grammar.Depth
import NginxConf.Proofs.Grammar.RawGroups
import NginxConf.Proofs.Parse.Marks
import NginxConf.Proofs.Parse.Partners
import NginxConf.Proofs.SyntaxTree.Depth

/-!
# Nesting is bounded

However deep the braces of a text are nested, its tree is not: there are at most 256 blocks on a way
down, and with the nodes between them at most 772 nodes. So whatever recurses on the tree does so to
this depth only, and so does the parser. A block for which there is no room is kept as raw tokens.
All of this is `nestingBounded`.
-/

namespace NginxConf

/-! ## Nodes begun and not completed -/

namespace Tree

mutual

/-- **While a tree is noted, no more nodes are begun and not completed than the tree is deep.** -/
theorem countP_prefix_steps {noted more : List ParseEvent} : (t : Tree PlacedToken) →
    noted ++ more = t.steps →
    noted.countP ParseEvent.isStart ≤ noted.countP ParseEvent.isFinish + t.depth
  | leaf t, h => by
    have hnone := congrArg (List.countP ParseEvent.isStart) h
    rw [List.countP_append, show (steps (leaf t)).countP ParseEvent.isStart = 0 from rfl] at hnone
    omega
  | node kind children, h => by
    rw [steps] at h
    cases noted with
    | nil => exact Nat.zero_le _
    | cons e noted =>
      obtain ⟨rfl, hrest⟩ := List.cons.inj h
      have hinner : noted.countP ParseEvent.isStart
          ≤ noted.countP ParseEvent.isFinish + forestDepth children := by
        rcases List.append_eq_append_iff.1 hrest with ⟨more, hnoted, -⟩ | ⟨last, rfl, hlast⟩
        · exact countP_prefix_forestSteps children hnoted.symm
        · have hnone := congrArg (List.countP ParseEvent.isStart) hlast
          have hcount := countP_forestSteps children
          rw [List.countP_append, show [ParseEvent.finish].countP ParseEvent.isStart = 0 from rfl]
            at hnone
          rw [List.countP_append, List.countP_append]
          omega
      rw [List.countP_cons, List.countP_cons, depth]
      simp only [ParseEvent.isStart, if_true]
      omega

theorem countP_prefix_forestSteps {noted more : List ParseEvent} :
    (ts : List (Tree PlacedToken)) → noted ++ more = forestSteps ts →
    noted.countP ParseEvent.isStart ≤ noted.countP ParseEvent.isFinish + forestDepth ts
  | [], h => by
    rw [(List.append_eq_nil_iff.1 h).1]
    exact Nat.zero_le _
  | t :: ts, h => by
    rw [forestSteps] at h
    rw [forestDepth]
    rcases List.append_eq_append_iff.1 h with ⟨more, hnoted, -⟩ | ⟨later, rfl, hlater⟩
    · have hfirst := countP_prefix_steps t hnoted.symm
      omega
    · have hrest := countP_prefix_forestSteps ts hlater.symm
      have hcount := countP_steps t
      rw [List.countP_append, List.countP_append]
      omega

end

end Tree

/-! ## The depth of a tree -/

/-- A node of the tree, the root apart, is found where the rule for a file has built it. -/
theorem exists_standsFor_in {s : Text} {n : NodeRef} (hn : n ∈ nodesOf s)
    (hkind : n.kind ≠ .sourceFile) :
    ∃ before frames after children,
      (fileOutcome s).trees = before ++ Tree.fill frames (.node n.kind children) :: after ∧
      n.StandsFor ⟨n.kind, children⟩ ∧
      n.above.map (·.kind) = (frames.map (·.kind)).reverse ++ [.sourceFile] := by
  obtain ⟨frames, hin⟩ := NodeRef.exists_in_of_mem_descendants hn
  obtain ⟨before, inner, after, children, htrees, hchildren, rfl⟩ :=
    exists_fileOutcome_of_in hin hkind
  refine ⟨before, inner, after, children, htrees, ⟨rfl, hchildren, ?_⟩, ?_⟩
  · have htile := tile_fileOutcome s
    rw [htrees] at htile
    simp only [List.flatMap_append, List.flatMap_cons, Tree.leaves_fill, Tree.leaves,
      Tree.forestLeaves_eq, List.append_assoc] at htile
    obtain ⟨_, hbefore, htile⟩ := htile.append
    obtain ⟨_, hinner, htile⟩ := htile.append
    obtain ⟨stop, hnode, -⟩ := htile.append
    refine ⟨stop, ?_⟩
    have hstart := hin.start
    rw [Tree.leavesBefore_cons, Tree.leavesBefore_map, Tree.flatMap_leaves_map, ← List.map_append,
      List.flatMap_map, List.flatMap_append, Text.size_append] at hstart
    rwa [hinner.stop_eq, hbefore.stop_eq, Nat.zero_add, ← hstart] at hnode
  · rw [hin.above]
    simp [Function.comp_def, Frame.map]

theorem forestDepth_fileOutcome (s : Text) : Tree.forestDepth (fileOutcome s).trees ≤ 770 :=
  (runs_fileOutcome s).forestDepth_le (Rule.within_file (n := 0))

/-- The tree of a text is not deep. -/
theorem depth_parse (s : Text) : (parse s).tree.toTree.depth ≤ 771 := by
  have hfile := forestDepth_fileOutcome s
  rw [← Tree.forestMost_true] at hfile
  rw [parse_tree, Node.toTree, ← Tree.most_true, Tree.most, Tree.forestMost_append,
    ← Tree.forestMap_eq, Tree.forestMost_forestMap, Tree.forestMost_singleton, Tree.most]
  simp only [if_true]
  omega

theorem blocks_parse (s : Text) : (parse s).tree.toTree.most NodeKind.isBlock ≤ 256 := by
  have hfile := (runs_fileOutcome s).forestMost_isBlock_le
  rw [parse_tree, Node.toTree, Tree.most, Tree.forestMost_append, ← Tree.forestMap_eq,
    Tree.forestMost_forestMap, Tree.forestMost_singleton, Tree.most]
  simp only [NodeKind.isBlock, Bool.false_eq_true, if_false]
  exact Nat.max_le.2 ⟨hfile, Nat.zero_le _⟩

/-- The nodes of some kinds on the way down to a node, the node included. -/
theorem countP_above_le {s : Text} {n : NodeRef} (hn : n ∈ nodesOf s) (p : NodeKind → Bool) :
    (n.toSite :: n.above).countP (p ·.kind) ≤ (parse s).tree.toTree.most p := by
  obtain ⟨frames, hin⟩ := NodeRef.exists_in_of_mem_descendants hn
  have hmost := Tree.countP_add_most_le p frames (.node n.kind n.children)
  rw [← hin.tree, Tree.most] at hmost
  have habove := congrArg (List.countP p) hin.above
  rw [List.countP_map, List.countP_reverse, List.countP_map] at habove
  rw [List.countP_cons, show n.above.countP (p ·.kind) = frames.countP (p ·.kind) from habove]
  omega

/-! ## Blocks without room -/

/-- A block for which there is no room, kept as the raw tokens of an error node. -/
structure KeptRaw (s : Text) (n : NodeRef) : Prop where
  kind : n.kind = .error
  /-- It has tokens alone. -/
  nodes : n.nodes = []
  /-- It stands in as many blocks as there can be. -/
  blocks : n.above.countP (·.kind.isBlock) = 256
  /-- Its tokens stand in a row in the text, from a `{` up to the `}` that a stack finds as its
  partner, or up to the end where the `{` is left open. -/
  group : ∃ before group after l, (tokenize s).tokens = before ++ group ++ after ∧
    n.tokens.map TokenRef.placed = group.map PlacedToken.faultless ∧ group.head? = some l ∧
    Lexical.kind l = .leftBrace ∧
    ((∃ r, group.getLast? = some r ∧ (l, r) ∈ (matchBraces (tokenize s).tokens).pairs) ∨
      after = [] ∧ l ∈ (matchBraces (tokenize s).tokens).opened)

/-- Raw tokens are no nodes. -/
theorem nodes_of_areRaw {n : NodeRef} (h : Tree.areRaw n.children = true) : n.nodes = [] := by
  obtain ⟨l, us, hchildren, -⟩ := Tree.exists_of_areRaw h
  refine List.eq_nil_iff_forall_not_mem.2 fun m hm => ?_
  have hnode := NodeRef.node_mem_children hm
  rw [hchildren] at hnode
  obtain ⟨t, -, ht⟩ := List.mem_map.1 hnode
  cases ht

/-- **An error node of raw tokens is a block for which there is no room, as a whole.** -/
theorem keptRaw_of_isDeep {s : Text} {n : NodeRef} (hn : n ∈ nodesOf s) (hdeep : n.isDeep = true) :
    KeptRaw s n := by
  obtain ⟨hkind, hraw⟩ := Bool.and_eq_true_iff.1 hdeep
  have hkind : n.kind = .error := beq_iff_eq.1 hkind
  obtain ⟨before, frames, after, children, htrees, hstands, habove⟩ :=
    exists_standsFor_in hn (by rw [hkind]; decide)
  have hraw' : Tree.areRaw children = true := by
    rw [hstands.children] at hraw
    rwa [Tree.areRaw_map (f := PlacedToken.token) fun _ => rfl] at hraw
  rw [hkind] at htrees
  obtain ⟨hroom, t, ts, hrest, ht, hgroup⟩ :=
    (runs_fileOutcome s).exists_rawGroup Rule.nodesIn_file htrees hraw'
  have hplaces := congrArg Prod.snd hstands.places_eq
  rw [NodeRef.places, Node.places, Node.row, hgroup, Tree.row_leaves] at hplaces
  refine ⟨hkind, nodes_of_areRaw hraw, ?_, Tree.lead before frames,
    (t :: ts).take (groupLength 0 (t :: ts)), (t :: ts).drop (groupLength 0 (t :: ts)), t, ?_,
    hplaces, ?_, ht, ?_⟩
  · have hcount := congrArg (List.countP NodeKind.isBlock) habove
    rw [List.countP_map, List.countP_append, List.countP_reverse, List.countP_map] at hcount
    exact hcount.trans hroom.symm
  · rw [List.append_assoc, List.take_append_drop]
    exact hrest
  · rw [groupLength_leftBrace ht]
    rfl
  · rw [hrest]
    exact partner_of_group _ ht ts

/-- **A `{` of a text is that of a block or a script, or stands in a block for which there is no
room.** -/
theorem holder_of_leftBrace {s : Text} {t : TokenRef} (ht : t ∈ tokensOf s)
    (hkind : t.token.kind = .leftBrace) :
    t.parent.kind.isBraced = true ∧ t.parent.token? .leftBrace = some t ∨
      t.parent.isDeep = true := by
  obtain ⟨hparent, hmem⟩ := NodeRef.parent_mem_descendants ht
  have hadmits := (shaped_parse s).admits hparent
  have hkinds := t.parent.map_token_kind
  cases NodeKind.hasBraces hadmits with
  | braced hbraced =>
    have hbrace := NodeRef.token?_of_brace hadmits hbraced hmem (by rw [hkind]; rfl)
    exact .inl ⟨hbraced, hkind ▸ hbrace⟩
  | deep herror hsymbols hrest =>
    refine .inr ?_
    rw [NodeRef.isDeep, herror, Tree.areRaw_of_symbols hsymbols hrest]
    rfl
  | stray _ hsymbols =>
    rw [hsymbols] at hkinds
    obtain ⟨u, hu, hright⟩ := List.map_eq_singleton_iff.1 hkinds
    rw [hu, List.mem_singleton] at hmem
    rw [hmem, hright] at hkind
    cases hkind
  | none _ hbraces =>
    rw [Symbol.braces, ← hkinds, List.filter_eq_nil_iff] at hbraces
    exact absurd (by rw [hkind]; rfl) (hbraces _ (List.mem_map_of_mem hmem))

/-! ## All bounds -/

/-- The nesting of a text and of its tree is bounded. -/
structure NestingBounded (s : Text) : Prop where
  /-- The blocks on the way down to a node, the node included. -/
  blocks : ∀ n ∈ nodesOf s, (n.toSite :: n.above).countP (·.kind.isBlock) ≤ 256
  /-- All nodes on the way down to a node, the node included. -/
  nodes : ∀ n ∈ nodesOf s, (n.toSite :: n.above).length ≤ 1 + 3 * 256 + 3
  /-- The parser does with 256 calls for blocks inside each other, and never has more nodes begun and
  not completed than can stand on a way down. -/
  parser : ∃ m, Machine.drive id 256 .file (Machine.new (tokenize s).tokens).start = .ok m ∧
    m.rest = [] ∧ (∀ noted more, m.events = noted ++ more →
      noted.countP ParseEvent.isStart ≤ noted.countP ParseEvent.isFinish + 772) ∧
    -- so it does however marks are stored, unless it loses one
    ∀ store, Machine.drive store 256 .file (Machine.new (tokenize s).tokens).start
        = .error .lostMark ∨
      ∃ n, Machine.drive store 256 .file (Machine.new (tokenize s).tokens).start = .ok n ∧ n.Like m
  /-- Functions that recurse on the tree do so to this depth. -/
  tree : (parse s).tree.toTree.depth ≤ 772
  /-- A visitor does with so many calls inside each other. -/
  visits : ∀ {σ : Type} (v : Visitor σ) (state : σ),
    v.visitWithin (NodeRef.root (parse s).tree) 772 state
      = some (v.visit (NodeRef.root (parse s).tree) state)
  /-- A walk step by step, however it is made, never has more nodes entered at once. -/
  walks : ∀ w, (Walker.start (NodeRef.root (parse s).tree)).Reaches w → w.entered.length ≤ 772
  /-- Each `{` is that of a block or a script, or one of the raw tokens of a block for which there is
  no room. -/
  braces : ∀ t ∈ tokensOf s, t.token.kind = .leftBrace →
    t.parent.kind.isBraced = true ∧ t.parent.token? .leftBrace = some t ∨ t.parent.isDeep = true
  /-- A block for which there is no room is kept as a whole. -/
  raw : ∀ n ∈ nodesOf s, n.isDeep = true → KeptRaw s n

/-- **However deep the braces of a text are nested, its tree, and the recursion on it, is not.** -/
theorem nestingBounded (s : Text) : NestingBounded s := by
  have hdepth := depth_parse s
  have hblocks := blocks_parse s
  have hnodes : ∀ n ∈ nodesOf s, (n.toSite :: n.above).length ≤ 771 := by
    intro n hn
    have hcount := countP_above_le hn fun _ => true
    rw [Tree.most_true, List.countP_true] at hcount
    omega
  constructor
  case blocks => exact fun n hn => Nat.le_trans (countP_above_le hn _) hblocks
  case nodes => exact fun n hn => Nat.le_trans (hnodes n hn) (by decide)
  case parser =>
    have hord := Machine.ordered_tokenize s
    have hbefore : (Machine.new (tokenize s).tokens).start.Before .origin (tokenize s).tokens :=
      ⟨rfl, rfl⟩
    refine ⟨_, Machine.driveWith_eq (runs_fileOutcome s) hbefore rfl hord, rest_fileOutcome s,
      fun noted more hevents => ?_, fun store => ?_⟩
    case refine_2 =>
      have hreaches : Machine.Reaches store _ _ (Machine.drive store 256 .file _) :=
        Machine.reaches_driveWith (runs_fileOutcome s) hbefore rfl (Nat.le_refl _) hord.inOrder
      exact hreaches.like.imp id fun ⟨n, hn, hlike, _⟩ => ⟨n, hn, hlike⟩
    have hfile := forestDepth_fileOutcome s
    cases noted with
    | nil => exact Nat.zero_le _
    | cons e noted =>
      obtain ⟨rfl, hrest⟩ := List.cons.inj hevents
      have hcount := Tree.countP_prefix_forestSteps _ hrest.symm
      rw [List.countP_cons, List.countP_cons]
      simp only [ParseEvent.isStart, if_true]
      omega
  case tree => exact Nat.le_succ_of_le hdepth
  case visits =>
    intro σ v state
    refine v.visitWithin_eq ?_ state
    exact Nat.lt_of_lt_of_le (Nat.lt_succ_self _) (Nat.le_succ_of_le hdepth)
  case walks =>
    intro w hw
    refine hw.length_entered_le fun n hn => ?_
    have hlength := hnodes n hn
    rw [List.length_cons] at hlength
    omega
  case braces => exact fun t ht hkind => holder_of_leftBrace ht hkind
  case raw => exact fun n hn hdeep => keptRaw_of_isDeep hn hdeep

end NginxConf
