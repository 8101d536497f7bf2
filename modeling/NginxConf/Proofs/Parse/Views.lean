import NginxConf.Proofs.Grammar.Whole
import NginxConf.Proofs.Parse.Braces
import NginxConf.Proofs.Parse.Clean
import NginxConf.Proofs.Tree.Heads

/-!
# What typed views say in a text without errors

A view picks among the children of a node by their kinds and their order, so what it finds depends on
what else may stand there. In a whole node nothing is missing and nothing stands there that has no
place, and every view finds all that it is made for (`View.IsComplete`). Every node of a text without
errors is whole (`isWhole_nodesOf`), and so its view is complete (`views_complete`).
-/

namespace NginxConf

open RegularExpression Pattern

/-! ## Complete views -/

/-- Both braces are there. -/
structure BracesView.IsComplete (v : BracesView) : Prop where
  left : v.left.isSome
  right : v.right.isSome

/-- There is a name, and either a block or a semicolon, but not both. -/
structure DirectiveView.IsComplete (v : DirectiveView) : Prop where
  name : v.name.isSome
  ending : v.block.isSome = !v.semicolon.isSome

/-- There are both parentheses, a condition between them, and a block. -/
structure IfView.IsComplete (v : IfView) : Prop where
  leftParen : v.leftParen.isSome
  rightParen : v.rightParen.isSome
  block : v.block.isSome
  conditions : v.conditions ≠ []

/-- The operands and the operator are all tokens of the node. -/
structure ConditionView.IsComplete (n : NodeRef) (v : ConditionView) : Prop where
  right : v.right.isSome = v.operator.isSome
  /-- It is not made of a right operand alone. -/
  beginning : v.left.isSome ∨ v.operator.isSome
  tokens : v.left.toList ++ v.operator.toList ++ v.right.toList = n.tokens

structure SetView.IsComplete (v : SetView) : Prop where
  name : v.name.isSome
  value : v.value.isSome

/-- There is a variable, and there is an address if two values stand before the block. -/
structure GeoView.IsComplete (n : NodeRef) (v : GeoView) : Prop where
  receiver : v.receiver.isSome
  block : ∃ before block after, n.elements = before ++ .node block :: after ∧
    v.block = some block ∧
    (v.address.isSome ↔
      ((before.filterMap ElementRef.token?).filter (·.token.kind.isValue)).length = 2)

/-- Each entry has its operand, where it takes one. -/
def GeoEntryView.IsComplete : GeoEntryView → Prop
  | .default operand | .delete operand | .inclusion operand => operand.isSome
  | .proxy address recursive => recursive = address.isNone
  | .ranges => True
  | .value network operand => network.isSome ∧ operand.isSome

/-- There are both braces, and only `set_by_lua_block` has an argument. -/
structure ScriptView.IsComplete (n : NodeRef) (v : ScriptView) : Prop where
  braces : v.braces.IsComplete
  args : v.args.length = if n.kind = .setLua then 1 else 0

/-- The view has found all that it is made for in its node. -/
def View.IsComplete (n : NodeRef) : View → Prop
  | sourceFile statements errors => statements.map Statement.node = n.nodes ∧ errors = []
  | block statements braces => statements.map Statement.node = n.nodes ∧ braces.IsComplete
  | directive view => view.IsComplete
  | ifStatement view => view.IsComplete
  | condition view => view.IsComplete n
  | setStatement view => view.IsComplete
  | includeStatement path => path.isSome
  | geoStatement view => view.IsComplete n
  | geoBlock items braces => items = n.nodes ∧ braces.IsComplete
  | geoItem entry => entry.isSome
  | geoEntry view => view.IsComplete
  | script view => view.IsComplete n

/-! ## What can be seen of the children -/

namespace Symbol

/-- The values among some symbols. -/
def values (w : List Symbol) : List TokenKind := (w.filterMap token?).filter TokenKind.isValue

variable {w : List Symbol} {kind : TokenKind}

theorem values_cons_value (h : kind.isValue = true) : values (.token kind :: w) = kind :: values w :=
  List.filter_cons_of_pos h

theorem values_cons_other (h : kind.isValue = false) : values (.token kind :: w) = values w :=
  List.filter_cons_of_neg (by simp [h])

end Symbol

/-- What a pattern sees of a child. -/
def ElementRef.symbol : ElementRef → Symbol
  | node m => (Tree.node m.kind m.children).symbol
  | token t => .token t.token.kind

theorem ElementRef.exists_node {e : ElementRef} {kind : NodeKind} (h : e.symbol = .node kind) :
    ∃ m, e = node m ∧ m.kind = kind := by
  cases e with
  | token t => cases h
  | node m =>
    obtain ⟨children, hnode⟩ := Tree.exists_node_of_symbol (t := .node m.kind m.children) h
    exact ⟨m, rfl, (Tree.node.inj hnode).1⟩

namespace NodeRef

variable {n : NodeRef}

theorem map_symbol_elements (n : NodeRef) :
    n.elements.map ElementRef.symbol = n.children.map Tree.symbol := by
  have h (position start : Nat) (ts : List (Tree Token)) :
      (n.placeAll position start ts).map ElementRef.symbol = ts.map Tree.symbol := by
    induction ts generalizing position start with
    | nil => rfl
    | cons t ts ih =>
      rw [placeAll, List.map_cons, List.map_cons, ih]
      cases t <;> rfl
  exact h _ _ _

theorem mem_nodes {m : NodeRef} : m ∈ n.nodes ↔ .node m ∈ n.elements := by
  rw [nodes, List.mem_filterMap]
  constructor
  · rintro ⟨e, he, hm⟩
    cases e with
    | token => cases hm
    | node =>
      cases hm
      exact he
  · exact fun h => ⟨_, h, rfl⟩

/-- A child token of a kind is found if there is one. -/
theorem isSome_token? {kind : TokenKind} :
    (n.token? kind).isSome = true ↔ .token kind ∈ n.children.map Tree.symbol := by
  have hkinds : kind ∈ n.tokens.map (·.token.kind) ↔ .token kind ∈ n.children.map Tree.symbol := by
    rw [map_token_kind, List.mem_filterMap]
    constructor
    · rintro ⟨s, hs, hkind⟩
      cases s <;> cases hkind
      exact hs
    · exact fun h => ⟨_, h, rfl⟩
  rw [← hkinds, token?, List.find?_isSome, List.mem_map]
  simp

/-- Error nodes apart, child nodes of a kind are found if there are any. -/
theorem nodesOfKind_ne_nil {kind : NodeKind} (hkind : kind ≠ .error) :
    n.nodesOfKind kind ≠ [] ↔ .node kind ∈ n.children.map Tree.symbol := by
  rw [nodesOfKind, ← map_symbol_elements, List.mem_map]
  constructor
  · intro hne
    obtain ⟨m, hm⟩ := List.exists_mem_of_ne_nil _ hne
    obtain ⟨hmem, hk⟩ := List.mem_filter.1 hm
    rw [← beq_iff_eq.1 hk] at hkind ⊢
    exact ⟨.node m, mem_nodes.1 hmem, if_neg fun h => hkind h.1⟩
  · rintro ⟨e, he, hsymbol⟩
    obtain ⟨m, rfl, rfl⟩ := ElementRef.exists_node hsymbol
    exact List.ne_nil_of_mem (List.mem_filter.2 ⟨mem_nodes.2 he, beq_self_eq_true m.kind⟩)

theorem isSome_node? {kind : NodeKind} (hkind : kind ≠ .error) :
    (n.node? kind).isSome = true ↔ .node kind ∈ n.children.map Tree.symbol := by
  rw [node?, List.isSome_head?, nodesOfKind_ne_nil hkind]

/-- The values of a node can be seen from its symbols. -/
theorem length_values (n : NodeRef) :
    n.values.length = (Symbol.values (n.children.map Tree.symbol)).length := by
  rw [Symbol.values, ← map_token_kind, List.filter_map, List.length_map]
  rfl

/-- A child node is seen as what it is, or as a block that is nested too deep. -/
theorem symbol_of_mem_nodes {m : NodeRef} (hm : m ∈ n.nodes) :
    .node m.kind ∈ n.children.map Tree.symbol ∨ .deep ∈ n.children.map Tree.symbol := by
  have hsymbol : (Tree.node m.kind m.children).symbol ∈ n.children.map Tree.symbol := by
    rw [← map_symbol_elements]
    exact List.mem_map_of_mem (f := ElementRef.symbol) (mem_nodes.1 hm)
  rw [Tree.symbol] at hsymbol
  split at hsymbol
  · exact .inr hsymbol
  · exact .inl hsymbol

/-- The kinds of the child nodes are those that are written in a pattern. -/
theorem forall_mem_nodes {P : Pattern} {p : NodeKind → Bool}
    (h : n.children.map Tree.symbol ∈ P.matches')
    (hP : ∀ s ∈ P.atoms, s ≠ .deep ∧ s.node?.all p = true) : ∀ m ∈ n.nodes, p m.kind = true := by
  intro m hm
  rcases symbol_of_mem_nodes hm with hs | hs
  · exact (hP _ (mem_atoms h _ hs)).2
  · exact absurd rfl (hP _ (mem_atoms h _ hs)).1

/-- Child nodes that are all statements are all found as statements. -/
theorem map_node_statements (h : ∀ m ∈ n.nodes, m.kind.isStatement = true) :
    n.statements.map Statement.node = n.nodes := by
  rw [statements, List.map_filterMap]
  refine (List.filterMap_congr fun m hm => ?_).trans List.filterMap_some
  obtain ⟨sort, hsort⟩ := Option.isSome_iff_exists.1
    ((StatementSort.isSome_ofKind? m.kind).trans (h m hm))
  rw [statement?, hsort]
  rfl

/-! ## Views of whole nodes -/

/-- Both braces are found if they are there. -/
theorem bracesView_isComplete (hl : .token .leftBrace ∈ n.children.map Tree.symbol)
    (hr : .token .rightBrace ∈ n.children.map Tree.symbol) : n.bracesView.IsComplete :=
  ⟨isSome_token?.2 hl, isSome_token?.2 hr⟩

variable {keyword : String}

theorem directiveView_isComplete
    (h : n.children.map Tree.symbol ∈ (NodeKind.directive.wholePattern keyword).matches') :
    n.directiveView.IsComplete := by
  obtain ⟨u, hu, v, hv, hsymbols⟩ := Language.mem_mul.1 h
  obtain ⟨s, hs, rfl⟩ := mem_oneOf.1 hv
  -- the name and the arguments are neither a block nor a semicolon
  have hother : .token .semicolon ∉ u ∧ .node .block ∉ u := by
    have hatoms := mem_atoms hu
    exact ⟨fun h => absurd (hatoms _ h) (by decide), fun h => absurd (hatoms _ h) (by decide)⟩
  obtain ⟨kind, hkind, args, hargs, rfl⟩ := mem_value_mul.1 hu
  refine ⟨?_, ?_⟩
  · rw [directiveView, List.isSome_head?, ← List.length_pos_iff, length_values, ← hsymbols,
      List.cons_append, Symbol.values_cons_value hkind]
    exact Nat.succ_pos _
  · have hblock : n.directiveView.block.isSome = true ↔ s = .node .block := by
      rw [directiveView, isSome_node? (by decide), ← hsymbols, List.mem_append, List.mem_singleton]
      simp [hother.2, eq_comm]
    have hsemicolon : n.directiveView.semicolon.isSome = true ↔ s = .token .semicolon := by
      rw [directiveView, isSome_token?, ← hsymbols, List.mem_append, List.mem_singleton]
      simp [hother.1, eq_comm]
    rcases List.mem_pair.1 hs with rfl | rfl
    · have hnone : n.directiveView.block.isSome = false :=
        Bool.eq_false_iff.2 fun h => by cases hblock.1 h
      rw [hnone, hsemicolon.2 rfl]
      rfl
    · have hnone : n.directiveView.semicolon.isSome = false :=
        Bool.eq_false_iff.2 fun h => by cases hsemicolon.1 h
      rw [hnone, hblock.2 rfl]
      rfl

theorem ifView_isComplete
    (h : n.children.map Tree.symbol ∈ (NodeKind.ifStatement.wholePattern keyword).matches') :
    n.ifView.IsComplete := by
  obtain ⟨w, hw, hsymbols⟩ := mem_token_mul.1 h
  obtain ⟨inner, hinner, rfl⟩ := mem_token_mul.1 hw
  obtain ⟨u, hu, v, hv, rfl⟩ := Language.mem_mul.1 hinner
  obtain ⟨s, hs, more, -, rfl⟩ := mem_oneOf_mul.1 hu
  obtain ⟨block, hblock, rfl⟩ := mem_token_mul.1 hv
  obtain ⟨b, hb, rfl⟩ := mem_oneOf.1 hblock
  rw [List.mem_singleton.1 hs, List.mem_singleton.1 hb] at hsymbols
  refine ⟨isSome_token?.2 ?_, isSome_token?.2 ?_, (isSome_node? (by decide)).2 ?_,
    (nodesOfKind_ne_nil (by decide)).2 ?_⟩ <;> simp [hsymbols]

/-- The kinds of the tokens of a condition. -/
theorem map_kind_condition
    (h : n.children.map Tree.symbol ∈ (NodeKind.condition.wholePattern keyword).matches') :
    (∃ right, n.tokens.map (·.token.kind) = [.operator, right]) ∨
      ∃ left : TokenKind, left.isValue = true ∧ (n.tokens.map (·.token.kind) = [left] ∨
        ∃ right, n.tokens.map (·.token.kind) = [left, .operator, right]) := by
  rw [map_token_kind]
  rcases h with h | h
  · obtain ⟨v, hv, hsymbols⟩ := mem_token_mul.1 h
    obtain ⟨right, -, rfl⟩ := mem_value.1 hv
    exact .inl ⟨right, by rw [hsymbols]; rfl⟩
  · obtain ⟨left, hleft, v, hv, hsymbols⟩ := mem_value_mul.1 h
    refine .inr ⟨left, hleft, ?_⟩
    rcases mem_optional.1 hv with hv | rfl
    · obtain ⟨w, hw, rfl⟩ := mem_token_mul.1 hv
      obtain ⟨right, -, rfl⟩ := mem_value.1 hw
      exact .inr ⟨right, by rw [hsymbols]; rfl⟩
    · exact .inl (by rw [hsymbols]; rfl)

theorem conditionView_isComplete
    (h : n.children.map Tree.symbol ∈ (NodeKind.condition.wholePattern keyword).matches') :
    n.conditionView.IsComplete n := by
  have hoperator : TokenKind.operator.isValue = false := rfl
  rcases map_kind_condition h with ⟨right, hkinds⟩ | ⟨left, hleft, hkinds | ⟨right, hkinds⟩⟩
  · obtain ⟨o, _, htokens, ho, hmore⟩ := List.map_eq_cons_iff.1 hkinds
    obtain ⟨r, rfl, -⟩ := List.map_eq_singleton_iff.1 hmore
    constructor <;> simp [conditionView, token?, htokens, ho, hoperator]
  · have hne : left ≠ .operator := fun hk => by rw [hk] at hleft; cases hleft
    obtain ⟨l, htokens, hl⟩ := List.map_eq_singleton_iff.1 hkinds
    constructor <;> simp [conditionView, token?, htokens, hl, hne, hleft]
  · have hne : left ≠ .operator := fun hk => by rw [hk] at hleft; cases hleft
    obtain ⟨l, _, htokens, hl, hmore⟩ := List.map_eq_cons_iff.1 hkinds
    obtain ⟨o, _, rfl, ho, hlast⟩ := List.map_eq_cons_iff.1 hmore
    obtain ⟨r, rfl, -⟩ := List.map_eq_singleton_iff.1 hlast
    constructor <;> simp [conditionView, token?, htokens, hl, hne, hleft, ho, Option.filter_some]

theorem setView_isComplete
    (h : n.children.map Tree.symbol ∈ (NodeKind.setStatement.wholePattern keyword).matches') :
    n.setView.IsComplete := by
  obtain ⟨w, hw, hsymbols⟩ := mem_token_mul.1 h
  obtain ⟨u, hu, v, hv, rfl⟩ := Language.mem_mul.1 hw
  obtain ⟨name, hname, z, hz, rfl⟩ := (mem_tokens_mul rfl).1 hu
  obtain ⟨value, hvalue, rfl⟩ := mem_value.1 hz
  have hname : name.isValue = true := by
    rcases Bool.or_eq_true_iff.1 hname with hk | hk <;> rw [beq_iff_eq.1 hk] <;> rfl
  obtain rfl := mem_token.1 hv
  have hlength : n.values.length = 2 := by
    rw [length_values, hsymbols, Symbol.values_cons_other rfl, List.cons_append,
      Symbol.values_cons_value hname, List.singleton_append, Symbol.values_cons_value hvalue]
    rfl
  constructor <;> simp [setView, hlength]

theorem includePath_isSome
    (h : n.children.map Tree.symbol ∈ (NodeKind.includeStatement.wholePattern keyword).matches') :
    n.includePath.isSome = true := by
  obtain ⟨w, hw, hsymbols⟩ := mem_token_mul.1 h
  obtain ⟨path, hpath, v, hv, rfl⟩ := mem_value_mul.1 hw
  rw [includePath, List.isSome_head?, ← List.length_pos_iff, length_values, hsymbols,
    Symbol.values_cons_other rfl, Symbol.values_cons_value hpath]
  exact Nat.succ_pos _

/-- There is one value in a whole geo statement, or there are two. -/
theorem length_values_geo {u : List Symbol}
    (hu : u ∈ (inOrder [value, optional value]).matches')
    (h : n.children.map Tree.symbol = .token .geoKeyword :: (u ++ [.node .geoBlock])) :
    n.values.length = 1 ∨ n.values.length = 2 := by
  obtain ⟨first, hfirst, more, hmore, rfl⟩ := mem_value_mul.1 hu
  rw [length_values, h, Symbol.values_cons_other rfl, List.cons_append,
    Symbol.values_cons_value hfirst]
  rcases mem_optional.1 hmore with hmore | rfl
  · obtain ⟨second, hsecond, rfl⟩ := mem_value.1 hmore
    rw [List.singleton_append, Symbol.values_cons_value hsecond]
    exact .inr rfl
  · exact .inl rfl

/-- The block of a whole geo statement stands behind all of its tokens. -/
theorem exists_elements_geo {u : List Symbol}
    (hu : u ∈ (inOrder [value, optional value]).matches')
    (h : n.children.map Tree.symbol = .token .geoKeyword :: (u ++ [.node .geoBlock])) :
    ∃ before block, n.elements = before ++ [.node block] ∧ block.kind = .geoBlock ∧
      n.nodes = [block] ∧ n.tokens = before.filterMap ElementRef.token? := by
  rw [← map_symbol_elements, ← List.cons_append] at h
  obtain ⟨before, last, helements, hbefore, hlast⟩ := List.map_eq_append_iff.1 h
  obtain ⟨e, rfl, he⟩ := List.map_eq_singleton_iff.1 hlast
  obtain ⟨block, rfl, hblock⟩ := ElementRef.exists_node he
  have hatoms : ∀ s ∈ (inOrder [value, optional value]).atoms, s.token?.isSome = true := by decide
  have htokens : before.filterMap ElementRef.node? = [] := by
    refine List.filterMap_eq_nil_iff.2 fun e he => ?_
    cases e with
    | token => rfl
    | node m =>
      have hsymbol : (Tree.node m.kind m.children).symbol ∈ .token .geoKeyword :: u :=
        hbefore ▸ List.mem_map_of_mem (f := ElementRef.symbol) he
      have hsome : (Tree.node m.kind m.children).symbol.token?.isSome = true := by
        rcases List.mem_cons.1 hsymbol with hs | hs
        · rw [hs]
          rfl
        · exact hatoms _ (mem_atoms hu _ hs)
      rw [Tree.token?_symbol_node] at hsome
      cases hsome
  refine ⟨before, block, helements, hblock, ?_, ?_⟩
  · rw [nodes_eq, ← elements, helements, List.filterMap_append, htokens]
    rfl
  · rw [tokens_eq, ← elements, helements, List.filterMap_append]
    exact List.append_nil _

theorem geoView_isComplete
    (h : n.children.map Tree.symbol ∈ (NodeKind.geoStatement.wholePattern keyword).matches') :
    n.geoView.IsComplete n := by
  obtain ⟨w, hw, hsymbols⟩ := mem_token_mul.1 h
  obtain ⟨u, hu, v, hv, rfl⟩ := Language.mem_mul.1 hw
  obtain ⟨s, hs, rfl⟩ := mem_oneOf.1 hv
  obtain rfl := List.mem_singleton.1 hs
  obtain ⟨before, block, helements, hblock, hnodes, htokens⟩ := exists_elements_geo hu hsymbols
  have hlength := length_values_geo hu hsymbols
  have hne : n.values ≠ [] := by
    rintro hnil
    rw [hnil] at hlength
    cases hlength <;> contradiction
  refine ⟨?_, before, block, [], helements, ?_, ?_⟩
  · simp [geoView, hne]
  · simp [geoView, node?, nodesOfKind, hnodes, hblock]
  · rw [← htokens, ← values, geoView]
    rcases hlength with hlength | hlength <;> simp [hlength, hne]

/-- An entry of a geo block is found in its node. -/
theorem geoEntry_isSome
    (h : n.children.map Tree.symbol ∈ (NodeKind.geoItem.wholePattern keyword).matches') :
    n.geoEntry?.isSome = true := by
  obtain ⟨s, hs, v, -, hsymbols⟩ := mem_oneOf_mul.1 h
  obtain ⟨kind, -, rfl⟩ := List.mem_map.1 hs
  have hkind : kind.isGeoEntry = true := by
    cases kind <;> first | rfl | exact absurd hs (by decide)
  have hnode : n.nodesOfKind kind ≠ [] :=
    (nodesOfKind_ne_nil (by rintro rfl; cases hkind)).2 (by rw [hsymbols]; exact List.mem_cons_self)
  obtain ⟨m, hm⟩ := List.exists_mem_of_ne_nil _ hnode
  obtain ⟨hmem, hk⟩ := List.mem_filter.1 hm
  unfold geoEntry?
  rw [List.find?_isSome]
  exact ⟨m, hmem, by rw [beq_iff_eq.1 hk, hkind]⟩

/-! ## Entries of a geo block -/

/-- The values of a word or a keyword with its operand. -/
theorem length_values_operand {kind : TokenKind}
    (h : n.children.map Tree.symbol ∈ (wholeOperand kind).matches') :
    n.values.length = if kind.isValue then 2 else 1 := by
  obtain ⟨v, hv, hsymbols⟩ := mem_token_mul.1 h
  obtain ⟨operand, hoperand, rfl⟩ := mem_value.1 hv
  rw [length_values, hsymbols]
  split
  · next hkind =>
    rw [Symbol.values_cons_value hkind, Symbol.values_cons_value hoperand]
    rfl
  · next hkind =>
    rw [Symbol.values_cons_other (Bool.eq_false_iff.2 hkind), Symbol.values_cons_value hoperand]
    rfl

/-- The word that a node begins with is its first value. -/
theorem exists_head_values {w : List Symbol} (h : n.children.map Tree.symbol = .token .word :: w) :
    ∃ t, n.values.head? = some t ∧
      ∀ word ≠ "", Tree.keyword n.children = word ↔ t.token.text = word.toList := by
  obtain ⟨child, ts, hchildren, hchild, -⟩ := List.map_eq_cons_iff.1 h
  obtain ⟨a, rfl, ha⟩ := Tree.exists_leaf_of_symbol hchild
  have htokens := n.map_token_tokens
  rw [hchildren, Tree.row] at htokens
  obtain ⟨t, more, hrow, rfl, -⟩ := List.map_eq_cons_iff.1 htokens
  have hword : t.token.kind = .word := ha
  refine ⟨t, ?_, fun word hne => ?_⟩
  · rw [values, hrow, List.filter_cons_of_pos (by rw [hword]; rfl), List.head?_cons]
  · rw [hchildren]
    exact (Rule.geoKeyword_eq hne).trans (and_iff_right ha)

/-- Only `proxy_recursive` has no address. -/
theorem proxy_isComplete
    (h : n.children.map Tree.symbol
      ∈ (NodeKind.geoProxy.wholePattern (Tree.keyword n.children)).matches') :
    (n.values.head?.any fun t => t.token.text == "proxy_recursive".toList)
      = n.values[1]?.isNone := by
  rw [NodeKind.wholePattern] at h
  split at h
  · next hkeyword =>
    have hsymbols := mem_token.1 h
    obtain ⟨t, hhead, htext⟩ := exists_head_values hsymbols
    have hlength : n.values.length = 1 := by
      rw [length_values, hsymbols]
      rfl
    rw [hhead, Option.any_some, (htext _ (by decide)).1 hkeyword]
    simp [hlength]
  · next hkeyword =>
    obtain ⟨w, hw, hsymbols⟩ := mem_token_mul.1 h
    obtain ⟨t, hhead, htext⟩ := exists_head_values hsymbols
    have hlength : n.values.length = 2 := length_values_operand h
    rw [hhead, Option.any_some, beq_false_of_ne fun h => hkeyword ((htext _ (by decide)).2 h)]
    simp [hlength]

/-! ## Scripts -/

theorem wholeScript_braces {w : List Symbol} (h : w ∈ wholeScript.matches') :
    .token .leftBrace ∈ w ∧ .token .rightBrace ∈ w ∧ Symbol.values w = [] := by
  obtain ⟨v, hv, rfl⟩ := mem_token_mul.1 h
  obtain ⟨code, hcode, r, hr, rfl⟩ := Language.mem_mul.1 hv
  obtain rfl := mem_token.1 hr
  refine ⟨List.mem_cons_self, by simp, ?_⟩
  rcases mem_optional_token.1 hcode with rfl | rfl <;> rfl

theorem scriptView_isComplete (hlua : n.kind.isLua = true)
    (h : n.children.map Tree.symbol ∈ (n.kind.wholePattern keyword).matches') :
    n.scriptView.IsComplete n := by
  rw [Rule.wholePattern_of_isLua hlua] at h
  split at h
  · next hk =>
    obtain ⟨w, hw, hsymbols⟩ := mem_token_mul.1 h
    obtain ⟨arg, harg, script, hscript, rfl⟩ := mem_value_mul.1 hw
    obtain ⟨hl, hr, hvalues⟩ := wholeScript_braces hscript
    refine ⟨bracesView_isComplete (by simp [hsymbols, hl]) (by simp [hsymbols, hr]), ?_⟩
    rw [if_pos hk, scriptView, length_values, hsymbols, Symbol.values_cons_other rfl,
      Symbol.values_cons_value harg, hvalues]
    rfl
  · next hk =>
    obtain ⟨script, hscript, hsymbols⟩ := mem_token_mul.1 h
    obtain ⟨hl, hr, hvalues⟩ := wholeScript_braces hscript
    refine ⟨bracesView_isComplete (by simp [hsymbols, hl]) (by simp [hsymbols, hr]), ?_⟩
    rw [if_neg hk, scriptView, length_values, hsymbols, Symbol.values_cons_other rfl, hvalues]
    rfl

/-! ## Blocks and files -/

theorem wholeBraces_isComplete {P : Pattern}
    (h : n.children.map Tree.symbol ∈ (wholeBraces P).matches') : n.bracesView.IsComplete := by
  obtain ⟨w, hw, hsymbols⟩ := mem_token_mul.1 h
  obtain ⟨items, -, r, hr, rfl⟩ := Language.mem_mul.1 hw
  obtain rfl := mem_token.1 hr
  exact bracesView_isComplete (by simp [hsymbols]) (by simp [hsymbols])

theorem block_isComplete
    (h : n.children.map Tree.symbol ∈ (NodeKind.block.wholePattern keyword).matches') :
    n.statements.map Statement.node = n.nodes ∧ n.bracesView.IsComplete := by
  have hstatements : ∀ m ∈ n.nodes, m.kind.isStatement = true :=
    forall_mem_nodes (P := wholeBraces (oneOf Symbol.statements)) h (by decide)
  exact ⟨map_node_statements hstatements, wholeBraces_isComplete h⟩

theorem sourceFile_isComplete
    (h : n.children.map Tree.symbol ∈ (NodeKind.sourceFile.wholePattern keyword).matches') :
    n.statements.map Statement.node = n.nodes ∧ n.nodesOfKind .error = [] := by
  have hstatements : ∀ m ∈ n.nodes, m.kind.isStatement = true :=
    forall_mem_nodes (P := inOrder [repeated (oneOf Symbol.statements), token .endOfFile]) h
      (by decide)
  refine ⟨map_node_statements hstatements, List.filter_eq_nil_iff.2 fun m hm herror => ?_⟩
  have hstatement := hstatements m hm
  rw [beq_iff_eq.1 herror] at hstatement
  cases hstatement

theorem geoBlock_isComplete
    (h : n.children.map Tree.symbol ∈ (NodeKind.geoBlock.wholePattern keyword).matches') :
    n.geoItems = n.nodes ∧ n.bracesView.IsComplete := by
  have hitems : ∀ m ∈ n.nodes, (m.kind == .geoItem) = true :=
    forall_mem_nodes (P := wholeBraces (oneOf [.node .geoItem])) (p := (· == .geoItem)) h (by decide)
  exact ⟨List.filter_eq_self.2 hitems, wholeBraces_isComplete h⟩

/-! ## All nodes -/

/-- A whole entry of a geo block has its operand, where it takes one. -/
theorem exists_geoEntryView (hentry : n.kind.isGeoEntry = true)
    (h : n.children.map Tree.symbol
      ∈ (n.kind.wholePattern (Tree.keyword n.children)).matches') :
    ∃ view, n.geoEntryView? = some view ∧ view.IsComplete := by
  unfold geoEntryView?
  cases hk : n.kind with
  | geoDefault | geoDelete =>
    rw [hk] at h
    have hlength : n.values.length = 2 := length_values_operand h
    exact ⟨_, rfl, by simp [GeoEntryView.IsComplete, hlength]⟩
  | geoInclude =>
    rw [hk] at h
    have hlength : n.values.length = 1 := length_values_operand h
    exact ⟨_, rfl, by simp [GeoEntryView.IsComplete, hlength]⟩
  | geoProxy => exact ⟨_, rfl, proxy_isComplete (hk ▸ h)⟩
  | geoRanges => exact ⟨_, rfl, trivial⟩
  | geoValue =>
    rw [hk] at h
    obtain ⟨network, hnetwork, v, hv, hsymbols⟩ := mem_value_mul.1 h
    obtain ⟨operand, hoperand, rfl⟩ := mem_value.1 hv
    have hlength : n.values.length = 2 := by
      rw [length_values, hsymbols, Symbol.values_cons_value hnetwork,
        Symbol.values_cons_value hoperand]
      rfl
    exact ⟨_, rfl, by simp [GeoEntryView.IsComplete, hlength]⟩
  | _ =>
    rw [hk] at hentry
    cases hentry

/-- **A whole node answers its view, and the view is complete.** -/
theorem exists_view_of_isWhole (h : Node.IsWhole ⟨n.kind, n.children⟩) :
    ∃ view, n.view? = some view ∧ view.IsComplete n := by
  have hmatch : n.children.map Tree.symbol
      ∈ (n.kind.wholePattern (Tree.keyword n.children)).matches' := h
  unfold view?
  cases hk : n.kind with
  | sourceFile => exact ⟨_, rfl, sourceFile_isComplete (hk ▸ hmatch)⟩
  | block => exact ⟨_, rfl, block_isComplete (hk ▸ hmatch)⟩
  | directive => exact ⟨_, rfl, directiveView_isComplete (hk ▸ hmatch)⟩
  | ifStatement => exact ⟨_, rfl, ifView_isComplete (hk ▸ hmatch)⟩
  | condition => exact ⟨_, rfl, conditionView_isComplete (hk ▸ hmatch)⟩
  | setStatement => exact ⟨_, rfl, setView_isComplete (hk ▸ hmatch)⟩
  | includeStatement => exact ⟨_, rfl, includePath_isSome (hk ▸ hmatch)⟩
  | geoStatement => exact ⟨_, rfl, geoView_isComplete (hk ▸ hmatch)⟩
  | geoBlock => exact ⟨_, rfl, geoBlock_isComplete (hk ▸ hmatch)⟩
  | geoItem => exact ⟨_, rfl, geoEntry_isSome (hk ▸ hmatch)⟩
  | geoDefault | geoDelete | geoInclude | geoProxy | geoRanges | geoValue =>
    obtain ⟨view, hview, hcomplete⟩ := exists_geoEntryView (by rw [hk]; rfl) hmatch
    exact ⟨.geoEntry view, by rw [hview]; rfl, hcomplete⟩
  | accessLua | contentLua | uriLua | setLua | sslCertificateLua | otherLua =>
    exact ⟨.script n.scriptView, rfl, scriptView_isComplete (by rw [hk]; rfl) hmatch⟩
  | error | tombstone =>
    rw [hk] at hmatch
    exact absurd hmatch (Language.notMem_zero _)

end NodeRef

/-! ## Texts without errors -/

/-- What the rule for a file has built is whole. -/
theorem forms_fileOutcome {s : Text} (h : (parse s).hasErrors = false) :
    (fileOutcome s).trees.map Tree.symbol ∈ (repeated (oneOf Symbol.statements)).matches' ∧
      ∀ m ∈ Tree.forestSubnodes (fileOutcome s).trees, m.IsWhole := by
  obtain ⟨a, ha, htrees, hclean⟩ := exists_shapedOutcome s
  obtain ⟨hmatch, hnodes⟩ := (ha ▸ Outcome.forms_file (α := ShapedToken) _ _) (hclean h)
  rw [htrees, Tree.map_symbol_map (f := Subtype.val) fun _ => rfl, ← Tree.forestMap_eq,
    Tree.forestSubnodes_map]
  refine ⟨hmatch, List.forall_mem_map.2 fun m hm => ?_⟩
  exact (Node.isWhole_map (f := Subtype.val) (fun _ => rfl) (fun _ => rfl) m).2 (hnodes m hm)

/-- **Every node of the tree of a text without errors is whole.** -/
theorem isWhole_nodesOf {s : Text} (h : (parse s).hasErrors = false) {n : NodeRef}
    (hn : n ∈ nodesOf s) :
    Node.IsWhole ⟨n.kind, n.children⟩ := by
  obtain ⟨hmatch, hnodes⟩ := forms_fileOutcome h
  obtain ⟨m, hm, hstands⟩ := exists_of_forall₂ (standsFor_nodesOf s) hn
  have hsame : (⟨n.kind, n.children⟩ : Node Token) = m.map PlacedToken.token := by
    rw [hstands.kind, hstands.children, Node.map]
  rw [hsame, Node.isWhole_map (f := PlacedToken.token) (fun _ => rfl) fun _ => rfl]
  rcases List.mem_cons.1 hm with rfl | hm
  · rw [Node.IsWhole, List.map_append]
    refine Language.append_mem_mul hmatch (mem_token.2 ?_)
    exact congrArg (fun kind => [Symbol.token kind]) (kind_stop_tokenize s)
  · exact hnodes m hm

/-- **In a text without errors, every node answers its view, and finds all that it is made for.** -/
theorem views_complete (s : Text) (h : (parse s).hasErrors = false) :
    ∀ n ∈ nodesOf s, ∃ view, n.view? = some view ∧ view.IsComplete n :=
  fun _ hn => NodeRef.exists_view_of_isWhole (isWhole_nodesOf h hn)

/-- An `if` and a geo block. -/
theorem views_complete_geo :
    (parse "if ($a = b) \x7bc;\x7d geo $d \x7be f; ranges;\x7d".toList).hasErrors = false ∧
      ∀ n ∈ nodesOf "if ($a = b) \x7bc;\x7d geo $d \x7be f; ranges;\x7d".toList,
        ∃ view, n.view? = some view ∧ view.IsComplete n :=
  ⟨by decide +kernel, views_complete _ (by decide +kernel)⟩

end NginxConf
