import NginxConf.Proofs.Parse.Partners
import NginxConf.Proofs.Tree.ParenRows

/-!
# The partner of a parenthesis stands in the same node

Where no block is reported to be nested too deep, parentheses belong to an `if`. Its `)` comes right
behind the conditions, and these have no parentheses (`closes_of_token?`). So the pairs that a stack
finds are the parentheses of the `if` statements (`mem_parens_iff`).
-/

namespace NginxConf

variable {s : Text}

/-! ## Parentheses in their nodes -/

/-- A node with a parenthesis has a `(` right behind the keyword. Behind the conditions is its `)`, if
it has one. -/
theorem NodeRef.parens_of_mem {n : NodeRef} (h : n.kind.Admits n.children)
    (hdeep : n.isDeep = false) {kind : TokenKind} (hkind : kind.isParen = true)
    (hmem : kind ∈ (n.children.map Tree.symbol).filterMap Symbol.token?) :
    (∃ rest, n.children.map Tree.symbol = .token .ifKeyword :: .token .leftParen :: rest ∧
        rest.filterMap Symbol.token? = []) ∨
      ∃ conditions rest, n.children.map Tree.symbol = .token .ifKeyword :: .token .leftParen ::
          conditions ++ .token .rightParen :: rest ∧
        (∀ s ∈ conditions, s = .node .condition) ∧ rest.filterMap Symbol.token? = [] := by
  cases NodeKind.hasParens h with
  | none hnone =>
    have hparens := List.mem_filter.2 ⟨hmem, hkind⟩
    rw [hnone] at hparens
    cases hparens
  | deep herror hsymbols hrest =>
    rw [isDeep, herror, Tree.areRaw_of_symbols hsymbols hrest] at hdeep
    cases hdeep
  | opened hsymbols hrest => exact .inl ⟨_, hsymbols, hrest⟩
  | closed hsymbols hconditions hrest => exact .inr ⟨_, _, hsymbols, hconditions, hrest⟩

/-- A node has one parenthesis of each kind, at most. -/
theorem NodeRef.token?_of_paren {n : NodeRef} (h : n.kind.Admits n.children)
    (hdeep : n.isDeep = false) {t : TokenRef} (ht : t ∈ n.tokens)
    (hkind : t.token.kind.isParen = true) : n.token? t.token.kind = some t := by
  have hkinds := n.map_token_kind
  have hmem : t.token.kind ∈ n.tokens.map (·.token.kind) := List.mem_map_of_mem ht
  refine token?_of_count ht ?_
  rw [hkinds] at hmem ⊢
  generalize t.token.kind = kind at hkind hmem
  rcases parens_of_mem h hdeep hkind hmem with
    ⟨rest, hsymbols, hrest⟩ | ⟨conditions, rest, hsymbols, hconditions, hrest⟩
  · rw [hsymbols]
    simp only [List.filterMap_cons, Symbol.token?, hrest]
    cases kind <;> decide
  · have hnone : conditions.filterMap Symbol.token? = [] := by
      rw [List.filterMap_eq_nil_iff]
      intro s hs
      rw [hconditions s hs]
      rfl
    rw [hsymbols]
    simp only [List.filterMap_cons, List.cons_append, List.filterMap_append, Symbol.token?, hrest,
      hnone, List.nil_append]
    cases kind <;> decide

/-- A node with a `)` has a `(` and between them tokens that are not parentheses. -/
theorem NodeRef.exists_leftParen {n : NodeRef} (h : (Tree.node n.kind n.children).Shaped)
    (hdeep : n.isDeep = false) {u : TokenRef} (hu : u ∈ n.tokens)
    (hkind : u.token.kind = .rightParen) :
    ∃ left t inner right, n.allTokens = left ++ t :: (inner ++ u :: right) ∧ t ∈ n.tokens ∧
      t.token.kind = .leftParen ∧ ∀ v ∈ inner, v.token.kind.isParen = false := by
  obtain ⟨hadmits, hchildren⟩ := Tree.shaped_node.1 h
  have hmem : TokenKind.rightParen ∈ (n.children.map Tree.symbol).filterMap Symbol.token? := by
    rw [← n.map_kind_tokens, ← hkind]
    exact List.mem_map_of_mem (f := fun t : TokenRef => t.token.kind) hu
  rcases parens_of_mem hadmits hdeep rfl hmem with
    ⟨rest, hsymbols, hrest⟩ | ⟨conditions, rest, hsymbols, hconditions, hrest⟩
  · rw [hsymbols] at hmem
    simp only [List.filterMap_cons, Symbol.token?, hrest] at hmem
    exact absurd hmem (by decide)
  · obtain ⟨k, us, hsplit, hk, hus⟩ := List.map_eq_cons_iff.1 hsymbols
    obtain ⟨p, vs, rfl, hp, hvs⟩ := List.map_eq_cons_iff.1 hus
    obtain ⟨cs, ws, rfl, hcs, hws⟩ := List.map_eq_append_iff.1 hvs
    obtain ⟨q, xs, rfl, hq, hxs⟩ := List.map_eq_cons_iff.1 hws
    obtain ⟨l, rfl, hl⟩ := Tree.exists_leaf_of_symbol hp
    obtain ⟨r, rfl, hr⟩ := Tree.exists_leaf_of_symbol hq
    rw [← List.singleton_append] at hsplit
    obtain ⟨left, t, inner, u', right, htokens, ht, hu', rfl, rfl, hinner⟩ :=
      exists_allTokens_of_leaves hsplit
    obtain rfl : u = u' := by
      have hr : u'.token.kind = .rightParen := hr
      have hfirst := token?_of_paren hadmits hdeep hu (by rw [hkind]; rfl)
      have hfirst' := token?_of_paren hadmits hdeep hu' (by rw [hr]; rfl)
      rw [hkind] at hfirst
      rw [hr] at hfirst'
      exact Option.some.inj (hfirst.symm.trans hfirst')
    refine ⟨left, t, inner, right, htokens, ht, hl, fun v hv => ?_⟩
    have hleaf := List.mem_map_of_mem (f := TokenRef.token) hv
    rw [hinner, Tree.forestLeaves_eq] at hleaf
    obtain ⟨c, hc, hleaf⟩ := List.mem_flatMap.1 hleaf
    have hsymbol : c.symbol = .node .condition :=
      hconditions _ (hcs ▸ List.mem_map_of_mem hc)
    exact (hchildren c (by rw [hsplit]; simp [hc])).isParen_of_condition hsymbol v.token hleaf

/-! ## The parentheses of a text -/

/-- A token of the tree, and what stands before it, in the text. -/
theorem exists_split_tokens {before after : List TokenRef} {u : TokenRef}
    (h : tokensOf s = before ++ u :: after) (hend : u.token.kind ≠ .endOfFile)
    (hkind : u.token.kind ≠ .malformed) :
    ∃ ps, ps ++ [u.placed] <+: (tokenize s).tokens ∧
      ps.map PlacedToken.faultless = before.map TokenRef.placed := by
  have hmap := map_placed_allTokens s
  rw [← tokensOf, h, List.map_append, List.map_cons] at hmap
  obtain ⟨ps, rest, hall, hps, hrest⟩ := List.map_eq_append_iff.1 hmap.symm
  obtain ⟨p, qs, rfl, hp, -⟩ := List.map_eq_cons_iff.1 hrest
  have htoken : p.token = u.token := congrArg PlacedToken.token hp
  rcases List.eq_nil_or_concat qs with rfl | ⟨qs, q, rfl⟩
  · -- the last token is the end
    obtain ⟨-, hlast⟩ := List.append_inj' hall rfl
    refine absurd ?_ hend
    rw [← htoken, ← (List.singleton_inj.1 hlast)]
    exact kind_stop_tokenize s
  · rw [List.concat_eq_append, ← List.cons_append, ← List.append_assoc] at hall
    obtain ⟨htokens, -⟩ := List.append_inj' hall rfl
    have hmem : p ∈ (tokenize s).tokens := by rw [htokens]; simp
    have hfault := (tokenize_shaped hmem).fault_eq_none (by rw [htoken]; exact hkind)
    refine ⟨ps, ⟨qs, ?_⟩, hps⟩
    rw [htokens, ← hp, PlacedToken.faultless, ← hfault, List.append_assoc]
    rfl

/-- **Between the parentheses of a node there is no other parenthesis.** -/
theorem closes_of_token? (h : NotTooDeep s) {n : NodeRef} (hn : n ∈ nodesOf s) {u : TokenRef}
    (hu : u ∈ n.tokens) (hkind : u.token.kind = .rightParen) :
    ∃ t, n.token? .leftParen = some t ∧ Closes (tokenize s).tokens t.placed u.placed := by
  have hdeep := isDeep_of_notTooDeep h hn
  obtain ⟨left, t, inner, right, htokens, ht, hleft, hinner⟩ :=
    NodeRef.exists_leftParen ((shaped_parse s).of_mem_descendants hn) hdeep hu hkind
  obtain ⟨outer, more, hsplit⟩ := NodeRef.infix_allTokens hn
  rw [htokens] at hsplit
  have hroot : tokensOf s = (outer ++ left ++ t :: inner) ++ u :: (right ++ more) := by
    rw [tokensOf, ← hsplit]
    simp
  obtain ⟨ps, hread, hps⟩ := exists_split_tokens hroot (by rw [hkind]; decide)
    (by rw [hkind]; decide)
  rw [List.map_append, List.map_cons] at hps
  obtain ⟨as, bs, rfl, -, hbs⟩ := List.map_eq_append_iff.1 hps
  obtain ⟨p, cs, rfl, hp, hcs⟩ := List.map_eq_cons_iff.1 hbs
  have htoken : p.token = t.token := congrArg PlacedToken.token hp
  have hpkind : p.token.kind = .leftParen := by rw [htoken, hleft]
  have hpmem : p ∈ (tokenize s).tokens := hread.subset (by simp)
  have hfault := (tokenize_shaped hpmem).fault_eq_none (by rw [hpkind]; decide)
  have hplaced : t.placed = p := by
    rw [← hp, PlacedToken.faultless, ← hfault]
  have hfirst := NodeRef.token?_of_paren ((shaped_parse s).admits hn) hdeep ht (by rw [hleft]; rfl)
  refine ⟨t, hleft ▸ hfirst, as ++ p :: cs, hread, hkind, as, cs, by rw [hplaced], ?_, ?_⟩
  · rw [hplaced]
    exact hpkind
  · intro q hq
    have hmem := List.mem_map_of_mem (f := PlacedToken.faultless) hq
    rw [hcs] at hmem
    obtain ⟨v, hv, hvq⟩ := List.mem_map.1 hmem
    have hqv : q.token = v.token := (congrArg PlacedToken.token hvq).symm
    rw [show Lexical.kind q = q.token.kind from rfl, hqv]
    exact hinner v hv

/-- What stands before a token that is not malformed, in a text, is given by the token. -/
theorem prefix_unique {before before' : List PlacedToken} {p : PlacedToken}
    (h : before ++ [p] <+: (tokenize s).tokens) (h' : before' ++ [p] <+: (tokenize s).tokens)
    (hkind : p.token.kind ≠ .malformed) : before = before' := by
  have hpairwise := pairwise_tokens s
  have hlt := start_lt_stop_of_mem (h.subset (by simp)) hkind
  obtain ⟨after, hsplit⟩ := h
  obtain ⟨after', hsplit'⟩ := h'
  rw [List.append_assoc, List.singleton_append] at hsplit hsplit'
  have hnotMem {xs ys : List PlacedToken} (hxs : xs ++ p :: ys = (tokenize s).tokens) :
      p ∉ xs ∧ p ∉ ys := by
    rw [← hxs] at hpairwise
    obtain ⟨-, htail, hcross⟩ := List.pairwise_append.1 hpairwise
    constructor
    · intro hp
      have := hcross p hp p List.mem_cons_self
      omega
    · intro hp
      have := (List.pairwise_cons.1 htail).1 p hp
      omega
  obtain ⟨hbefore, hafter⟩ := hnotMem hsplit
  exact ((List.append_cons_inj_of_notMem hbefore hafter).1 (hsplit.trans hsplit'.symm)).1

/-- Each `)` of a text is that of a node with a `(`. -/
theorem exists_closes (h : NotTooDeep s) {r : PlacedToken} (hr : r ∈ (tokenize s).tokens)
    (hkind : Lexical.kind r = .rightParen) :
    ∃ n ∈ nodesOf s, ∃ t u, n.token? .leftParen = some t ∧ n.token? .rightParen = some u ∧
      u.placed = r ∧ Closes (tokenize s).tokens t.placed r := by
  have hkind : r.token.kind = .rightParen := hkind
  obtain ⟨u, hu, rfl⟩ := exists_tokenRef hr (by rw [hkind]; decide)
  obtain ⟨hn, hmem⟩ := NodeRef.parent_mem_descendants hu
  obtain ⟨t, ht, hcloses⟩ := closes_of_token? h hn hmem hkind
  have hfirst := NodeRef.token?_of_paren ((shaped_parse s).admits hn) (isDeep_of_notTooDeep h hn)
    hmem (by rw [show u.token.kind = .rightParen from hkind]; rfl)
  rw [show u.token.kind = .rightParen from hkind] at hfirst
  exact ⟨u.parent, hn, t, u, ht, hfirst, rfl, hcloses⟩

/-- **The pairs of parentheses that a stack finds are the parentheses of the nodes.** -/
theorem mem_parens_iff (h : NotTooDeep s) {l r : PlacedToken} :
    (l, r) ∈ (matchParens (tokenize s).tokens).pairs ↔
      ∃ n ∈ nodesOf s, ∃ t u, n.token? .leftParen = some t ∧ n.token? .rightParen = some u ∧
        t.placed = l ∧ u.placed = r := by
  have hends : ∀ before r, before ++ [r] <+: (tokenize s).tokens → Lexical.kind r = .rightParen →
      ∃ l, EndsInParen before l := by
    intro before r hread hr
    obtain ⟨n, -, t, u, -, -, -, before', hread', -, hopen⟩ :=
      exists_closes h (hread.subset (by simp)) hr
    have hr : r.token.kind = .rightParen := hr
    obtain rfl := prefix_unique hread hread' (by rw [hr]; decide)
    exact ⟨_, hopen⟩
  rw [mem_matchParens_iff hends]
  constructor
  · rintro ⟨before, hread, hr, hopen⟩
    obtain ⟨n, hn, t, u, ht, hu, hur, before', hread', -, hopen'⟩ :=
      exists_closes h (hread.subset (by simp)) hr
    have hr : r.token.kind = .rightParen := hr
    obtain rfl := prefix_unique hread hread' (by rw [hr]; decide)
    exact ⟨n, hn, t, u, ht, hu, Option.some.inj (hopen'.opened.symm.trans hopen.opened), hur⟩
  · rintro ⟨n, hn, t, u, ht, hu, rfl, rfl⟩
    obtain ⟨hmem, hkind⟩ := NodeRef.token?_eq_some hu
    obtain ⟨t', ht', hcloses⟩ := closes_of_token? h hn hmem hkind
    rw [ht] at ht'
    rw [Option.some.inj ht']
    exact hcloses

end NginxConf
