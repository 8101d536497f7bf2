import NginxConf.Proofs.Grammar.TooDeep
import NginxConf.Proofs.Parse.Reported
import NginxConf.Proofs.SyntaxTree.Held

/-!
# The partner of a brace stands in the same node

Where no block is reported to be nested too deep, braces belong to blocks and scripts, or are `}`
that close nothing (`holder_of_brace`). A block or a script has at most one `{` and one `}`, and these
are a pair that a stack finds (`mem_pairs_iff`).
-/

namespace NginxConf

/-- No block of a text is reported to be nested too deep. -/
def NotTooDeep (s : Text) : Prop :=
  ∀ d ∈ (parse s).diagnostics, d.message ≠ Problem.tooDeep.message

variable {s : Text}

/-- Whether a block is nested too deep does not depend on the order of the reports. -/
theorem notTooDeep_iff :
    NotTooDeep s ↔ ∀ i ∈ (fileOutcome s).issues, i.problem.message ≠ Problem.tooDeep.message := by
  have hperm := Diagnostic.sort_perm ((fileOutcome s).issues.map Issue.diagnostic)
  rw [NotTooDeep, parse_diagnostics]
  constructor
  · exact fun h i hi => h i.diagnostic (hperm.mem_iff.2 (List.mem_map_of_mem hi))
  · intro h d hd
    obtain ⟨i, hi, rfl⟩ := List.mem_map.1 (hperm.mem_iff.1 hd)
    exact h i hi

/-- Where nothing is reported to be nested too deep, no node has raw tokens. -/
theorem isDeep_of_notTooDeep (h : NotTooDeep s) {n : NodeRef} (hn : n ∈ nodesOf s) :
    n.isDeep = false := by
  by_contra hdeep
  rw [Bool.not_eq_false, NodeRef.isDeep, Bool.and_eq_true, beq_iff_eq] at hdeep
  obtain ⟨hkind, hraw⟩ := hdeep
  obtain ⟨m, hm, hstands⟩ := exists_standsFor hn (by rw [hkind]; decide)
  have hdeep : m.isDeep = true := by
    rw [Node.isDeep, ← hstands.kind, hkind, beq_self_eq_true, Bool.true_and]
    rwa [hstands.children, Tree.areRaw_map (f := PlacedToken.token) fun _ => rfl] at hraw
  obtain ⟨i, hi, hproblem⟩ :=
    Outcome.deepReported_file PlacedToken.origin (fits_tokenize s) (calm_tokenize s) m hm hdeep
  exact notTooDeep_iff.1 h i hi (congrArg Problem.message hproblem)

/-! ## Tokens of a text, in the tree -/

/-- The tokens of the tree of a text. -/
def tokensOf (s : Text) : List TokenRef := (NodeRef.root (parse s).tree).allTokens

/-- A token of the text stands in the tree. -/
theorem exists_tokenRef {p : PlacedToken} (hp : p ∈ (tokenize s).tokens)
    (hkind : p.token.kind ≠ .malformed) : ∃ t ∈ tokensOf s, t.placed = p := by
  have hmem : p.faultless ∈ (tokenize s).all.map PlacedToken.faultless :=
    List.mem_map_of_mem (List.mem_append_left _ hp)
  rw [← map_placed_allTokens] at hmem
  obtain ⟨t, ht, hplaced⟩ := List.mem_map.1 hmem
  refine ⟨t, ht, hplaced.trans ?_⟩
  rw [PlacedToken.faultless, ← (tokenize_shaped hp).fault_eq_none hkind]

/-- A token of the tree stands in the text. -/
theorem placed_mem_tokens {t : TokenRef} (ht : t ∈ tokensOf s) (hend : t.token.kind ≠ .endOfFile)
    (hkind : t.token.kind ≠ .malformed) : t.placed ∈ (tokenize s).tokens := by
  have hmem := List.mem_map_of_mem (f := TokenRef.placed) ht
  rw [tokensOf, map_placed_allTokens] at hmem
  obtain ⟨p, hp, hplaced⟩ := List.mem_map.1 hmem
  have htoken : p.token = t.token := congrArg PlacedToken.token hplaced
  rcases List.mem_append.1 hp with hp | hp
  · rw [← hplaced, PlacedToken.faultless,
      ← (tokenize_shaped hp).fault_eq_none (by rw [htoken]; exact hkind)]
    exact hp
  · refine absurd ?_ hend
    rw [← htoken, List.mem_singleton.1 hp]
    exact kind_stop_tokenize s

/-- A token that is neither the end nor malformed is not empty. -/
theorem text_ne_nil_of_mem {t : TokenRef} (ht : t ∈ tokensOf s) (hend : t.token.kind ≠ .endOfFile)
    (hkind : t.token.kind ≠ .malformed) : t.token.text ≠ [] :=
  (tokenize_shaped (placed_mem_tokens ht hend hkind)).text_ne_nil rfl

/-- No two tokens of a text overlap. -/
theorem pairwise_tokens (s : Text) :
    (tokenize s).tokens.Pairwise fun p q => p.span.stop ≤ q.span.start :=
  (List.pairwise_append.1 (tile_tokenize s).pairwise_stop_le).1

/-- A token that is not malformed is not empty. -/
theorem start_lt_stop_of_mem {p : PlacedToken} (hp : p ∈ (tokenize s).tokens)
    (hkind : p.token.kind ≠ .malformed) : p.span.start < p.span.stop := by
  obtain ⟨t, ht, rfl⟩ := exists_tokenRef hp hkind
  exact TokenRef.start_lt_stop
    (text_ne_nil_of_mem ht (tokenize_shaped hp).not_endOfFile hkind)

/-- Whether a token of the kind always has text. -/
def TokenKind.isSolid (kind : TokenKind) : Bool := kind != .endOfFile && kind != .malformed

theorem TokenKind.isSolid_iff {kind : TokenKind} :
    kind.isSolid = true ↔ kind ≠ .endOfFile ∧ kind ≠ .malformed := by
  simp [isSolid]

theorem TokenKind.isSolid_of_isBrace {kind : TokenKind} (h : kind.isBrace = true) :
    kind.isSolid = true := by
  cases kind <;> first | cases h; done | rfl

/-- Tokens with text that begin at the same offset are the same. -/
theorem eq_of_isSolid {t u : TokenRef} (ht : t ∈ tokensOf s) (hu : u ∈ tokensOf s)
    (htk : t.token.kind.isSolid = true) (huk : u.token.kind.isSolid = true)
    (h : t.span.start = u.span.start) : t = u := by
  obtain ⟨htend, htmalformed⟩ := TokenKind.isSolid_iff.1 htk
  obtain ⟨huend, humalformed⟩ := TokenKind.isSolid_iff.1 huk
  exact NodeRef.eq_of_start_eq ht hu (text_ne_nil_of_mem ht htend htmalformed)
    (text_ne_nil_of_mem hu huend humalformed) h

/-- A brace of the tree is the brace of the text at its place. -/
theorem placed_eq_of_span {t : TokenRef} (ht : t ∈ tokensOf s) {p : PlacedToken}
    (hp : p ∈ (tokenize s).tokens) (hkind : t.token.kind = Lexical.kind p)
    (hbrace : t.token.kind.isBrace = true) (hspan : t.span = p.span) : t.placed = p := by
  have hsolid := TokenKind.isSolid_of_isBrace hbrace
  have hpsolid : p.token.kind.isSolid = true := by
    rw [show p.token.kind = t.token.kind from hkind.symm, hsolid]
  obtain ⟨u, hu, rfl⟩ := exists_tokenRef hp (TokenKind.isSolid_iff.1 hpsolid).2
  rw [eq_of_isSolid ht hu hsolid hpsolid (congrArg Span.start hspan)]

/-- The tokens of a node are tokens of the tree. -/
theorem mem_tokensOf {n : NodeRef} (hn : n ∈ nodesOf s) {t : TokenRef} (ht : t ∈ n.tokens) :
    t ∈ tokensOf s :=
  (NodeRef.perm_allTokens _).mem_iff.2 (List.mem_flatMap.2 ⟨n, hn, ht⟩)

/-! ## Braces in their nodes -/

/-- A block or a script has one brace of each kind, at most. -/
theorem NodeRef.token?_of_brace {n : NodeRef} (h : n.kind.Admits n.children)
    (hbraced : n.kind.isBraced = true) {t : TokenRef} (ht : t ∈ n.tokens)
    (hkind : t.token.kind.isBrace = true) : n.token? t.token.kind = some t := by
  have hkinds := n.map_token_kind
  have hcount : (n.tokens.map (·.token.kind)).count t.token.kind ≤ 1 := by
    rw [hkinds, ← List.count_filter hkind]
    generalize t.token.kind = kind at hkind
    have hall : ∀ ks ∈ [[], [.leftBrace], [TokenKind.leftBrace, .rightBrace]],
        ks.count kind ≤ 1 := by
      cases kind <;> decide
    cases NodeKind.hasBraces h with
    | braced _ hbraces => exact hall _ hbraces
    | deep herror | stray herror => rw [herror] at hbraced; cases hbraced
    | none hnone => rw [hnone] at hbraced; cases hbraced
  exact token?_of_count ht hcount

/-- **A brace belongs to a block or a script, or is a `}` that closes nothing.** -/
theorem holder_of_brace (h : NotTooDeep s) {t : TokenRef} (ht : t ∈ tokensOf s)
    (hkind : t.token.kind.isBrace = true) :
    t.parent.kind.isBraced = true ∨ t.token.kind = .rightBrace ∧ t.parent.tokens = [t] := by
  obtain ⟨hparent, hmem⟩ := NodeRef.parent_mem_descendants ht
  have hkinds := t.parent.map_token_kind
  cases NodeKind.hasBraces ((shaped_parse s).admits hparent) with
  | braced hbraced => exact .inl hbraced
  | deep herror hsymbols hrest =>
    have hdeep := isDeep_of_notTooDeep h hparent
    rw [NodeRef.isDeep, herror, Tree.areRaw_of_symbols hsymbols hrest] at hdeep
    cases hdeep
  | stray _ hsymbols =>
    rw [hsymbols] at hkinds
    obtain ⟨u, hu, hright⟩ := List.map_eq_singleton_iff.1 hkinds
    rw [hu, List.mem_singleton] at hmem
    exact .inr ⟨hmem ▸ hright, hmem ▸ hu⟩
  | none _ hbraces =>
    rw [Symbol.braces, ← hkinds, List.filter_eq_nil_iff] at hbraces
    exact absurd hkind (hbraces _ (List.mem_map_of_mem hmem))

/-- The places of the pairs that a stack finds, by the nodes that the braces belong to. -/
theorem mem_span_pairs_iff (h : NotTooDeep s) {a b : Span} :
    (a, b) ∈ (matchBraces (tokenize s).tokens).pairs.map (Prod.map PlacedToken.span PlacedToken.span)
      ↔ ∃ n ∈ nodesOf s, n.kind.isBraced = true ∧ ∃ t u, n.token? .leftBrace = some t ∧
        n.token? .rightBrace = some u ∧ t.span = a ∧ u.span = b := by
  have hnode : ∀ n ∈ nodesOf s, (a, b) ∈ n.braces.pairs ↔ n.kind.isBraced = true ∧
      ∃ t u, n.token? .leftBrace = some t ∧ n.token? .rightBrace = some u ∧ t.span = a ∧
        u.span = b := by
    intro n hn
    rw [(braceSorts_of_mem hn).pairs, isDeep_of_notTooDeep h hn, if_neg Bool.false_ne_true,
      List.append_nil]
    unfold NodeRef.bracePair?
    cases n.kind.isBraced with
    | false => simp
    | true =>
      rw [if_pos rfl]
      cases n.token? .leftBrace with
      | none => simp
      | some t =>
        cases n.token? .rightBrace with
        | none => simp
        | some u => simp [eq_comm]
  have hperm := (alike_braces s).pairs
  rw [Braces.pairs_sum, List.flatMap_map] at hperm
  refine hperm.mem_iff.trans (List.mem_flatMap.trans ⟨?_, ?_⟩)
  · rintro ⟨n, hn, hpair⟩
    exact ⟨n, hn, (hnode n hn).1 hpair⟩
  · rintro ⟨n, hn, hpair⟩
    exact ⟨n, hn, (hnode n hn).2 hpair⟩

/-- **The pairs that a stack finds are the pairs of the blocks and scripts.** -/
theorem mem_pairs_iff (h : NotTooDeep s) {l r : PlacedToken} :
    (l, r) ∈ (matchBraces (tokenize s).tokens).pairs ↔
      ∃ n ∈ nodesOf s, n.kind.isBraced = true ∧ ∃ t u, n.token? .leftBrace = some t ∧
        n.token? .rightBrace = some u ∧ t.placed = l ∧ u.placed = r := by
  constructor
  · intro hpair
    obtain ⟨⟨hl, hlk⟩, hr, hrk⟩ := mem_of_mem_pairs hpair
    obtain ⟨n, hn, hbraced, t, u, ht, hu, hlspan, hrspan⟩ :=
      (mem_span_pairs_iff h).1 (List.mem_map_of_mem hpair)
    obtain ⟨htmem, htk⟩ := NodeRef.token?_eq_some ht
    obtain ⟨humem, huk⟩ := NodeRef.token?_eq_some hu
    exact ⟨n, hn, hbraced, t, u, ht, hu,
      placed_eq_of_span (mem_tokensOf hn htmem) hl (htk.trans hlk.symm) (by rw [htk]; rfl) hlspan,
      placed_eq_of_span (mem_tokensOf hn humem) hr (huk.trans hrk.symm) (by rw [huk]; rfl) hrspan⟩
  · rintro ⟨n, hn, hbraced, t, u, ht, hu, rfl, rfl⟩
    obtain ⟨⟨l, r⟩, hpair, hspan⟩ := List.mem_map.1
      ((mem_span_pairs_iff h).2 ⟨n, hn, hbraced, t, u, ht, hu, rfl, rfl⟩)
    obtain ⟨hlspan, hrspan⟩ := Prod.mk.inj hspan
    obtain ⟨⟨hl, hlk⟩, hr, hrk⟩ := mem_of_mem_pairs hpair
    obtain ⟨htmem, htk⟩ := NodeRef.token?_eq_some ht
    obtain ⟨humem, huk⟩ := NodeRef.token?_eq_some hu
    rw [placed_eq_of_span (mem_tokensOf hn htmem) hl (htk.trans hlk.symm) (by rw [htk]; rfl)
        hlspan.symm,
      placed_eq_of_span (mem_tokensOf hn humem) hr (huk.trans hrk.symm) (by rw [huk]; rfl)
        hrspan.symm]
    exact hpair

end NginxConf
