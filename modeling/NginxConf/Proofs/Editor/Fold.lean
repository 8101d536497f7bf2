import NginxConf.Editor.Fold
import NginxConf.Proofs.Parse.Partners

/-!
# Folds are the pairs of braces with something between them

A walk finds a fold where it enters a block, and at the `{` of a script. Either way the fold is that
of the node that holds the `{` (`Event.fold?_eq`), and the braces are met in the order of the text
(`sublist_foldBraces`). Where no block is nested too deep, the pairs of the blocks and scripts are
those that a stack finds, so the folds are these pairs (`folds_parse`).
-/

namespace NginxConf

/-! ## The fold of a node -/

/-- What is between the braces of a block or a script. -/
def NodeRef.fold? (n : NodeRef) : Option Fold :=
  if n.kind.isBlock then n.bracesView.fold? .block
  else if n.kind.isLua then n.bracesView.fold? .script
  else none

/-- The `{` of the fold that begins with a step of a walk. -/
def Event.foldBrace? : Event → Option TokenRef
  | .enter n => if n.kind.isBlock then n.token? .leftBrace else none
  | .token t => if t.token.kind = .leftBrace ∧ t.parent.kind.isLua then some t else none
  | .leave _ => none

theorem BracesView.fold?_eq_some {b : BracesView} {kind : FoldKind} {f : Fold} :
    b.fold? kind = some f ↔ ∃ l r, b.left = some l ∧ b.right = some r ∧
      l.span.stop ≠ r.span.start ∧ f = ⟨kind, l.span.stop, r.span.start⟩ := by
  obtain ⟨left, right⟩ := b
  unfold fold?
  cases left with
  | none => simp
  | some l =>
    cases right with
    | none => simp
    | some r =>
      by_cases hempty : l.span.stop = r.span.start
      · simp [Span.isEmpty, hempty]
      · simp only [Span.isEmpty, Option.bind_eq_bind, Option.bind_some, beq_iff_eq, hempty, if_false]
        constructor
        · intro h
          exact ⟨l, r, rfl, rfl, hempty, (Option.some.inj h).symm⟩
        · rintro ⟨_, _, ⟨⟩, ⟨⟩, -, rfl⟩
          rfl

/-- **A fold is that of the node that holds the `{`.** -/
theorem Event.fold?_eq (e : Event) : e.fold? = e.foldBrace?.bind fun l => l.parent.fold? := by
  cases e with
  | leave n => rfl
  | enter n =>
    rw [fold?, foldBrace?]
    by_cases hblock : n.kind.isBlock = true
    · rw [if_pos hblock, if_pos hblock]
      cases hl : n.token? .leftBrace with
      | none =>
        rw [BracesView.fold?, NodeRef.bracesView, hl]
        rfl
      | some l =>
        rw [Option.bind_some, NodeRef.parent_of_mem_tokens (NodeRef.token?_eq_some hl).1,
          NodeRef.fold?, if_pos hblock]
    · rw [if_neg hblock, if_neg hblock]
      rfl
  | token t =>
    rw [fold?, foldBrace?]
    by_cases h : t.token.kind = .leftBrace ∧ t.parent.kind.isLua = true
    · have hblock : ¬t.parent.kind.isBlock = true := fun hblock => by
        rw [NodeKind.isLua_of_isBlock hblock] at h
        cases h.2
      rw [if_pos h, if_pos h, Option.bind_some, NodeRef.fold?, if_neg hblock, if_pos h.2]
    · rw [if_neg h, if_neg h]
      rfl

/-! ## The order of folds -/

/-- A block begins with its `{`. -/
theorem NodeKind.exists_leftBrace {kind : NodeKind} {children : List (Tree Token)}
    (hblock : kind.isBlock = true) (h : kind.Admits children) :
    ∃ l more, children = .leaf l :: more ∧ l.kind = .leftBrace := by
  obtain ⟨P, hpattern⟩ : ∃ P : Pattern, ∀ keyword, kind.pattern keyword = .braces P := by
    cases kind <;> first | cases hblock; done | exact ⟨_, fun _ => rfl⟩
  rw [Admits, hpattern] at h
  obtain ⟨u, hu, v, -, hsymbols⟩ := Language.mem_mul.1 h
  rw [Pattern.mem_token.1 hu, List.singleton_append, eq_comm] at hsymbols
  obtain ⟨t, more, rfl, ht, -⟩ := List.map_eq_cons_iff.1 hsymbols
  obtain ⟨l, rfl, hl⟩ := Tree.exists_leaf_of_symbol ht
  exact ⟨l, more, rfl, hl⟩

namespace NodeRef

/-- A token that comes first in a node is the first one of its kind. -/
theorem token?_of_head {n : NodeRef} {l : Token} {more : List (Tree Token)} {kind : TokenKind}
    (h : n.children = .leaf l :: more) (hl : l.kind = kind) :
    n.token? kind = some ⟨l, n.start, 0 :: n.address, n⟩ := by
  rw [token?, tokens_eq, h, placeAll, place, List.filterMap_cons]
  exact List.find?_cons_of_pos (beq_iff_eq.2 hl)

/-- The braces that are met from a node on. -/
theorem foldBraces_node (parent : NodeRef) (position offset : Nat) (kind : NodeKind)
    (children : List (Tree Token)) :
    let n : NodeRef :=
      ⟨⟨kind, children, offset, position :: parent.address⟩, parent.toSite :: parent.above⟩
    (treeEvents parent position offset (.node kind children)).filterMap Event.foldBrace?
      = (Event.foldBrace? (.enter n)).toList
        ++ (forestEvents n 0 offset children).filterMap Event.foldBrace? := by
  intro n
  rw [treeEvents, List.filterMap_cons, List.filterMap_append]
  cases Event.foldBrace? (.enter n) <;> simp [Event.foldBrace?, n]

/-- The tokens that are met from a node on. -/
theorem tokens_node (parent : NodeRef) (position offset : Nat) (kind : NodeKind)
    (children : List (Tree Token)) :
    (treeEvents parent position offset (.node kind children)).filterMap Event.token?
      = (forestEvents ⟨⟨kind, children, offset, position :: parent.address⟩,
          parent.toSite :: parent.above⟩ 0 offset children).filterMap Event.token? := by
  simp only [treeEvents, List.filterMap_cons, List.filterMap_append, List.filterMap_nil,
    Event.token?, List.append_nil]

/-- The `{` of a block is met when the walk enters the block, and not again. -/
theorem sublist_block {n : NodeRef} {l : Token} {more : List (Tree Token)}
    (hblock : n.kind.isBlock = true) (hchildren : n.children = .leaf l :: more)
    (hl : l.kind = .leftBrace)
    (hmore : ((forestEvents n 1 (n.start + l.fullSize) more).filterMap Event.foldBrace?).Sublist
      ((forestEvents n 1 (n.start + l.fullSize) more).filterMap Event.token?)) :
    ((Event.foldBrace? (.enter n)).toList
        ++ (forestEvents n 0 n.start n.children).filterMap Event.foldBrace?).Sublist
      ((forestEvents n 0 n.start n.children).filterMap Event.token?) := by
  have hlua : ¬(l.kind = .leftBrace ∧ n.kind.isLua = true) := by
    rw [NodeKind.isLua_of_isBlock hblock]
    rintro ⟨-, ⟨⟩⟩
  rw [hchildren, Event.foldBrace?, if_pos hblock, token?_of_head hchildren hl, Option.toList_some,
    forestEvents, treeEvents, List.singleton_append, List.singleton_append, List.filterMap_cons,
    Event.foldBrace?, if_neg hlua]
  exact hmore.cons_cons _

mutual

theorem sublist_treeEvents (parent : NodeRef) (position offset : Nat) : (t : Tree Token) →
    t.Shaped → ((treeEvents parent position offset t).filterMap Event.foldBrace?).Sublist
      ((treeEvents parent position offset t).filterMap Event.token?)
  | .leaf token, _ => by
    rw [treeEvents, List.filterMap_cons, List.filterMap_cons, Event.foldBrace?, Event.token?]
    split
    · exact List.nil_sublist _
    · next heq =>
      split at heq
      · cases heq
        exact .refl _
      · cases heq
  | .node kind children, h => by
    have hsuffix := sublist_forestEvents ⟨⟨kind, children, offset, position :: parent.address⟩,
      parent.toSite :: parent.above⟩ children h.2
    rw [foldBraces_node, tokens_node]
    by_cases hblock : kind.isBlock = true
    · obtain ⟨l, more, hchildren, hl⟩ := NodeKind.exists_leftBrace hblock h.1
      have hmore := hsuffix 1 (offset + l.fullSize) more (hchildren ▸ List.suffix_cons _ _)
      exact sublist_block hblock hchildren hl hmore
    · rw [Event.foldBrace?, if_neg hblock]
      exact hsuffix 0 offset children (List.suffix_refl _)

theorem sublist_forestEvents (parent : NodeRef) : (ts : List (Tree Token)) →
    Tree.forestShaped ts → ∀ position offset, ∀ us, us <:+ ts →
    ((forestEvents parent position offset us).filterMap Event.foldBrace?).Sublist
      ((forestEvents parent position offset us).filterMap Event.token?)
  | [], _, _, _, _, hus => by
    rw [List.suffix_nil.1 hus]
    exact .refl _
  | t :: ts, h, position, offset, us, hus => by
    obtain rfl | hus := List.suffix_cons_iff.1 hus
    · rw [forestEvents, List.filterMap_append, List.filterMap_append]
      exact (sublist_treeEvents parent position offset t h.1).append
        (sublist_forestEvents parent ts h.2 (position + 1) _ ts (List.suffix_refl _))
    · exact sublist_forestEvents parent ts h.2 position offset us hus

end

/-- **The braces of folds are met in the order of the text.** -/
theorem sublist_foldBraces {t : SyntaxTree} (hkind : t.kind.isBlock = false)
    (h : t.toTree.Shaped) :
    ((root t).events.filterMap Event.foldBrace?).Sublist (root t).allTokens := by
  have hinner := sublist_forestEvents (root t) t.children h.2 0 0 t.children (List.suffix_refl _)
  have henter : Event.foldBrace? (.enter (root t)) = none := by
    rw [Event.foldBrace?, show (root t).kind = t.kind from rfl, hkind, if_neg Bool.false_ne_true]
  rw [allTokens_eq, events_eq, List.filterMap_cons_none henter, List.filterMap_append]
  exact hinner.append (List.nil_sublist _) |>.trans (by rw [List.append_nil]; exact .refl _)

/-- The folds of a node, by the braces that are met. -/
theorem folds_eq (n : NodeRef) :
    n.folds = (n.events.filterMap Event.foldBrace?).filterMap fun l => l.parent.fold? := by
  rw [folds, List.filterMap_filterMap]
  exact List.filterMap_congr fun e _ => e.fold?_eq

theorem fold?_eq_some {n : NodeRef} {f : Fold} : n.fold? = some f ↔ n.kind.isBraced = true ∧
    ∃ l r, n.token? .leftBrace = some l ∧ n.token? .rightBrace = some r ∧
      l.span.stop ≠ r.span.start ∧
        f = ⟨if n.kind.isLua then .script else .block, l.span.stop, r.span.start⟩ := by
  have hview (kind : FoldKind) : n.bracesView.fold? kind = some f ↔ ∃ l r,
      n.token? .leftBrace = some l ∧ n.token? .rightBrace = some r ∧ l.span.stop ≠ r.span.start ∧
        f = ⟨kind, l.span.stop, r.span.start⟩ := BracesView.fold?_eq_some
  unfold fold? NodeKind.isBraced
  cases hblock : n.kind.isBlock with
  | true => rw [if_pos rfl, NodeKind.isLua_of_isBlock hblock, hview, Bool.true_or]; simp
  | false =>
    rw [if_neg Bool.false_ne_true, Bool.false_or]
    cases hlua : n.kind.isLua with
    | true => rw [if_pos rfl, hview]; simp
    | false => simp

end NodeRef

/-! ## The folds of a text -/

variable {s : Text}

/-- The `{` of a fold belongs to a block or a script, and is the only one. -/
theorem foldBrace_spec {l : TokenRef}
    (hl : l ∈ (NodeRef.root (parse s).tree).events.filterMap Event.foldBrace?) :
    l ∈ tokensOf s ∧ l.token.kind = .leftBrace ∧ l.parent.token? .leftBrace = some l := by
  obtain ⟨e, he, hbrace⟩ := List.mem_filterMap.1 hl
  cases e with
  | leave n => cases hbrace
  | enter n =>
    rw [Event.foldBrace?] at hbrace
    split at hbrace
    · have hn : n ∈ nodesOf s := NodeRef.mem_descendants.2 he
      obtain ⟨hmem, hkind⟩ := NodeRef.token?_eq_some hbrace
      rw [NodeRef.parent_of_mem_tokens hmem]
      exact ⟨mem_tokensOf hn hmem, hkind, hbrace⟩
    · cases hbrace
  | token t =>
    rw [Event.foldBrace?] at hbrace
    split at hbrace
    · next h =>
      cases hbrace
      have hl : l ∈ tokensOf s := NodeRef.mem_allTokens.2 he
      obtain ⟨hparent, hmem⟩ := NodeRef.parent_mem_descendants hl
      have hbraced : l.parent.kind.isBraced = true := by rw [NodeKind.isBraced, h.2, Bool.or_true]
      have hfirst := NodeRef.token?_of_brace ((shaped_parse s).admits hparent) hbraced hmem
        (by rw [h.1]; rfl)
      exact ⟨hl, h.1, h.1 ▸ hfirst⟩
    · cases hbrace

/-- The folds of a text are those of its blocks and scripts. -/
theorem mem_folds_iff {f : Fold} :
    f ∈ (NodeRef.root (parse s).tree).folds ↔ ∃ n ∈ nodesOf s, n.fold? = some f := by
  constructor
  · intro hf
    rw [NodeRef.folds_eq] at hf
    obtain ⟨l, hl, hfold⟩ := List.mem_filterMap.1 hf
    exact ⟨l.parent, (NodeRef.parent_mem_descendants (foldBrace_spec hl).1).1, hfold⟩
  · rintro ⟨n, hn, hfold⟩
    unfold NodeRef.folds
    rw [List.mem_filterMap]
    by_cases hblock : n.kind.isBlock = true
    · refine ⟨.enter n, NodeRef.mem_descendants.1 hn, ?_⟩
      rw [NodeRef.fold?, if_pos hblock] at hfold
      rw [Event.fold?, if_pos hblock, hfold]
    · rw [NodeRef.fold?, if_neg hblock] at hfold
      split at hfold
      · next hlua =>
        obtain ⟨l, r, hl, -, -, -⟩ := BracesView.fold?_eq_some.1 hfold
        obtain ⟨hmem, hkind⟩ := NodeRef.token?_eq_some hl
        have hparent := NodeRef.parent_of_mem_tokens hmem
        refine ⟨.token l, NodeRef.mem_allTokens.1 (mem_tokensOf hn hmem), ?_⟩
        rw [Event.fold?, if_pos ⟨hkind, by rw [hparent]; exact hlua⟩, hparent, hfold]
      · cases hfold

/-- What is between the braces of a pair. -/
def innerSpan (pair : PlacedToken × PlacedToken) : Span := ⟨pair.1.span.stop, pair.2.span.start⟩

/-- Two ranges lie apart, or one within the other. -/
def Span.Laminar (a b : Span) : Prop :=
  a.stop ≤ b.start ∨ b.stop ≤ a.start ∨ a.contains b = true ∨ b.contains a = true

theorem Span.laminar_self (a : Span) : a.Laminar a := by
  simp [Laminar, contains]

theorem Span.Laminar.symm {a b : Span} (h : a.Laminar b) : b.Laminar a := by
  rcases h with h | h | h | h
  · exact .inr (.inl h)
  · exact .inl h
  · exact .inr (.inr (.inr h))
  · exact .inr (.inr (.inl h))

instance : Std.Symm Span.Laminar where
  symm _ _ h := h.symm

/-- The folds are the pairs of braces that a stack finds, unless nothing is between the braces. -/
structure FoldsAgree (s : Text) (folds : List Fold) : Prop where
  increasing : folds.Pairwise fun f g => f.span.start < g.span.start
  /-- There is one fold for each pair. -/
  spans : (folds.map (·.span)).Perm (((matchBraces (tokenize s).tokens).pairs.map innerSpan).filter
    fun span => span.start < span.stop)
  /-- A fold is one of a script just where the `{` is a child of a script. -/
  kind : ∀ f ∈ folds, ∃ l ∈ tokensOf s, l.token.kind = .leftBrace ∧ l.span.stop = f.span.start ∧
    (f.kind = .script ↔ l.parent.kind.isLua = true)
  laminar : ∀ f ∈ folds, ∀ g ∈ folds, f.span.Laminar g.span
  /-- No `{` that is left open begins a fold. -/
  opened : ∀ l ∈ (matchBraces (tokenize s).tokens).opened, ∀ f ∈ folds, f.span.start ≠ l.span.stop
  /-- No `}` that closes nothing ends one. -/
  unmatched : ∀ r ∈ (matchBraces (tokenize s).tokens).unmatched, ∀ f ∈ folds,
    f.span.stop ≠ r.span.start

/-! ## The folds are the pairs -/

/-- Folds begin one after the other. -/
theorem pairwise_folds (s : Text) :
    (NodeRef.root (parse s).tree).folds.Pairwise fun f g => f.span.start < g.span.start := by
  have hroot : (parse s).tree.kind.isBlock = false := by
    rw [parse_tree]
    rfl
  have hbraces := (NodeRef.pairwise_stop_allTokens _).sublist
    (NodeRef.sublist_foldBraces hroot (shaped_parse s))
  have hstart : ∀ l ∈ (NodeRef.root (parse s).tree).events.filterMap Event.foldBrace?,
      ∀ f ∈ l.parent.fold?, f.span.start = l.span.stop := by
    intro l hl f hf
    obtain ⟨-, l', -, hl', -, -, rfl⟩ := NodeRef.fold?_eq_some.1 hf
    rw [(foldBrace_spec hl).2.2] at hl'
    rw [Option.some.inj hl']
  rw [NodeRef.folds_eq, List.pairwise_filterMap]
  refine hbraces.imp_of_mem fun {l k} hl hk hle f hf g hg => ?_
  obtain ⟨hmem, hkind, -⟩ := foldBrace_spec hk
  have hlt : k.span.start < k.span.stop := TokenRef.start_lt_stop
    (text_ne_nil_of_mem hmem (by rw [hkind]; decide) (by rw [hkind]; decide))
  rw [hstart l hl f hf, hstart k hk g hg]
  omega

/-- A fold has the range between the braces of a pair. -/
theorem mem_map_span_folds (h : NotTooDeep s) {span : Span} :
    span ∈ (NodeRef.root (parse s).tree).folds.map (·.span) ↔
      ∃ pair ∈ (matchBraces (tokenize s).tokens).pairs,
        innerSpan pair = span ∧ span.start ≠ span.stop := by
  constructor
  · intro hspan
    obtain ⟨f, hf, rfl⟩ := List.mem_map.1 hspan
    obtain ⟨n, hn, hfold⟩ := mem_folds_iff.1 hf
    obtain ⟨hbraced, l, r, hl, hr, hne, rfl⟩ := NodeRef.fold?_eq_some.1 hfold
    exact ⟨(l.placed, r.placed), (mem_pairs_iff h).2 ⟨n, hn, hbraced, l, r, hl, hr, rfl, rfl⟩,
      rfl, hne⟩
  · rintro ⟨⟨_, _⟩, hpair, rfl, hne⟩
    obtain ⟨n, hn, hbraced, l, r, hl, hr, rfl, rfl⟩ := (mem_pairs_iff h).1 hpair
    have hfold := NodeRef.fold?_eq_some.2 ⟨hbraced, l, r, hl, hr, hne, rfl⟩
    exact List.mem_map.2 ⟨_, mem_folds_iff.2 ⟨n, hn, hfold⟩, rfl⟩

/-- Two pairs of braces are apart, or one stands inside of the other. -/
theorem innerSpan_laminar {p q : PlacedToken × PlacedToken}
    (h : p.2.span.stop ≤ q.1.span.start ∨ q.1.span.stop ≤ p.1.span.start)
    (hstop : p.2.span.stop ≤ q.2.span.start) : (innerSpan p).Laminar (innerSpan q) := by
  have hp := p.2.start_le_stop
  rcases h with h | h
  · have hq := q.1.start_le_stop
    refine .inl ?_
    simp only [innerSpan]
    omega
  · have hq := p.1.start_le_stop
    refine .inr (.inr (.inr ?_))
    simp only [Span.contains, innerSpan, Bool.and_eq_true]
    exact ⟨decide_eq_true (by omega), decide_eq_true (by omega)⟩

/-- **Folds are exactly the pairs of braces with something between them**, where no block is nested
too deep. -/
theorem folds_parse (s : Text) (h : NotTooDeep s) :
    FoldsAgree s (NodeRef.root (parse s).tree).folds := by
  have hlaminar := laminar_matchBraces (pairwise_tokens s)
  have hpair : ∀ f ∈ (NodeRef.root (parse s).tree).folds,
      ∃ pair ∈ (matchBraces (tokenize s).tokens).pairs, innerSpan pair = f.span := by
    intro f hf
    obtain ⟨pair, hpair, hspan, -⟩ := (mem_map_span_folds h).1 (List.mem_map_of_mem hf)
    exact ⟨pair, hpair, hspan⟩
  have hnonempty : ∀ pair ∈ (matchBraces (tokenize s).tokens).pairs,
      pair.1.span.start < pair.1.span.stop ∧ pair.2.span.start < pair.2.span.stop := by
    rintro ⟨l, r⟩ hpair
    obtain ⟨⟨hl, hlk⟩, hr, hrk⟩ := mem_of_mem_pairs hpair
    have hlk : l.token.kind = .leftBrace := hlk
    have hrk : r.token.kind = .rightBrace := hrk
    exact ⟨start_lt_stop_of_mem hl (by rw [hlk]; decide),
      start_lt_stop_of_mem hr (by rw [hrk]; decide)⟩
  constructor
  case increasing => exact pairwise_folds s
  case spans =>
    refine (List.perm_ext_iff_of_nodup ?_ ?_).2 fun span => ?_
    · refine List.pairwise_map.2 ((pairwise_folds s).imp fun hlt heq => ?_)
      rw [heq] at hlt
      exact Nat.lt_irrefl _ hlt
    · refine .filter _ (List.pairwise_map.2 (hlaminar.pairs.imp_of_mem fun {p q} hp _ hpq heq => ?_))
      have hstart : p.2.span.start = q.2.span.start := congrArg Span.stop heq
      have hlt := (hnonempty p hp).2
      have hle := hpq.1
      omega
    · rw [mem_map_span_folds h, List.mem_filter, List.mem_map, decide_eq_true_eq]
      constructor
      · rintro ⟨pair, hpair, rfl, hne⟩
        exact ⟨⟨pair, hpair, rfl⟩, Nat.lt_of_le_of_ne (hlaminar.ordered pair hpair) hne⟩
      · rintro ⟨⟨pair, hpair, rfl⟩, hlt⟩
        exact ⟨pair, hpair, rfl, Nat.ne_of_lt hlt⟩
  case kind =>
    intro f hf
    obtain ⟨n, hn, hfold⟩ := mem_folds_iff.1 hf
    obtain ⟨-, l, r, hl, -, -, rfl⟩ := NodeRef.fold?_eq_some.1 hfold
    obtain ⟨hmem, hkind⟩ := NodeRef.token?_eq_some hl
    refine ⟨l, mem_tokensOf hn hmem, hkind, rfl, ?_⟩
    rw [NodeRef.parent_of_mem_tokens hmem]
    cases n.kind.isLua <;> simp
  case laminar =>
    intro f hf g hg
    obtain ⟨p, hp, hpf⟩ := hpair f hf
    obtain ⟨q, hq, hqg⟩ := hpair g hg
    rw [← hpf, ← hqg]
    have hpairs : ((matchBraces (tokenize s).tokens).pairs.map innerSpan).Pairwise Span.Laminar :=
      List.pairwise_map.2 (hlaminar.pairs.imp fun hpq => innerSpan_laminar hpq.2 hpq.1)
    exact hpairs.forall_of_forall (fun span _ => span.laminar_self) (List.mem_map_of_mem hp)
      (List.mem_map_of_mem hq)
  case opened =>
    intro l hl f hf heq
    obtain ⟨p, hp, hspan⟩ := hpair f hf
    obtain ⟨hmem, hkind : l.token.kind = .leftBrace⟩ := mem_of_mem_opened hl
    have hstart : p.1.span.stop = l.span.stop := by rw [← heq, ← hspan]; rfl
    have hlt := start_lt_stop_of_mem hmem (by rw [hkind]; decide)
    have hfirst := (hnonempty p hp).1
    have hsecond := (hnonempty p hp).2
    have hordered := hlaminar.ordered p hp
    have hapart := hlaminar.opened_apart l hl p hp
    omega
  case unmatched =>
    intro r hr f hf heq
    obtain ⟨p, hp, hspan⟩ := hpair f hf
    obtain ⟨hmem, hkind : r.token.kind = .rightBrace⟩ := mem_of_mem_unmatched hr
    have hstop : p.2.span.start = r.span.start := by rw [← heq, ← hspan]; rfl
    have hlt := start_lt_stop_of_mem hmem (by rw [hkind]; decide)
    have hfirst := (hnonempty p hp).1
    have hsecond := (hnonempty p hp).2
    have hordered := hlaminar.ordered p hp
    have hapart := hlaminar.unmatched_apart r hr p hp
    omega

/-- A block and a script within a block that is never closed, behind a `}` that closes nothing. -/
theorem folds_parse_unclosed :
    NotTooDeep "\x7da\x7bb\x7bc;\x7dcontent_by_lua_block\x7bx\x7d".toList ∧
      FoldsAgree "\x7da\x7bb\x7bc;\x7dcontent_by_lua_block\x7bx\x7d".toList
        (NodeRef.root
          (parse "\x7da\x7bb\x7bc;\x7dcontent_by_lua_block\x7bx\x7d".toList).tree).folds := by
  have hdeep : NotTooDeep "\x7da\x7bb\x7bc;\x7dcontent_by_lua_block\x7bx\x7d".toList :=
    notTooDeep_iff.2 (by decide +kernel)
  exact ⟨hdeep, folds_parse _ hdeep⟩

end NginxConf
