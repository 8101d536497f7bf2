import NginxConf.Editor.Brace
import NginxConf.Proofs.Parse.Parens
import NginxConf.Proofs.Parse.Pieces

/-!
# Brace matching finds the partner

The brace or parenthesis at an offset is the one that touches it, and of two the one that begins
there (`BracketAt`, `braceAt?_eq`). Its partner is looked for among the tokens of its node. Where no
block is nested too deep, that node holds both of a pair that a stack finds, and no other bracket of
their kinds (`partners_iff`). So what is found is the partner, and from the partner the way leads
back (`matchingBrace?_partners`).
-/

namespace NginxConf

/-! ## Pieces at an offset -/

namespace NodeRef

variable {n : NodeRef} {offset : Nat} {l : LeafRef}

/-- The ways to find pieces at an offset. -/
inductive Stops (n : NodeRef) (offset : Nat) : AtOffset → Prop
  | none (h : n.span.touches offset = false ∨ n.leaves = []) : Stops n offset .none
  | single {before after : List LeafRef} {m : LeafRef} (hleaves : n.leaves = before ++ m :: after)
    (hbefore : ∀ k ∈ before, k.span.stop < offset) (hm : m.span.touches offset = true)
    (h : after = [] ∨ m.span.stop ≠ offset) : Stops n offset (.single m)
  | between {before after : List LeafRef} {m r : LeafRef}
    (hleaves : n.leaves = before ++ m :: r :: after)
    (hbefore : ∀ k ∈ before, k.span.stop < offset) (hm : m.span.touches offset = true)
    (hstop : m.span.stop = offset) (hstart : r.span.start = offset) :
    Stops n offset (.between m r)

theorem stops_leafAt (n : NodeRef) (offset : Nat) : Stops n offset (n.leafAt offset) := by
  have hscan := n.scan_leafAt offset
  by_cases hnone : n.span.touches offset = false ∨ n.leaves = []
  · rw [hscan.none_iff.2 hnone]
    exact .none hnone
  rw [not_or, Bool.not_eq_false] at hnone
  obtain ⟨before, m, after, hleaves, hbefore, -, hm, htwo, hone⟩ := hscan.first hnone.1 hnone.2
  by_cases hstop : after = [] ∨ m.span.stop ≠ offset
  · rw [hone hstop]
    exact .single hleaves hbefore hm hstop
  · rw [not_or, not_not] at hstop
    obtain ⟨r, more, rfl⟩ := List.exists_cons_of_ne_nil hstop.1
    obtain ⟨hfound, hstart⟩ := htwo r more rfl hstop.2
    rw [hfound]
    exact .between hleaves hbefore hm hstop.2 hstart

/-- What is found at an offset touches it. -/
theorem touches_of_mem_leafAt (h : l ∈ (n.leafAt offset).toList) :
    l ∈ n.leaves ∧ l.span.touches offset = true := by
  generalize hfound : n.leafAt offset = found at h
  have hstops := n.stops_leafAt offset
  rw [hfound] at hstops
  cases hstops with
  | none => cases h
  | single hleaves _ hm _ =>
    obtain rfl := List.mem_singleton.1 h
    exact ⟨by rw [hleaves]; simp, hm⟩
  | between hleaves _ hm _ hstart =>
    rw [AtOffset.toList, List.mem_cons, List.mem_singleton] at h
    rcases h with rfl | rfl
    · exact ⟨by rw [hleaves]; simp, hm⟩
    · have := l.start_le_stop
      refine ⟨by rw [hleaves]; simp, ?_⟩
      simp only [Span.touches, Bool.and_eq_true, decide_eq_true_eq]
      omega

/-- A piece with text that touches an offset is found there. -/
theorem mem_leafAt_of_touches (hl : l ∈ n.leaves) (htext : l.text ≠ [])
    (htouches : l.span.touches offset = true)
    (hempty : ∀ m ∈ n.leaves, m.text = [] → m.span.start = n.span.stop) :
    l ∈ (n.leafAt offset).toList := by
  have hlt := LeafRef.start_lt_stop htext
  simp only [Span.touches, Bool.and_eq_true, decide_eq_true_eq] at htouches
  generalize hfound : n.leafAt offset = found
  have hstops := n.stops_leafAt offset
  rw [hfound] at hstops
  cases hstops with
  | none h =>
    obtain ⟨before, after, hsplit⟩ := List.append_of_mem hl
    have hamid := amid_leaves hsplit
    have := hamid.start_le
    have := hamid.le_stop
    rcases h with h | h
    · simp only [Span.touches, Bool.and_eq_false_iff, decide_eq_false_iff_not] at h
      omega
    · rw [h] at hl
      cases hl
  | @single before after m hleaves hbefore hm h =>
    have hamid := amid_leaves hleaves
    rw [hleaves, List.mem_append, List.mem_cons] at hl
    rcases hl with hl | rfl | hl
    · have := hbefore l hl
      omega
    · exact List.mem_singleton_self _
    · -- a later piece could only be touched where the one found ends
      have := (hamid.of_after l hl).1
      simp only [Span.touches, Bool.and_eq_true, decide_eq_true_eq] at hm
      rcases h with rfl | h
      · cases hl
      · omega
  | @between before after m r hleaves hbefore hm hstop hstart =>
    rw [← List.singleton_append, ← List.append_assoc] at hleaves
    have hamid := amid_leaves hleaves
    have hmem := hl
    rw [hleaves, List.mem_append, List.mem_append, List.mem_singleton, List.mem_cons] at hl
    rcases hl with (hl | rfl) | rfl | hl
    · have := hbefore l hl
      omega
    · exact List.mem_cons_self
    · exact List.mem_cons_of_mem _ (List.mem_singleton_self _)
    · -- only an empty piece lies between, and it stands at the end
      have := (hamid.of_after l hl).1
      have := hamid.le_stop
      have hr : r.text = [] := by
        by_contra hne
        have := LeafRef.start_lt_stop hne
        omega
      have := r.start_le_stop
      have := hempty r (by rw [hleaves]; simp) hr
      obtain ⟨before', after', hsplit⟩ := List.append_of_mem hmem
      have := (amid_leaves hsplit).le_stop
      omega

end NodeRef

/-! ## The bracket at an offset -/

/-- The braces and parentheses of a text. -/
def brackets (s : Text) : List PlacedToken :=
  (tokenize s).tokens.filter fun p => p.token.kind.partner?.isSome

/-- The brace or parenthesis at an offset: it touches the offset, and if another one does, too, it
is the one that begins there. -/
structure BracketAt (s : Text) (offset : Nat) (p : PlacedToken) : Prop where
  mem : p ∈ brackets s
  touches : p.span.touches offset = true
  right : ∀ q ∈ brackets s, q.span.touches offset = true → q ≠ p → p.span.start = offset

variable {s : Text} {offset : Nat} {p q : PlacedToken}

theorem mem_brackets :
    p ∈ brackets s ↔ p ∈ (tokenize s).tokens ∧ p.token.kind.partner?.isSome = true :=
  List.mem_filter

theorem TokenKind.isSolid_of_partner? {kind : TokenKind} (h : kind.partner?.isSome = true) :
    kind.isSolid = true := by
  cases kind <;> first | cases h; done | rfl

theorem TokenKind.ne_of_partner? {kind : TokenKind} (h : kind.partner?.isSome = true) :
    kind ≠ .endOfFile ∧ kind ≠ .malformed :=
  isSolid_iff.1 (isSolid_of_partner? h)

theorem exists_tokenRef_of_bracket (hp : p ∈ brackets s) :
    ∃ t ∈ tokensOf s, t.placed = p ∧ t.token.kind.partner?.isSome = true := by
  obtain ⟨hmem, hkind⟩ := mem_brackets.1 hp
  obtain ⟨t, ht, rfl⟩ := exists_tokenRef hmem (TokenKind.ne_of_partner? hkind).2
  exact ⟨t, ht, rfl, hkind⟩

theorem placed_mem_brackets {t : TokenRef} (ht : t ∈ tokensOf s)
    (hkind : t.token.kind.partner?.isSome = true) : t.placed ∈ brackets s := by
  obtain ⟨hend, hmalformed⟩ := TokenKind.ne_of_partner? hkind
  exact mem_brackets.2 ⟨placed_mem_tokens ht hend hmalformed, hkind⟩

/-- Brackets that begin at the same offset are the same. -/
theorem eq_of_bracket {t u : TokenRef} (ht : t ∈ tokensOf s) (hu : u ∈ tokensOf s)
    (htk : t.token.kind.partner?.isSome = true) (huk : u.token.kind.partner?.isSome = true)
    (h : t.span.start = u.span.start) : t = u :=
  eq_of_isSolid ht hu (TokenKind.isSolid_of_partner? htk) (TokenKind.isSolid_of_partner? huk) h

/-- A piece of text that is a bracket is a token. -/
theorem exists_core_of_bracket {l : LeafRef} (hl : l ∈ (NodeRef.root (parse s).tree).leaves)
    (hkind : l.kind.partner?.isSome = true) : ∃ t ∈ tokensOf s, l = t.core := by
  obtain ⟨t, ht, hpiece⟩ := List.mem_flatMap.1 hl
  refine ⟨t, ht, ?_⟩
  have htrivia {part : Nat → Part} {index offset : Nat} {ts : List Trivia}
      (h : l ∈ t.placeTrivia part index offset ts) : False := by
    have htrivia := (TokenRef.owner_of_mem_placeTrivia h).2
    cases hl : l.kind with
    | trivia kind => rw [hl] at hkind; cases hkind
    | token kind => rw [LeafRef.isTrivia, hl] at htrivia; cases htrivia
  rw [TokenRef.pieces, List.mem_append, List.mem_cons] at hpiece
  rcases hpiece with h | h | h
  · exact (htrivia h).elim
  · exact h
  · exact (htrivia h).elim

/-- **The bracket at an offset is found.** -/
theorem braceAt?_eq {t : TokenRef} (ht : t ∈ tokensOf s) (hat : BracketAt s offset t.placed) :
    (NodeRef.root (parse s).tree).leafIndex.braceAt? offset = some t.core := by
  have hkind : t.token.kind.partner?.isSome = true := (mem_brackets.1 hat.mem).2
  obtain ⟨hend, hmalformed⟩ := TokenKind.ne_of_partner? hkind
  have hmem : t.core ∈ ((NodeRef.root (parse s).tree).leafAt offset).toList := by
    refine NodeRef.mem_leafAt_of_touches ?_ (text_ne_nil_of_mem ht hend hmalformed) hat.touches ?_
    · exact List.mem_flatMap.2 ⟨t, ht, by simp [TokenRef.pieces]⟩
    · intro m hm htext
      rw [start_of_text_nil hm htext, span_root_parse]
  have hright : ∀ l ∈ ((NodeRef.root (parse s).tree).leafAt offset).toList,
      l.kind.partner?.isSome = true → l.span.start = offset → l = t.core := by
    intro l hl hbracket hstart
    obtain ⟨hleaf, htouches⟩ := NodeRef.touches_of_mem_leafAt hl
    obtain ⟨u, hu, rfl⟩ := exists_core_of_bracket hleaf hbracket
    by_contra hne
    have hplaced : u.placed ≠ t.placed := fun heq =>
      hne (congrArg TokenRef.core
        (eq_of_bracket hu ht hbracket hkind (congrArg (fun p => p.span.start) heq)))
    have htstart := hat.right u.placed (placed_mem_brackets hu hbracket) htouches hplaced
    exact hne (congrArg TokenRef.core
      (eq_of_bracket hu ht hbracket hkind (hstart.trans htstart.symm)))
  have hstops := (NodeRef.root (parse s).tree).stops_leafAt offset
  rw [LeafIndex.braceAt?]
  change (((NodeRef.root (parse s).tree).leafAt offset).toList.reverse.find? _) = _
  generalize (NodeRef.root (parse s).tree).leafAt offset = found at hmem hright hstops
  cases hstops with
  | none => cases hmem
  | single =>
    obtain rfl := List.mem_singleton.1 hmem
    exact List.find?_cons_of_pos hkind
  | @between _ _ m r _ _ _ _ hstart =>
    rw [AtOffset.toList, List.reverse_cons, List.reverse_singleton, List.singleton_append]
    by_cases hr : r.kind.partner?.isSome = true
    · rw [← hright r (by simp [AtOffset.toList]) hr hstart]
      exact List.find?_cons_of_pos hr
    · rw [List.find?_cons_of_neg (p := fun l : LeafRef => l.kind.partner?.isSome) hr]
      rw [AtOffset.toList, List.mem_cons, List.mem_singleton] at hmem
      rcases hmem with rfl | rfl
      · exact List.find?_cons_of_pos hkind
      · exact absurd hkind hr

/-- Where no bracket touches the offset, none is found. -/
theorem braceAt?_eq_none (h : ∀ p ∈ brackets s, p.span.touches offset = false) :
    (NodeRef.root (parse s).tree).leafIndex.braceAt? offset = none := by
  refine List.find?_eq_none.2 fun l hl hkind => ?_
  obtain ⟨hleaf, htouches⟩ := NodeRef.touches_of_mem_leafAt (List.mem_reverse.1 hl)
  obtain ⟨t, ht, rfl⟩ := exists_core_of_bracket hleaf hkind
  have hnot := h t.placed (placed_mem_brackets ht hkind)
  exact absurd (htouches.symm.trans hnot) (by decide)

/-! ## The partner of a bracket -/

/-- The pairs of braces and those of parentheses, found with a stack for each. -/
def bracketPairs (s : Text) : List (PlacedToken × PlacedToken) :=
  (matchBraces (tokenize s).tokens).pairs ++ (matchParens (tokenize s).tokens).pairs

/-- Two brackets are a pair. -/
def Partners (s : Text) (p q : PlacedToken) : Prop :=
  (p, q) ∈ bracketPairs s ∨ (q, p) ∈ bracketPairs s

/-- A kind of token that opens what another one closes. -/
def TokenKind.opens (a b : TokenKind) : Bool :=
  (a == .leftBrace && b == .rightBrace) || (a == .leftParen && b == .rightParen)

theorem TokenKind.partner?_eq_some_iff {a b : TokenKind} :
    a.partner? = some b ↔ a.opens b = true ∨ b.opens a = true := by
  cases a <;> cases b <;> decide

/-- The brackets of a pair are the first of their kinds in a node. -/
theorem mem_bracketPairs_iff (h : NotTooDeep s) :
    (p, q) ∈ bracketPairs s ↔ ∃ n ∈ nodesOf s, ∃ t u, t.token.kind.opens u.token.kind = true ∧
      n.token? t.token.kind = some t ∧ n.token? u.token.kind = some u ∧
        t.placed = p ∧ u.placed = q := by
  unfold bracketPairs
  rw [List.mem_append, mem_pairs_iff h, mem_parens_iff h]
  constructor
  · rintro (⟨n, hn, -, t, u, ht, hu, hp, hq⟩ | ⟨n, hn, t, u, ht, hu, hp, hq⟩) <;>
      obtain ⟨-, htk⟩ := NodeRef.token?_eq_some ht <;>
      obtain ⟨-, huk⟩ := NodeRef.token?_eq_some hu <;>
      exact ⟨n, hn, t, u, by rw [htk, huk]; rfl, htk ▸ ht, huk ▸ hu, hp, hq⟩
  · rintro ⟨n, hn, t, u, hopens, ht, hu, hp, hq⟩
    unfold TokenKind.opens at hopens
    rw [Bool.or_eq_true, Bool.and_eq_true, Bool.and_eq_true, beq_iff_eq, beq_iff_eq, beq_iff_eq,
      beq_iff_eq] at hopens
    rcases hopens with ⟨htk, huk⟩ | ⟨htk, huk⟩
    · left
      have hbraced : n.kind.isBraced = true := by
        have hmem := (NodeRef.token?_eq_some ht).1
        have hholder := holder_of_brace h (mem_tokensOf hn hmem) (by rw [htk]; rfl)
        rw [NodeRef.parent_of_mem_tokens hmem, htk] at hholder
        exact hholder.resolve_right fun hstray => nomatch hstray.1
      rw [htk] at ht
      rw [huk] at hu
      exact ⟨n, hn, hbraced, t, u, ht, hu, hp, hq⟩
    · right
      rw [htk] at ht
      rw [huk] at hu
      exact ⟨n, hn, t, u, ht, hu, hp, hq⟩

/-- A bracket is the first of its kind in its node. -/
theorem token?_of_bracket (h : NotTooDeep s) {t : TokenRef} (ht : t ∈ tokensOf s)
    (hkind : t.token.kind.partner?.isSome = true) :
    t.parent.token? t.token.kind = some t := by
  obtain ⟨hn, hmem⟩ := NodeRef.parent_mem_descendants ht
  have hadmits := (shaped_parse s).admits hn
  have hsort : t.token.kind.isBrace = true ∨ t.token.kind.isParen = true := by
    generalize t.token.kind = kind at hkind
    cases kind <;> first | cases hkind; done | decide
  rcases hsort with hbrace | hparen
  · rcases holder_of_brace h ht hbrace with hbraced | ⟨-, htokens⟩
    · exact NodeRef.token?_of_brace hadmits hbraced hmem hbrace
    · rw [NodeRef.token?, htokens]
      exact List.find?_cons_of_pos (beq_self_eq_true t.token.kind)
  · exact NodeRef.token?_of_paren hadmits (isDeep_of_notTooDeep h hn) hmem hparen

/-- **The partner of a bracket is the first token of the right kind in its node.** -/
theorem partners_iff (h : NotTooDeep s) {t : TokenRef} (ht : t ∈ tokensOf s) {kind : TokenKind}
    (hkind : t.token.kind.partner? = some kind) :
    Partners s t.placed q ↔ ∃ u, t.parent.token? kind = some u ∧ u.placed = q := by
  have hbracket : t.token.kind.partner?.isSome = true := by rw [hkind]; rfl
  have hsame {n : NodeRef} {t' : TokenRef} {k : TokenKind} (hn : n ∈ nodesOf s)
      (ht' : n.token? t'.token.kind = some t') (hk : t'.token.kind.partner? = some k)
      (hplaced : t'.placed = t.placed) : t' = t ∧ t.parent = n ∧ k = kind := by
    have hmem := (NodeRef.token?_eq_some ht').1
    have hstart : t'.span.start = t.span.start := congrArg (fun p => p.span.start) hplaced
    obtain rfl := eq_of_bracket (mem_tokensOf hn hmem) ht (by rw [hk]; rfl) hbracket hstart
    exact ⟨rfl, NodeRef.parent_of_mem_tokens hmem, Option.some.inj (hk.symm.trans hkind)⟩
  unfold Partners
  rw [mem_bracketPairs_iff h, mem_bracketPairs_iff h]
  constructor
  · rintro (⟨n, hn, t', u, hopens, ht', hu, hp, hq⟩ | ⟨n, hn, u, t', hopens, hu, ht', hq, hp⟩)
    · obtain ⟨rfl, hparent, hk⟩ := hsame hn ht' (TokenKind.partner?_eq_some_iff.2 (.inl hopens)) hp
      exact ⟨u, by rw [hparent, ← hk]; exact hu, hq⟩
    · obtain ⟨rfl, hparent, hk⟩ := hsame hn ht' (TokenKind.partner?_eq_some_iff.2 (.inr hopens)) hp
      exact ⟨u, by rw [hparent, ← hk]; exact hu, hq⟩
  · rintro ⟨u, hu, hq⟩
    have hn := (NodeRef.parent_mem_descendants ht).1
    have hfirst := token?_of_bracket h ht hbracket
    have huk := (NodeRef.token?_eq_some hu).2
    rw [← huk] at hkind hu
    rcases TokenKind.partner?_eq_some_iff.1 hkind with hopens | hopens
    · exact .inl ⟨t.parent, hn, t, u, hopens, hfirst, hu, rfl, hq⟩
    · exact .inr ⟨t.parent, hn, u, t, hopens, hu, hfirst, hq, rfl⟩

/-- What is found for a bracket is the start of the first token of the right kind. -/
theorem matchingBrace?_eq {t : TokenRef} (ht : t ∈ tokensOf s)
    (hat : BracketAt s offset t.placed) {kind : TokenKind}
    (hkind : t.token.kind.partner? = some kind) :
    (NodeRef.root (parse s).tree).matchingBrace? offset
      = (t.parent.token? kind).map (·.span.start) := by
  have hcore : t.core.kind.partner? = some kind := hkind
  rw [NodeRef.matchingBrace?, LeafIndex.matchingBrace?, braceAt?_eq ht hat]
  simp only [Option.bind_eq_bind, Option.bind_some, hcore]
  change (t.parent.token? kind).bind _ = _
  cases t.parent.token? kind <;> rfl

/-- The partner of the bracket at each offset is what is found there. -/
structure BracketsFound (s : Text) (find : Nat → Option Nat) : Prop where
  /-- Where no bracket touches the offset, nothing is found. -/
  nothing : ∀ offset, (∀ p ∈ brackets s, p.span.touches offset = false) → find offset = none
  /-- Where one does, there is a bracket at the offset. -/
  bracket : ∀ offset, ∀ p ∈ brackets s, p.span.touches offset = true →
    ∃ q, BracketAt s offset q
  partner : ∀ offset p q, BracketAt s offset p → Partners s p q → find offset = some q.span.start
  alone : ∀ offset p, BracketAt s offset p → (∀ q, ¬Partners s p q) → find offset = none
  /-- From what is found the way leads back. -/
  back : ∀ offset p start, BracketAt s offset p → find offset = some start →
    find start = some p.span.start

/-- Of two tokens of a text, one ends before the other one begins. -/
theorem stop_le_start_of_ne (hp : p ∈ (tokenize s).tokens) (hq : q ∈ (tokenize s).tokens)
    (hne : q ≠ p) : p.span.stop ≤ q.span.start ∨ q.span.stop ≤ p.span.start := by
  have hpairwise := pairwise_tokens s
  obtain ⟨before, after, hsplit⟩ := List.append_of_mem hp
  rw [hsplit] at hpairwise hq
  obtain ⟨-, htail, hcross⟩ := List.pairwise_append.1 hpairwise
  rcases List.mem_append.1 hq with hq | hq
  · exact .inr (hcross q hq p List.mem_cons_self)
  · exact .inl ((List.pairwise_cons.1 htail).1 q (List.mem_of_ne_of_mem hne hq))

/-- Where a bracket touches an offset, there is one at the offset. -/
theorem exists_bracketAt (hp : p ∈ brackets s) (htouches : p.span.touches offset = true) :
    ∃ q, BracketAt s offset q := by
  by_cases hstart : ∃ q ∈ brackets s, q.span.touches offset = true ∧ q.span.start = offset
  · obtain ⟨q, hq, hqtouches, hqstart⟩ := hstart
    exact ⟨q, hq, hqtouches, fun _ _ _ _ => hqstart⟩
  · refine ⟨p, hp, htouches, fun q hq hqtouches hne => absurd ?_ hstart⟩
    refine ⟨q, hq, hqtouches, ?_⟩
    -- two tokens that touch the offset meet there
    obtain ⟨hpmem, -⟩ := mem_brackets.1 hp
    obtain ⟨hqmem, -⟩ := mem_brackets.1 hq
    have hpstart : p.span.start ≠ offset := fun heq => hstart ⟨p, hp, htouches, heq⟩
    have hapart := stop_le_start_of_ne hpmem hqmem hne
    simp only [Span.touches, Bool.and_eq_true, decide_eq_true_eq] at htouches hqtouches
    omega

/-- A bracket is the one at the offset where it begins. -/
theorem bracketAt_start {t : TokenRef} (ht : t ∈ tokensOf s)
    (hkind : t.token.kind.partner?.isSome = true) : BracketAt s t.span.start t.placed := by
  refine ⟨placed_mem_brackets ht hkind, ?_, fun _ _ _ _ => rfl⟩
  have hle : t.span.start ≤ t.span.stop := Nat.le_add_right _ _
  simp only [Span.touches, Bool.and_eq_true, decide_eq_true_eq]
  exact ⟨Nat.le_refl _, hle⟩

/-- **Brace matching finds the partner of the bracket at an offset, and finds back**, where no block
is nested too deep. -/
theorem matchingBrace?_partners (s : Text) (h : NotTooDeep s) :
    BracketsFound s (NodeRef.root (parse s).tree).matchingBrace? := by
  have hfind {offset : Nat} {p : PlacedToken} (hat : BracketAt s offset p) :
      ∃ t ∈ tokensOf s, t.placed = p ∧ ∃ kind, t.token.kind.partner? = some kind ∧
        (NodeRef.root (parse s).tree).matchingBrace? offset
          = (t.parent.token? kind).map (·.span.start) := by
    obtain ⟨t, ht, rfl, hbracket⟩ := exists_tokenRef_of_bracket hat.mem
    obtain ⟨kind, hkind⟩ := Option.isSome_iff_exists.1 hbracket
    exact ⟨t, ht, rfl, kind, hkind, matchingBrace?_eq ht hat hkind⟩
  constructor
  case nothing =>
    intro offset hnone
    rw [NodeRef.matchingBrace?, LeafIndex.matchingBrace?, braceAt?_eq_none hnone]
    rfl
  case bracket => exact fun offset p hp htouches => exists_bracketAt hp htouches
  case partner =>
    intro offset p q hat hpartners
    obtain ⟨t, ht, rfl, kind, hkind, hfound⟩ := hfind hat
    obtain ⟨u, hu, rfl⟩ := (partners_iff h ht hkind).1 hpartners
    rw [hfound, hu]
    rfl
  case alone =>
    intro offset p hat hnone
    obtain ⟨t, ht, rfl, kind, hkind, hfound⟩ := hfind hat
    rw [hfound, Option.map_eq_none_iff, Option.eq_none_iff_forall_ne_some]
    exact fun u hu => hnone u.placed ((partners_iff h ht hkind).2 ⟨u, hu, rfl⟩)
  case back =>
    intro offset p start hat hstart
    obtain ⟨t, ht, rfl, kind, hkind, hfound⟩ := hfind hat
    rw [hfound, Option.map_eq_some_iff] at hstart
    obtain ⟨u, hu, rfl⟩ := hstart
    obtain ⟨hmem, huk⟩ := NodeRef.token?_eq_some hu
    have hback : u.token.kind.partner? = some t.token.kind := by
      rw [huk]
      exact TokenKind.partner?_comm.1 hkind
    have hutokens := mem_tokensOf (NodeRef.parent_mem_descendants ht).1 hmem
    have hbracket : t.token.kind.partner?.isSome = true := by rw [hkind]; rfl
    rw [matchingBrace?_eq hutokens (bracketAt_start hutokens (by rw [hback]; rfl)) hback,
      NodeRef.parent_of_mem_tokens hmem, token?_of_bracket h ht hbracket]
    rfl

/-- An `if` whose block is not closed, with a `}` before it that closes nothing. -/
theorem matchingBrace?_partners_unclosed :
    NotTooDeep "\x7dif ($a)\x7bb;".toList ∧ BracketsFound "\x7dif ($a)\x7bb;".toList
      (NodeRef.root (parse "\x7dif ($a)\x7bb;".toList).tree).matchingBrace? := by
  have hdeep : NotTooDeep "\x7dif ($a)\x7bb;".toList := notTooDeep_iff.2 (by decide +kernel)
  exact ⟨hdeep, matchingBrace?_partners _ hdeep⟩

end NginxConf
