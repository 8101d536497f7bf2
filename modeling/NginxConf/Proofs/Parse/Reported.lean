import NginxConf.Proofs.Diagnostic.Order
import NginxConf.Proofs.Grammar.Reported
import NginxConf.Proofs.Parse.Braces
import NginxConf.Proofs.SyntaxTree.Outline

/-!
# Nothing is given up silently

Where a text cannot be made sense of, its tree has an error node or a malformed token, and for each
of them there is a report in the same place (`errors_reported`).

What has been built of the text comes with its reports (`Rule.reported_file`), so all that is left
is to find the nodes and tokens of the finished tree in it.
-/

namespace NginxConf

/-! ## Places in a row of tokens -/

/-- Each token ends before the next one begins. -/
theorem Tile.pairwise_stop_le {ps : List PlacedToken} {start stop : Nat} (h : Tile start ps stop) :
    ps.Pairwise fun p q => p.span.stop ≤ q.span.start := by
  induction ps generalizing start with
  | nil => exact .nil
  | cons p ps ih =>
    refine List.pairwise_cons.2 ⟨fun q hq => ?_, ih h.2⟩
    have hstop : p.span.stop ≤ p.offset + p.token.fullSize := p.stop_le_fullStop
    have hstart := (h.2.between.2 q hq).1
    rw [h.1] at hstop
    exact Nat.le_trans hstop hstart

/-- A token in a row begins no earlier than the first one. -/
theorem Tile.first_start_le {first p : PlacedToken} {ps : List PlacedToken} {start stop : Nat}
    (h : Tile start ps stop) (hfirst : ps.head? = some first) (hp : p ∈ ps) :
    first.span.start ≤ p.span.start := by
  obtain ⟨more, rfl⟩ := List.head?_eq_some_iff.1 hfirst
  rcases List.mem_cons.1 hp with rfl | hp
  · exact Nat.le_refl _
  · have hle := (List.pairwise_cons.1 h.pairwise_stop_le).1 p hp
    exact Nat.le_trans first.start_le_stop hle

/-- A token in a row ends no later than the last one. -/
theorem Tile.stop_le_last {last p : PlacedToken} {ps : List PlacedToken} {start stop : Nat}
    (h : Tile start ps stop) (hlast : ps.getLast? = some last) (hp : p ∈ ps) :
    p.span.stop ≤ last.span.stop := by
  obtain ⟨before, rfl⟩ := List.getLast?_eq_some_iff.1 hlast
  rcases List.mem_append.1 hp with hp | hp
  · have hle := (List.pairwise_append.1 h.pairwise_stop_le).2.2 p hp last List.mem_cons_self
    exact Nat.le_trans hle last.start_le_stop
  · rw [List.mem_singleton.1 hp]

/-! ## Error nodes -/

/-- The report says why a node is an error: it begins where the node does, trivia apart, and does
not go beyond it. -/
structure Diagnostic.Explains (d : Diagnostic) (n : NodeRef) : Prop where
  severity : d.severity = .error
  start : d.span.start = n.trimmedSpan.start
  ordered : d.span.start ≤ d.span.stop
  within : n.trimmedSpan.contains d.span = true

/-- An issue that explains a node of tokens in their places explains the node of the finished tree,
too. -/
theorem Issue.Explains.diagnostic {i : Issue PlacedToken} {n : NodeRef} {m : Node PlacedToken}
    (h : i.Explains m) (hn : n.StandsFor m) : i.diagnostic.Explains n := by
  obtain ⟨hwarning, first, last, hplace, hfirst, hlast⟩ := h
  obtain ⟨stop, htile⟩ := hn.tile
  have hne : m.leaves ≠ [] := List.ne_nil_of_mem hlast
  obtain ⟨final, hfinal⟩ : ∃ final, m.leaves.getLast? = some final :=
    ⟨_, List.getLast?_eq_some_getLast hne⟩
  have hspan : i.diagnostic.span = ⟨first.span.start, last.span.stop⟩ := by
    rw [Issue.diagnostic, hplace]
    rfl
  have htrimmed : n.trimmedSpan = ⟨first.span.start, final.span.stop⟩ := by
    have hleaves : Tree.forestLeaves m.children = m.leaves := Tree.forestLeaves_eq _
    have hchildren : n.children = Tree.forestMap PlacedToken.token m.children := by
      rw [hn.children, Tree.forestMap_eq]
    rw [NodeRef.trimmedSpan_eq hchildren, hull, hleaves, hfirst, hfinal]
    · rw [hleaves]
      exact htile
    · rw [hleaves]
      exact hne
  have hordered : first.span.start ≤ last.span.stop :=
    Nat.le_trans (htile.first_start_le hfirst hlast) last.start_le_stop
  have hstop : last.span.stop ≤ final.span.stop := htile.stop_le_last hfinal hlast
  constructor
  · rw [Issue.diagnostic, hwarning]
    rfl
  · rw [hspan, htrimmed]
  · rw [hspan]
    exact hordered
  · rw [hspan, htrimmed, Span.contains]
    simpa using hstop

theorem reported_fileOutcome (s : Text) : Reported [] .origin (fileOutcome s) :=
  Rule.reported_file _ _

/-- **Each error node of a text is explained by one of its reports.** -/
theorem exists_explains_of_mem {s : Text} {n : NodeRef} (hn : n ∈ nodesOf s)
    (hkind : n.kind = .error) : ∃ d ∈ (parse s).diagnostics, d.Explains n := by
  obtain ⟨m, hm, hstands⟩ := exists_standsFor hn (by rw [hkind]; decide)
  have hfault : ∀ p ∈ (fileOutcome s).read, Lexical.kind p = .malformed →
      (Lexical.fault p).isSome := by
    intro p hp hmalformed
    rw [read_fileOutcome] at hp
    exact (tokenize_shaped hp).isFaulty_iff.2 hmalformed
  obtain ⟨i, hi, hexplains⟩ := (reported_fileOutcome s).exists_explains hfault m hm
    (hstands.kind.symm.trans hkind)
  refine ⟨i.diagnostic, ?_, hexplains.diagnostic hstands⟩
  rw [parse_diagnostics, (Diagnostic.sort_perm _).mem_iff]
  exact List.mem_map_of_mem hi

/-! ## Malformed tokens -/

/-- Tokens that stand one after the other are where they have been put. -/
theorem NodeRef.Consecutive.map_placed {offset stop : Nat} {ts : List TokenRef}
    {ps : List PlacedToken} (ht : Consecutive offset ts) (hp : Tile offset ps stop)
    (h : ts.map TokenRef.token = ps.map PlacedToken.token) :
    ts.map TokenRef.placed = ps.map PlacedToken.faultless := by
  induction ts generalizing offset ps with
  | nil =>
    rw [List.map_nil, eq_comm, List.map_eq_nil_iff] at h
    rw [h]
    rfl
  | cons t ts ih =>
    obtain ⟨p, ps, rfl, htoken, hmore⟩ := List.map_eq_cons_iff.1 h.symm
    obtain ⟨hstart, ht⟩ := ht
    obtain ⟨hoffset, hp⟩ := hp
    rw [← htoken] at ht
    rw [List.map_cons, List.map_cons, ih ht hp hmore.symm, TokenRef.placed, PlacedToken.faultless,
      htoken, hstart, hoffset]

/-- **The tokens that a walk meets are those of the text, in their places.** -/
theorem map_placed_allTokens (s : Text) :
    (NodeRef.root (parse s).tree).allTokens.map TokenRef.placed
      = (tokenize s).all.map PlacedToken.faultless := by
  refine (NodeRef.consecutive_allTokens _).map_placed (tile_tokenize s) ?_
  rw [NodeRef.map_token_allTokens, Tree.forestLeaves_eq]
  exact leaves_parse s

/-- The issue that a faulty token is. -/
theorem Outcome.flatMap_faultOf {α : Type} [Lexical α] (ts : List α) :
    ts.flatMap faultOf = ts.filterMap fun t =>
      (Lexical.fault t).map fun fault => ⟨.malformed fault, .across t t⟩ := by
  rw [List.filterMap_eq_flatMap_toList]
  congr 1
  funext t
  rw [faultOf]
  cases Lexical.fault t <;> rfl

/-- The reports of the lexer, in the order of the tokens that they are about. -/
theorem filter_lexer_diagnostics (s : Text) :
    (parse s).diagnostics.filter (·.origin == .lexer)
      = ((tokenize s).tokens.flatMap Outcome.faultOf).map Issue.diagnostic := by
  have horigin : ((·.origin == .lexer) ∘ Issue.diagnostic : Issue PlacedToken → Bool)
      = (·.problem.isLexical) := by
    funext i
    cases hlexical : i.problem.isLexical <;> simp [Issue.diagnostic, hlexical]
  have hlexical := (reported_fileOutcome s).filter_isLexical
  rw [read_fileOutcome] at hlexical
  rw [parse_diagnostics, Diagnostic.filter_sort, List.filter_map, horigin, hlexical,
    Outcome.flatMap_faultOf]
  -- the tokens come in order, so their reports do
  refine Diagnostic.sort_of_sorted (List.pairwise_map.2 ?_)
  refine List.Pairwise.filterMap _ ?_ (tile_attachTrivia 0 [] (lex s)).pairwise_stop_le
  intro p q hle i hi j hj
  obtain ⟨fault, -, rfl⟩ := Option.map_eq_some_iff.1 hi
  obtain ⟨fault', -, rfl⟩ := Option.map_eq_some_iff.1 hj
  exact Nat.le_trans p.start_le_stop hle

/-- Each malformed token is reported where it is, and no other token is. -/
theorem map_span_faultOf {ps : List PlacedToken} (h : ∀ p ∈ ps, p.Shaped) :
    ((ps.flatMap Outcome.faultOf).map Issue.diagnostic).map Diagnostic.span
      = (ps.filter (·.token.kind == .malformed)).map PlacedToken.span := by
  induction ps with
  | nil => rfl
  | cons p ps ih =>
    obtain ⟨hp, hps⟩ := List.forall_mem_cons.1 h
    rw [List.flatMap_cons, List.map_append, List.map_append, ih hps, Outcome.faultOf]
    cases hfault : Lexical.fault p with
    | none =>
      have hkind : ¬ p.token.kind = .malformed := by
        intro hkind
        have hsome := hp.isFaulty_iff.2 hkind
        rw [show p.fault = none from hfault] at hsome
        cases hsome
      rw [List.filter_cons_of_neg (by simpa using hkind)]
      rfl
    | some fault =>
      have hsome : p.fault.isSome := by rw [show p.fault = some fault from hfault]; rfl
      have hkind : p.token.kind = .malformed := hp.isFaulty_iff.1 hsome
      rw [List.filter_cons_of_pos (by simpa using hkind)]
      rfl

/-- The malformed tokens of the tree are those of the text. -/
theorem map_span_malformed (s : Text) :
    ((NodeRef.root (parse s).tree).allTokens.filter (·.token.kind == .malformed)).map
        TokenRef.span
      = ((tokenize s).tokens.filter (·.token.kind == .malformed)).map PlacedToken.span := by
  have hplaced := congrArg
    (fun ps : List PlacedToken => (ps.filter (·.token.kind == .malformed)).map PlacedToken.span)
    (map_placed_allTokens s)
  have hend : [(tokenize s).stop].filter
      ((fun p => p.token.kind == .malformed) ∘ PlacedToken.faultless) = [] := by
    refine List.filter_eq_nil_iff.2 fun p hp => ?_
    rw [List.mem_singleton.1 hp, Function.comp, PlacedToken.faultless, kind_stop_tokenize]
    exact Bool.false_ne_true
  simp only [List.filter_map, List.map_map, TokenStream.all, List.filter_append, hend,
    List.append_nil] at hplaced
  exact hplaced

/-- **Nothing is given up silently**: each error node of a text is explained by a report, and the
reports of the lexer are, in order, about the malformed tokens of the tree, each one where its token
is. -/
theorem errors_reported (s : Text) :
    (∀ n ∈ nodesOf s, n.kind = .error → ∃ d ∈ (parse s).diagnostics, d.Explains n) ∧
      ((parse s).diagnostics.filter (·.origin == .lexer)).map Diagnostic.span
        = ((NodeRef.root (parse s).tree).allTokens.filter (·.token.kind == .malformed)).map
          TokenRef.span := by
  refine ⟨fun n hn hkind => exists_explains_of_mem hn hkind, ?_⟩
  rw [filter_lexer_diagnostics, map_span_faultOf fun p hp => tokenize_shaped hp,
    map_span_malformed]

end NginxConf
