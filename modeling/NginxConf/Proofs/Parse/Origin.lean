import NginxConf.Proofs.Grammar.Origin
import NginxConf.Proofs.Parse.Depth
import NginxConf.Proofs.Parse.Pieces

/-!
# Which rule has built a node of a text

Each node of the tree of a text, the root apart, is what one rule has built of some of its tokens
(`exists_making`), and the kind of the node tells which rule it was. What is reported elsewhere does
not begin at a token of the node, its first one apart.
-/

namespace NginxConf

/-! ## Tokens are apart -/

/-- Only the last token of a text can be empty. -/
theorem pairwise_text_attachTrivia (offset : Nat) (leading : List Trivia) {ls : List Lexeme}
    (h : ls.Pairwise fun l _ => l.text ≠ []) :
    (attachTrivia offset leading ls).tokens.Pairwise fun p _ => p.token.text ≠ [] := by
  fun_induction attachTrivia offset leading ls with
  | case1 => exact .nil
  | case2 _ _ _ _ _ _ ih => exact ih (List.pairwise_cons.1 h).2
  | case3 offset leading l ls kind hkind token more ih =>
    obtain ⟨hl, hls⟩ := List.pairwise_cons.1 h
    refine List.pairwise_cons.2 ⟨fun q hq => ?_, ih (hls.sublist (splitTrailing_suffix ls).sublist)⟩
    cases hrest : ls with
    | nil =>
      have hnone : more.tokens = [] := by
        show (attachTrivia (offset + token.fullSize) [] (splitTrailing ls).2).tokens = []
        rw [hrest, splitTrailing, attachTrivia]
      rw [hnone] at hq
      cases hq
    | cons l' ls' => exact hl l' (hrest ▸ List.mem_cons_self)

theorem pairwise_text_tokenize (s : Text) :
    (tokenize s).tokens.Pairwise fun p _ => p.token.text ≠ [] :=
  pairwise_text_attachTrivia 0 [] (pairwise_lex s)

/-- **Each token of a text begins after the one before it.** -/
theorem pairwise_start_tokenize (s : Text) :
    (tokenize s).tokens.Pairwise fun p q => p.span.start < q.span.start :=
  (tile_attachTrivia 0 [] (lex s)).pairwise.imp₂ (fun _ _ h hp => h hp) (pairwise_text_tokenize s)

/-! ## The run that has built a node -/

/-- A node of a text has been built by a rule of the tokens after `front`, and `back` has been left;
`pre` and `post` is what has been reported elsewhere. -/
structure MadeBy (s : Text) (n : NodeRef) (children : List (Tree PlacedToken)) (room : Nat)
    (t : PlacedToken) (ts : List PlacedToken) (rule : Rule PlacedToken) (last : PlacedToken)
    (front back : List PlacedToken) (pre post : List (Issue PlacedToken)) : Prop where
  makes : rule.Makes t n.kind
  standsFor : n.StandsFor ⟨n.kind, children⟩
  trees : (rule.run room last (t :: ts)).trees = [.node n.kind children]
  tokens_eq : (tokenize s).tokens = front ++ (rule.run room last (t :: ts)).read ++ back
  issues_eq : (fileOutcome s).issues = pre ++ (rule.run room last (t :: ts)).issues ++ post
  apart : ∀ i ∈ pre ++ post, ∀ first last, i.place = .across first last →
    first ∈ front ∨ first = t ∨ first ∈ back

/-- **Each node of a text has been built by a rule for nodes of its kind.** -/
theorem exists_making {s : Text} {n : NodeRef} (hn : n ∈ nodesOf s) (hkind : n.kind ≠ .sourceFile) :
    ∃ children room t ts rule last front back pre post,
      MadeBy s n children room t ts rule last front back pre post := by
  obtain ⟨before, frames, after, children, htrees, hstands, -⟩ := exists_standsFor_in hn hkind
  obtain ⟨room, known, rule, last, here, b, horigin⟩ :=
    (runs_fileOutcome s).exists_origin Rule.nodesIn_file htrees
  have hrun := horigin.runs.eq_run
  obtain ⟨t, ts, rfl, hmakes⟩ := horigin.builds.makes rfl (hrun ▸ horigin.trees)
  obtain ⟨pre, post, hissues, hapart⟩ := horigin.issues_eq
  refine ⟨children, room, t, ts, rule, last, Tree.lead before frames, Tree.tail frames after, pre, post,
    hmakes, hstands, hrun ▸ horigin.trees, ?_, hrun ▸ hissues, fun i hi first last hplace => ?_⟩
  · have hread := read_fileOutcome s
    rw [Outcome.read, htrees] at hread
    rw [← hread, hrun, Outcome.read, horigin.trees]
    simp [Tree.leaves_fill, Tree.lead, Tree.tail, Tree.leaves]
  · rcases hapart i hi first last hplace with h | h | h | h
    · cases h
    · exact .inl h
    · exact .inr (.inl (Option.some.inj h).symm)
    · exact .inr (.inr h)

end NginxConf
