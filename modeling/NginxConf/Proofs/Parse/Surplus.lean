import NginxConf.Proofs.Grammar.SurplusEntries
import NginxConf.Proofs.Parse.Machine
import NginxConf.Proofs.Parse.Origin
import NginxConf.Proofs.Parse.Partners
import NginxConf.Proofs.SyntaxTree.Children
import NginxConf.Proofs.SyntaxTree.Cover

/-!
# A surplus is reported once

What stands in a text more often than it can be is kept in its tree: values for which a statement has
no room, entries of a geo block before the `;` of another one, and conditions after the first. The
reports of it are one to one with these parts of the tree, each from the first to the last token of
its part, and entries that stand before the `;` of another one are not reported again
(`surplusReported`).
-/

namespace NginxConf

/-! ## Messages -/

/-- No other problem is reported in these words. -/
theorem Problem.message_eq_iff {p q : Problem} (hq : q.isSurplus = true) :
    p.message = q.message ↔ p = q := by
  refine ⟨fun h => ?_, congrArg message⟩
  cases p with
  | malformed fault => cases q <;> first | cases hq; done | cases fault <;> exact absurd h (by decide)
  | missing what => cases q <;> first | cases hq; done | cases what <;> exact absurd h (by decide)
  | unexpected kind => cases q <;> first | cases hq; done | cases kind <;> exact absurd h (by decide)
  | unfinishedDirective name =>
    rw [show (unfinishedDirective name).message = "expected `;` or `\x7b` after `"
      ++ (String.ofList name ++ "`") from String.append_assoc ..] at h
    cases q <;> first | cases hq; done | exact absurd h (append_ne (by decide) (by decide))
  | scriptWithoutBlock keyword =>
    rw [show (scriptWithoutBlock keyword).message = "expected `\x7b` after `"
      ++ (String.ofList keyword ++ "`") from String.append_assoc ..] at h
    cases q <;> first | cases hq; done | exact absurd h (append_ne (by decide) (by decide))
  | _ => cases q <;> first | cases hq; done | rfl | exact absurd h (by decide)

/-! ## One node -/

namespace NodeRef

/-- Whether the node is made of values only. -/
def hasOnlyValues (n : NodeRef) : Bool := n.nodes.isEmpty && n.tokens.all (·.token.kind.isValue)

/-- The range from the second condition of an `if` to the last one. -/
def extraConditions? (n : NodeRef) : Option Span :=
  match n.nodesOfKind .condition with
  | _ :: second :: more =>
    some ⟨second.trimmedSpan.start, (more.getLastD second).trimmedSpan.stop⟩
  | _ => none

/-- What is to be reported of a node. -/
def surplusDiagnostics (n : NodeRef) : List Diagnostic :=
  if n.kind = .ifStatement then
    n.extraConditions?.toList.map fun span => ⟨span, Problem.extraConditions.message, .warning, .grammar⟩
  else if n.kind = .geoItem then
    (n.nodesOfKind .error).map fun e =>
      ⟨e.trimmedSpan, Problem.extraGeoEntries.message, .error, .grammar⟩
  else if n.kind.limitsValues then
    ((n.nodesOfKind .error).filter hasOnlyValues).map fun e =>
      ⟨e.trimmedSpan, Problem.extraValues.message, .error, .grammar⟩
  else []

end NodeRef

/-! ## Nodes of tokens in their places -/

section Trees

variable {α : Type} [Lexical α]

/-- What is reported of the children of a node is reported of the error nodes among them. -/
theorem Tree.flatMap_surplusIn (parent : NodeKind) (ts : List (Tree α)) :
    ts.flatMap (surplusIn parent) = ((ts.filterMap node?).filter (·.kind == .error)).flatMap
      fun e => (node .error e.children).surplusIn parent := by
  induction ts with
  | nil => rfl
  | cons t ts ih =>
    rw [List.flatMap_cons, ih]
    cases t with
    | leaf => rfl
    | node kind children =>
      rw [List.filterMap_cons, node?, List.filter_cons]
      by_cases hk : kind = .error
      · simp [hk]
      · simp [hk, surplusIn_node hk]

omit [Lexical α] in
/-- The conditions among some trees, as nodes. -/
theorem Tree.filter_isCondition (ts : List (Tree α)) : ts.filter isCondition
    = ((ts.filterMap node?).filter (·.kind == .condition)).map Node.toTree := by
  induction ts with
  | nil => rfl
  | cons t ts ih =>
    cases t with
    | leaf => exact ih
    | node kind children =>
      rw [List.filter_cons, List.filterMap_cons, node?, List.filter_cons, isCondition, ih]
      split <;> rfl

/-- Trees are values exactly if they are tokens, and these are values. -/
theorem Tree.all_isValue (ts : List (Tree α)) : ts.all isValue
    = ((ts.filterMap node?).isEmpty && (row ts).all fun t => (Lexical.kind t).isValue) := by
  induction ts with
  | nil => rfl
  | cons t ts ih =>
    cases t with
    | leaf t =>
      rw [List.all_cons, ih, List.filterMap_cons, node?, row, List.all_cons, isValue]
      exact Bool.and_left_comm _ _ _
    | node => rfl

end Trees

/-- What comes of some elements comes of those in step with them. -/
theorem flatMap_congr_of_forall₂ {α β γ : Type} {R : α → β → Prop} {as : List α} {bs : List β}
    {f : α → List γ} {g : β → List γ} (h : List.Forall₂ R as bs)
    (hfg : ∀ a ∈ as, ∀ b ∈ bs, R a b → f a = g b) : as.flatMap f = bs.flatMap g := by
  induction h with
  | nil => rfl
  | cons hab _ ih =>
    rw [List.flatMap_cons, List.flatMap_cons, hfg _ List.mem_cons_self _ List.mem_cons_self hab,
      ih fun a ha b hb => hfg a (List.mem_cons_of_mem _ ha) b (List.mem_cons_of_mem _ hb)]

namespace NodeRef

variable {n : NodeRef} {m : Node PlacedToken}

/-- A report from the first to the last token of a node has its range without trivia. -/
theorem StandsFor.spanning (h : n.StandsFor m) (hne : m.leaves ≠ []) (problem : Problem) :
    (Issue.spanning problem m.leaves).map Issue.diagnostic
      = [⟨n.trimmedSpan, problem.message, if problem.isWarning then .warning else .error,
          if problem.isLexical then .lexer else .grammar⟩] := by
  obtain ⟨first, hfirst⟩ := Option.ne_none_iff_exists'.1 (mt List.head?_eq_none_iff.1 hne)
  obtain ⟨last, hlast⟩ := Option.ne_none_iff_exists'.1 (mt List.getLast?_eq_none_iff.1 hne)
  rw [Issue.spanning_eq hfirst hlast, h.trimmedSpan hfirst hlast]
  rfl

theorem StandsFor.hasOnlyValues (h : n.StandsFor m) :
    n.hasOnlyValues = m.children.all Tree.isValue := by
  have hnodes : n.nodes.isEmpty = m.nodes.isEmpty := by
    have hnodes := h.nodes
    cases hnodes' : n.nodes <;> cases hm : m.nodes <;> rw [hnodes', hm] at hnodes <;>
      first | rfl | cases hnodes
  have hkinds : n.tokens.all (·.token.kind.isValue)
      = m.row.all fun t => (Lexical.kind t).isValue := by
    have hmap := congrArg (List.all · TokenKind.isValue) h.kinds
    simp only [List.all_map] at hmap
    exact hmap
  rw [NodeRef.hasOnlyValues, hnodes, hkinds, Tree.all_isValue]
  rfl

/-- The last of some nodes in a row ends where the last of their tokens does. -/
theorem exists_last_of_forall₂ {as : List NodeRef} {bs : List (Node PlacedToken)} {a : NodeRef}
    {b : Node PlacedToken} (h : List.Forall₂ StandsFor as bs) (hab : a.StandsFor b)
    (hne : ∀ c ∈ b :: bs, c.leaves ≠ []) :
    ∃ last, ((b :: bs).flatMap Node.leaves).getLast? = some last ∧
      (as.getLastD a).trimmedSpan.stop = last.span.stop := by
  induction h generalizing a b with
  | nil =>
    have hb := hne b List.mem_cons_self
    refine ⟨b.leaves.getLast hb, ?_, ?_⟩
    · rw [List.flatMap_singleton, List.getLast?_eq_some_getLast hb]
    · obtain ⟨first, hfirst⟩ := Option.ne_none_iff_exists'.1 (mt List.head?_eq_none_iff.1 hb)
      rw [List.getLastD_nil, hab.trimmedSpan hfirst (List.getLast?_eq_some_getLast hb)]
  | cons hcd _ ih =>
    obtain ⟨last, hlast, hstop⟩ := ih hcd fun c hc => hne c (List.mem_cons_of_mem _ hc)
    refine ⟨last, ?_, ?_⟩
    · rw [List.flatMap_cons, List.getLast?_append, hlast, Option.some_or]
    · rw [List.getLastD_cons]
      exact hstop

/-- The conditions of an `if` that are reported. -/
theorem StandsFor.extraConditions (h : n.StandsFor m) (hne : ∀ e ∈ m.nodes, e.leaves ≠ []) :
    (Tree.extraConditions m.children).map Issue.diagnostic = n.extraConditions?.toList.map
      fun span => ⟨span, Problem.extraConditions.message, .warning, .grammar⟩ := by
  have hconditions := h.nodesOfKind .condition
  have hne' : ∀ e ∈ m.nodes.filter (·.kind == .condition), e.leaves ≠ [] :=
    fun e he => hne e (List.mem_filter.1 he).1
  have hleaves : ((m.children.filter Tree.isCondition).tail.flatMap Tree.leaves)
      = (m.nodes.filter (·.kind == .condition)).tail.flatMap Node.leaves := by
    rw [Tree.filter_isCondition, ← List.map_tail, List.flatMap_map]
    exact List.flatMap_congr fun e _ => Tree.forestLeaves_eq e.children
  rw [Tree.extraConditions, hleaves, NodeRef.extraConditions?]
  generalize n.nodesOfKind .condition = as at hconditions
  generalize m.nodes.filter (·.kind == .condition) = bs at hconditions hne'
  cases hconditions with
  | nil => rfl
  | cons _ hmore =>
    cases hmore with
    | nil => rfl
    | @cons a b as bs hab hmore =>
      have hmem : ∀ e ∈ b :: bs, e.leaves ≠ [] := fun e he => hne' e (List.mem_cons_of_mem _ he)
      obtain ⟨last, hlast, hstop⟩ := exists_last_of_forall₂ hmore hab hmem
      have hb := hmem b List.mem_cons_self
      obtain ⟨first, hfirst⟩ := Option.ne_none_iff_exists'.1 (mt List.head?_eq_none_iff.1 hb)
      have hstart := hab.trimmedSpan hfirst (List.getLast?_eq_some_getLast hb)
      have hhead : ((b :: bs).flatMap Node.leaves).head? = some first := by
        rw [List.flatMap_cons, List.head?_append, hfirst, Option.some_or]
      rw [List.tail_cons, Issue.spanning_eq hhead hlast, List.map_singleton, Option.toList_some,
        List.map_singleton, hstart, hstop]
      rfl

/-- **What is reported of one node**, read off the finished tree. -/
theorem StandsFor.surplus (h : n.StandsFor m) (hne : ∀ e ∈ m.nodes, e.leaves ≠ []) :
    m.surplus.map Issue.diagnostic = n.surplusDiagnostics := by
  have herrors := h.nodesOfKind .error
  have hne' : ∀ e ∈ m.nodes.filter (·.kind == .error), e.leaves ≠ [] :=
    fun e he => hne e (List.mem_filter.1 he).1
  rw [Node.surplus, surplusDiagnostics, h.kind]
  split
  · exact h.extraConditions hne
  rw [Tree.flatMap_surplusIn, List.map_flatMap]
  change (m.nodes.filter (·.kind == .error)).flatMap _ = _
  split
  · next hkind =>
    rw [List.map_eq_flatMap]
    refine (flatMap_congr_of_forall₂ herrors fun a _ b hb hab => ?_).symm
    rw [Tree.surplusIn, if_pos rfl, if_pos hkind, Tree.forestLeaves_eq]
    exact (hab.spanning (hne' b hb) .extraGeoEntries).symm
  next hgeo =>
  have hchild (e : Node PlacedToken) : (Tree.node .error e.children).surplusIn m.kind
      = if m.kind.limitsValues && e.children.all Tree.isValue then
        Issue.spanning .extraValues e.leaves else [] := by
    rw [Tree.surplusIn, if_pos rfl, if_neg hgeo, Tree.forestLeaves_eq]
    rfl
  split
  · next hlimits =>
    rw [List.map_eq_flatMap, ← flatMap_ite NodeRef.hasOnlyValues]
    refine (flatMap_congr_of_forall₂ herrors fun a _ b hb hab => ?_).symm
    rw [hchild, hlimits, Bool.true_and, hab.hasOnlyValues]
    split
    · exact (hab.spanning (hne' b hb) .extraValues).symm
    · rfl
  · next hlimits =>
    refine List.flatMap_eq_nil_iff.2 fun e _ => ?_
    rw [hchild, Bool.eq_false_iff.2 hlimits, Bool.false_and]
    rfl

end NodeRef

/-! ## The nodes of a text -/

/-- Each node of a tree has tokens. -/
theorem leaves_ne_nil_of_standsFor {s : Text} {n : NodeRef} {m : Node PlacedToken}
    (hn : n ∈ nodesOf s) (h : n.StandsFor m) : ∀ e ∈ m.nodes, e.leaves ≠ [] := by
  intro e he
  have hshaped := (Tree.shaped_node.1 ((shaped_parse s).of_mem_descendants hn)).2 _
    (h.children ▸ List.mem_map_of_mem (Node.mem_nodes.1 he))
  have hleaves := hshaped.leaves_ne_nil
  rw [Tree.leaves_map] at hleaves
  intro hnil
  refine hleaves ?_
  rw [Node.toTree, Tree.leaves, Tree.forestLeaves_eq, show e.children.flatMap Tree.leaves = [] from hnil]
  rfl

/-- **What is reported of a surplus in a text can be read off the nodes of its tree.** -/
theorem surplus_perm (s : Text) :
    (((fileOutcome s).issues.filter (·.problem.isSurplus)).map Issue.diagnostic).Perm
      ((nodesOf s).flatMap NodeRef.surplusDiagnostics) := by
  have hnodes : (nodesOf s).flatMap NodeRef.surplusDiagnostics
      = (⟨.sourceFile, (fileOutcome s).trees ++ [.leaf (tokenize s).stop]⟩
        :: Tree.forestSubnodes (fileOutcome s).trees).flatMap fun m =>
          m.surplus.map Issue.diagnostic :=
    flatMap_congr_of_forall₂ (standsFor_nodesOf s) fun n hn m _ h =>
      (h.surplus (leaves_ne_nil_of_standsFor hn h)).symm
  rw [hnodes, List.flatMap_cons, Tree.surplus_eq_nil (by decide) rfl, ← List.map_flatMap]
  exact (Outcome.tells_file _ _).map _

/-- The reports of one kind of surplus, node by node. -/
theorem filter_message_perm (s : Text) {q : Problem} (hq : q.isSurplus = true) :
    ((parse s).diagnostics.filter (·.message == q.message)).Perm
      ((nodesOf s).flatMap fun n => n.surplusDiagnostics.filter (·.message == q.message)) := by
  have hissues : (fileOutcome s).issues.filter ((·.message == q.message) ∘ Issue.diagnostic)
      = ((fileOutcome s).issues.filter (·.problem.isSurplus)).filter
        ((·.message == q.message) ∘ Issue.diagnostic) := by
    rw [List.filter_filter]
    refine List.filter_congr fun i _ => (Bool.and_eq_left_iff_imp.2 fun h => ?_).symm
    rw [(Problem.message_eq_iff hq).1 (eq_of_beq h)]
    exact hq
  have hsort := (Diagnostic.sort_perm ((fileOutcome s).issues.map Issue.diagnostic)).filter
    (·.message == q.message)
  rw [← parse_diagnostics, List.filter_map, hissues, ← List.filter_map] at hsort
  refine hsort.trans (((surplus_perm s).filter _).trans (.of_eq ?_))
  exact List.filter_flatMap

/-! ## Entries are reported alone -/

/-- A report that begins before a range or behind it does not lie within it, unless it is empty. -/
theorem Issue.not_within {i : Issue PlacedToken} {start stop : Nat}
    (hordered : i.place.span.start ≤ i.place.span.stop)
    (hapart : ∀ first last, i.place = .across first last →
      first.span.start < start ∨ stop ≤ first.span.start) :
    (!i.diagnostic.span.isEmpty && Span.contains ⟨start, stop⟩ i.diagnostic.span) = false := by
  rw [Issue.diagnostic]
  cases hplace : i.place with
  | after token =>
    rw [show (Place.after token).span.isEmpty = true from beq_self_eq_true _]
    rfl
  | across first last =>
    rw [hplace] at hordered
    have hstart := hapart first last hplace
    refine Bool.eq_false_iff.2 fun h => ?_
    obtain ⟨hne, hcontains⟩ := Bool.and_eq_true_iff.1 h
    obtain ⟨hlow, hhigh⟩ := Span.contains_iff.1 hcontains
    have hne : first.span.start ≠ last.span.stop := by simpa [Span.isEmpty, Place.span] using hne
    change start ≤ first.span.start at hlow
    change last.span.stop ≤ stop at hhigh
    change first.span.start ≤ last.span.stop at hordered
    omega

/-- Where the entries that stand before the `;` of another one have been read, and reported. -/
theorem exists_surplusIn {s : Text} {n e : NodeRef} (hn : n ∈ nodesOf s) (hkind : n.kind = .geoItem)
    (he : e ∈ n.nodesOfKind .error) : ∃ m first last front back pre post, e.StandsFor m ∧
      Rule.SurplusIn (fileOutcome s) m.children first last front back pre post := by
  obtain ⟨children, room, t, ts, rule, last, front, back, pre, post, hmade⟩ :=
    exists_making hn (by rw [hkind]; decide)
  have hmakes := hmade.makes
  have htrees := hmade.trees
  have hstands := hmade.standsFor
  rw [hkind] at hmakes htrees hstands
  obtain ⟨-, rfl⟩ := hmakes
  -- the error node is one of the children that the rule has built
  obtain ⟨m, hm, hem⟩ := exists_of_forall₂ (hstands.nodesOfKind .error) he
  obtain ⟨hm, herror⟩ := List.mem_filter.1 hm
  have hchild : .node .error m.children ∈ children := eq_of_beq herror ▸ Node.mem_nodes.1 hm
  have hfault : FaultyIfMalformed (Rule.wholeGeoItem.run room last (t :: ts)).read :=
    fun p hp => (tokenize_shaped (by rw [hmade.tokens_eq]; simp [hp])).isFaulty_iff.1
  obtain ⟨first, final, front', back', pre', post', ht, hin⟩ :=
    Rule.exists_surplus htrees hchild hfault
  refine ⟨m, first, final, front ++ front', back' ++ back, pre ++ pre', post' ++ post, hem, ?_,
    hin.head, hin.getLast, hin.starts, ?_, fun i hi f l hplace => ?_⟩
  · rw [read_fileOutcome, hmade.tokens_eq, hin.read_eq]
    simp only [List.append_assoc]
  · rw [hmade.issues_eq, hin.issues_eq]
    simp only [List.append_assoc, List.cons_append]
  · -- a report made elsewhere may begin at the first token of the entry, which comes before them
    have houter : i ∈ pre ++ post → f ∈ front ∨ f ∈ front' ∨ f ∈ back := fun h =>
      (hmade.apart i h f l hplace).imp_right (Or.imp_left (by rintro rfl; exact ht))
    have hinner : i ∈ pre' ++ post' → f ∈ front' ∨ f ∈ back' := fun h =>
      hin.apart i h f l hplace
    have hi : i ∈ pre ++ post ∨ i ∈ pre' ++ post' := by
      simp only [List.mem_append] at hi ⊢
      rcases hi with (hi | hi) | hi | hi
      · exact .inl (.inl hi)
      · exact .inr (.inl hi)
      · exact .inr (.inr hi)
      · exact .inl (.inr hi)
    rcases hi with hi | hi
    · rcases houter hi with h | h | h
      · exact .inl (List.mem_append_left _ h)
      · exact .inl (List.mem_append_right _ h)
      · exact .inr (List.mem_append_right _ h)
    · rcases hinner hi with h | h
      · exact .inl (List.mem_append_right _ h)
      · exact .inr (List.mem_append_left _ h)

/-- **What stands in an entry of a geo block besides one statement is reported once**, and nothing
else is reported within it. -/
theorem filter_within_extraEntries {s : Text} {n e : NodeRef} (hn : n ∈ nodesOf s)
    (hkind : n.kind = .geoItem) (he : e ∈ n.nodesOfKind .error) :
    (parse s).diagnostics.filter (fun d => !d.span.isEmpty && e.trimmedSpan.contains d.span)
      = [⟨e.trimmedSpan, Problem.extraGeoEntries.message, .error, .grammar⟩] := by
  obtain ⟨m, first, last, front, back, pre, post, hem, hin⟩ := exists_surplusIn hn hkind he
  have hspan := hem.trimmedSpan hin.head hin.getLast
  have hfirst : first ∈ m.leaves := List.mem_of_mem_head? hin.head
  have hlast : last ∈ m.leaves := List.mem_of_getLast? hin.getLast
  have htokens : (tokenize s).tokens = front ++ m.leaves ++ back :=
    (read_fileOutcome s).symm.trans hin.read_eq
  have hstarts := pairwise_start_tokenize s
  have hstops := pairwise_tokens s
  have hordered := (Machine.ordered_tokenize s).start_le_stop (runs_fileOutcome s)
  rw [hin.issues_eq] at hordered
  rw [htokens] at hstarts hstops
  -- all other reports begin before the node or behind it
  have hother : ∀ i ∈ pre ++ post,
      (!i.diagnostic.span.isEmpty && e.trimmedSpan.contains i.diagnostic.span) = false := by
    intro i hi
    have hmem : i ∈ pre ++ ⟨.extraGeoEntries, .across first last⟩ :: post :=
      (List.sublist_cons_self _ _).append_left _ |>.mem hi
    rw [hspan]
    refine Issue.not_within (hordered i hmem) fun f l hplace => ?_
    rcases hin.apart i hi f l hplace with hf | hf
    · have hbefore := (List.pairwise_append.1 (List.pairwise_append.1 hstarts).1).2.2
      exact .inl (hbefore f hf first hfirst)
    · have hbehind := (List.pairwise_append.1 hstops).2.2
      exact .inr (hbehind last (List.mem_append_right _ hlast) f hf)
  have hnone : ∀ is ⊆ pre ++ post, (is.map Issue.diagnostic).filter
      (fun d => !d.span.isEmpty && e.trimmedSpan.contains d.span) = [] := fun is his =>
    List.filter_eq_nil_iff.2 (List.forall_mem_map.2 fun i hi =>
      Bool.eq_false_iff.1 (hother i (his hi)))
  have hmem : first ∈ (tokenize s).tokens := by
    rw [htokens]
    simp [hfirst]
  have hlt := start_lt_stop_of_mem hmem fun h => by
    have hstart := hin.starts
    rw [show Lexical.kind first = .malformed from h] at hstart
    cases hstart
  have hle : first.span.stop ≤ last.span.stop := by
    obtain ⟨stop, htile⟩ := hem.tile
    exact htile.stop_le_last hin.getLast hfirst
  have hthis : (!e.trimmedSpan.isEmpty && e.trimmedSpan.contains e.trimmedSpan) = true := by
    have hne : first.span.start ≠ last.span.stop := by omega
    rw [Bool.and_eq_true_iff, Span.contains_iff, hspan]
    simpa [Span.isEmpty] using hne
  have hdiagnostic : Issue.diagnostic ⟨.extraGeoEntries, .across first last⟩
      = ⟨e.trimmedSpan, Problem.extraGeoEntries.message, .error, .grammar⟩ := by
    rw [hspan]
    rfl
  rw [parse_diagnostics, Diagnostic.filter_sort, hin.issues_eq, List.map_append, List.map_cons,
    List.filter_append, hnone pre (List.subset_append_left _ _), hdiagnostic, List.filter_cons,
    if_pos hthis, hnone post (List.subset_append_right _ _)]
  exact Diagnostic.sort_of_sorted (List.pairwise_singleton _ _)

/-! ## All surplus -/

/-- What stands in a text more often than it can be is reported once. -/
structure SurplusReported (s : Text) : Prop where
  /-- Each error node in an entry of a geo block is reported once, -/
  entries : ((parse s).diagnostics.filter (·.message == Problem.extraGeoEntries.message)).Perm
    ((((nodesOf s).filter (·.kind == .geoItem)).flatMap (·.nodesOfKind .error)).map fun e =>
      ⟨e.trimmedSpan, Problem.extraGeoEntries.message, .error, .grammar⟩)
  /-- and nothing else is reported within it. -/
  entriesAlone : ∀ n ∈ nodesOf s, n.kind = .geoItem → ∀ e ∈ n.nodesOfKind .error,
    (parse s).diagnostics.filter (fun d => !d.span.isEmpty && e.trimmedSpan.contains d.span)
      = [⟨e.trimmedSpan, Problem.extraGeoEntries.message, .error, .grammar⟩]
  /-- Each `if` with more than one condition is warned of once, -/
  conditions : ((parse s).diagnostics.filter (·.message == Problem.extraConditions.message)).Perm
    ((((nodesOf s).filter (·.kind == .ifStatement)).filterMap NodeRef.extraConditions?).map
      fun span => ⟨span, Problem.extraConditions.message, .warning, .grammar⟩)
  /-- and of nothing else. -/
  warnings : ∀ d ∈ (parse s).diagnostics,
    d.severity = .warning ↔ d.message = Problem.extraConditions.message
  /-- Each error node made of values in a statement that limits them is reported once. -/
  values : ((parse s).diagnostics.filter (·.message == Problem.extraValues.message)).Perm
    ((((nodesOf s).filter (·.kind.limitsValues)).flatMap fun n =>
      (n.nodesOfKind .error).filter NodeRef.hasOnlyValues).map fun e =>
        ⟨e.trimmedSpan, Problem.extraValues.message, .error, .grammar⟩)

/-- Reports of one problem are all kept, where it is chosen, and none where another one is. -/
theorem filter_message_map {β : Type} {p q : Problem} (hq : q.isSurplus = true) {span : β → Span}
    {severity : Severity} {origin : Origin} (xs : List β) :
    (xs.map fun x => Diagnostic.mk (span x) p.message severity origin).filter
        (·.message == q.message)
      = if p = q then xs.map fun x => ⟨span x, p.message, severity, origin⟩ else [] := by
  have hsame : ∀ x ∈ xs, ((fun d : Diagnostic => d.message == q.message) ∘
      fun x => ⟨span x, p.message, severity, origin⟩) x = decide (p = q) := by
    intro x _
    rw [Function.comp, Bool.eq_iff_iff, beq_iff_eq, decide_eq_true_iff, Problem.message_eq_iff hq]
  rw [List.filter_map, List.filter_congr hsame]
  split <;> simp [*]

namespace NodeRef

variable (n : NodeRef)

theorem filter_extraConditions :
    n.surplusDiagnostics.filter (·.message == Problem.extraConditions.message)
      = if n.kind == .ifStatement then n.extraConditions?.toList.map fun span =>
          ⟨span, Problem.extraConditions.message, .warning, .grammar⟩ else [] := by
  rw [surplusDiagnostics]
  split
  · next h => rw [filter_message_map (q := .extraConditions) rfl, h]; rfl
  next h =>
  rw [beq_false_of_ne h]
  split
  · rw [filter_message_map (q := .extraConditions) rfl]; rfl
  split
  · rw [filter_message_map (q := .extraConditions) rfl]; rfl
  · rfl

theorem filter_extraGeoEntries :
    n.surplusDiagnostics.filter (·.message == Problem.extraGeoEntries.message)
      = if n.kind == .geoItem then (n.nodesOfKind .error).map fun e =>
          ⟨e.trimmedSpan, Problem.extraGeoEntries.message, .error, .grammar⟩ else [] := by
  rw [surplusDiagnostics]
  split
  · next h => rw [filter_message_map (q := .extraGeoEntries) rfl, h]; rfl
  split
  · next h => rw [filter_message_map (q := .extraGeoEntries) rfl, h]; rfl
  next h =>
  rw [beq_false_of_ne h]
  split
  · rw [filter_message_map (q := .extraGeoEntries) rfl]; rfl
  · rfl

theorem filter_extraValues :
    n.surplusDiagnostics.filter (·.message == Problem.extraValues.message)
      = if n.kind.limitsValues then ((n.nodesOfKind .error).filter hasOnlyValues).map fun e =>
          ⟨e.trimmedSpan, Problem.extraValues.message, .error, .grammar⟩ else [] := by
  rw [surplusDiagnostics]
  split
  · next h => rw [filter_message_map (q := .extraValues) rfl, h]; rfl
  split
  · next h => rw [filter_message_map (q := .extraValues) rfl, h]; rfl
  split
  · rw [filter_message_map (q := .extraValues) rfl]; rfl
  · rfl

end NodeRef

/-- **Each surplus in a text is reported once**: entries of a geo block before the `;` of another one,
conditions after the first, and values for which there is no room. -/
theorem surplusReported (s : Text) : SurplusReported s := by
  constructor
  case entries =>
    have hperm := filter_message_perm s (q := .extraGeoEntries) rfl
    rw [List.map_flatMap, ← flatMap_ite (α := NodeRef) (·.kind == .geoItem)]
    exact hperm.trans (.of_eq (List.flatMap_congr fun n _ => n.filter_extraGeoEntries))
  case entriesAlone => exact fun n hn hkind e he => filter_within_extraEntries hn hkind he
  case conditions =>
    have hperm := filter_message_perm s (q := .extraConditions) rfl
    rw [List.filterMap_eq_flatMap_toList, List.map_flatMap,
      ← flatMap_ite (α := NodeRef) (·.kind == .ifStatement)]
    exact hperm.trans (.of_eq (List.flatMap_congr fun n _ => n.filter_extraConditions))
  case warnings =>
    intro d hd
    rw [parse_diagnostics, (Diagnostic.sort_perm _).mem_iff] at hd
    obtain ⟨i, -, rfl⟩ := List.mem_map.1 hd
    rw [Issue.diagnostic, Problem.message_eq_iff rfl]
    cases i.problem <;> simp [Problem.isWarning]
  case values =>
    have hperm := filter_message_perm s (q := .extraValues) rfl
    rw [List.map_flatMap, ← flatMap_ite (α := NodeRef) (·.kind.limitsValues)]
    exact hperm.trans (.of_eq (List.flatMap_congr fun n _ => n.filter_extraValues))

end NginxConf
