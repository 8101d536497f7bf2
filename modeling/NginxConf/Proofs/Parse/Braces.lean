import NginxConf.Proofs.Grammar.CutOff
import NginxConf.Proofs.Grammar.Nesting
import NginxConf.Proofs.Parse.Clean
import NginxConf.Proofs.Parse.Shape
import NginxConf.Proofs.SyntaxTree.Placed
import NginxConf.Proofs.Tree.BraceRows
import NginxConf.SyntaxTree.View

/-!
# The blocks of a text and its braces

A stack finds the partner of each brace without any grammar. The blocks and scripts of the tree of a
text have just these partners as their braces, whatever is broken in between, and a brace without a
partner is reported (`bracesAgree`). Blocks that are nested too deep are kept as raw tokens, so their
braces are those of one node.
-/

namespace NginxConf

instance : Lexical TokenRef where
  kind t := t.token.kind
  text t := t.token.text
  fault _ := none

namespace NodeRef

/-- The places of the first `{` and the first `}` of a node, where it has both. -/
def bracePair? (n : NodeRef) : Option (Span × Span) :=
  match n.token? .leftBrace, n.token? .rightBrace with
  | some l, some r => some (l.span, r.span)
  | _, _ => none

/-- The place of the first `{` of a node without `}`. -/
def openBrace? (n : NodeRef) : Option Span :=
  match n.token? .leftBrace, n.token? .rightBrace with
  | some l, none => some l.span
  | _, _ => none

/-- A block that is nested too deep, as an error node of raw tokens. -/
def isDeep (n : NodeRef) : Bool := n.kind == .error && Tree.areRaw n.children

/-- An error node of a `}` and nothing else. -/
def isStray (n : NodeRef) : Bool :=
  n.kind == .error && n.children.map Tree.symbol == [.token .rightBrace]

/-- The braces that belong to a node, matched with a stack, by their places. -/
def braces (n : NodeRef) : Braces Span := (matchBraces n.tokens).map TokenRef.span

end NodeRef

/-! ## The braces of one node -/

theorem NodeKind.ne_error_of_isBraced {kind : NodeKind} (h : kind.isBraced = true) :
    (kind == .error) = false := by
  cases kind <;> first | rfl | cases h

theorem Tree.areRaw_of_symbols {ts : List (Tree Token)} {rest : List Symbol}
    (h : ts.map symbol = .token .leftBrace :: rest) (hrest : ∀ s ∈ rest, s.token?.isSome = true) :
    areRaw ts = true := by
  obtain ⟨t, us, rfl, ht, hus⟩ := List.map_eq_cons_iff.1 h
  cases t with
  | leaf a =>
    have ha : Lexical.kind a = .leftBrace := Symbol.token.inj ht
    rw [areRaw, ha, beq_self_eq_true, Bool.true_and, List.all_eq_true]
    intro u hu
    have hsome := hrest u.symbol (hus ▸ List.mem_map_of_mem hu)
    cases u with
    | leaf => rfl
    | node kind children =>
      rw [symbol] at hsome
      split at hsome <;> cases hsome
  | node kind children =>
    rw [symbol] at ht
    split at ht <;> cases ht

namespace NodeRef

variable {n : NodeRef}

theorem map_token_tokens (n : NodeRef) : n.tokens.map TokenRef.token = Tree.row n.children := by
  have h (position start : Nat) (ts : List (Tree Token)) :
      ((n.placeAll position start ts).filterMap ElementRef.token?).map TokenRef.token
        = Tree.row ts := by
    induction ts generalizing position start with
    | nil => rfl
    | cons t ts ih =>
      cases t with
      | leaf token =>
        rw [placeAll, place, List.filterMap_cons, ElementRef.token?, List.map_cons, ih, Tree.row]
      | node kind children =>
        rw [placeAll, place, List.filterMap_cons, ElementRef.token?, ih, Tree.row]
  rw [tokens_eq, h]

/-- The tokens of a node can be seen from its symbols. -/
theorem map_kind_tokens (n : NodeRef) :
    n.tokens.map Lexical.kind = (n.children.map Tree.symbol).filterMap Symbol.token? := by
  rw [filterMap_token?_symbols, ← map_token_tokens, List.map_map]
  rfl

/-- The kinds of the tokens, without the class of all sorts of tokens. -/
theorem map_token_kind (n : NodeRef) : n.tokens.map (·.token.kind)
    = (n.children.map Tree.symbol).filterMap Symbol.token? :=
  n.map_kind_tokens

theorem braceKinds_tokens (n : NodeRef) :
    braceKinds n.tokens = Symbol.braces (n.children.map Tree.symbol) := by
  rw [braceKinds, map_kind_tokens]
  rfl

theorem toList_bracePair? (n : NodeRef) :
    n.bracePair?.toList
      = (NginxConf.bracePair? n.tokens).toList.map (Prod.map TokenRef.span TokenRef.span) := by
  have h (kind : TokenKind) :
      n.token? kind = n.tokens.find? (Lexical.kind · == kind) := rfl
  rw [bracePair?, NginxConf.bracePair?, h, h]
  cases n.tokens.find? _ <;> cases n.tokens.find? _ <;> rfl

theorem toList_openBrace? (n : NodeRef) :
    n.openBrace?.toList = (NginxConf.openBrace? n.tokens).toList.map TokenRef.span := by
  have h (kind : TokenKind) :
      n.token? kind = n.tokens.find? (Lexical.kind · == kind) := rfl
  rw [openBrace?, NginxConf.openBrace?, h, h]
  cases n.tokens.find? _ <;> cases n.tokens.find? _ <;> rfl

/-- What is said of the braces of one node, by what sort of node it is. -/
structure BraceSorts (n : NodeRef) : Prop where
  pairs : n.braces.pairs = (if n.kind.isBraced then n.bracePair?.toList else [])
    ++ if n.isDeep then n.braces.pairs else []
  opened : n.braces.opened = (if n.kind.isBraced then n.openBrace?.toList else [])
    ++ if n.isDeep then n.braces.opened else []
  unmatched : n.braces.unmatched = if n.isStray then n.tokens.map TokenRef.span else []

theorem isDeep_eq_false (h : ∀ rest, n.children.map Tree.symbol ≠ .token .leftBrace :: rest) :
    n.isDeep = false := by
  rw [isDeep, Bool.and_eq_false_iff]
  refine .inr (Bool.eq_false_iff.2 fun hraw => ?_)
  obtain ⟨rest, hrest⟩ := Tree.symbols_of_areRaw hraw
  exact h rest hrest

theorem isStray_eq_false (h : n.children.map Tree.symbol ≠ [.token .rightBrace]) :
    n.isStray = false := by
  rw [isStray, Bool.and_eq_false_iff, beq_eq_false_iff_ne (a := n.children.map Tree.symbol)]
  exact .inr h

/-- Where a node has only one token, that is seen from its symbols. -/
theorem braces_of_single {t : TokenRef} (h : n.tokens = [t]) {kind : TokenKind} {kinds : List TokenKind}
    (hbraces : Symbol.braces (n.children.map Tree.symbol) = kind :: kinds) : t.token.kind = kind := by
  rw [← braceKinds_tokens, h, braceKinds, List.map_singleton, List.filter_cons] at hbraces
  split at hbraces
  · exact (List.cons.inj hbraces).1
  · cases hbraces

/-- **The braces of one node.** -/
theorem braceSorts (h : n.kind.Admits n.children)
    (hsingle : n.kind = .error → n.braces.unmatched = [] ∨ ∃ t, n.tokens = [t]) :
    n.BraceSorts := by
  have hkinds := n.braceKinds_tokens
  cases NodeKind.hasBraces h with
  | braced hkind hbraces =>
    have herror := NodeKind.ne_error_of_isBraced hkind
    have hdeep : n.isDeep = false := by rw [isDeep, herror, Bool.false_and]
    have hstray : n.isStray = false := by rw [isStray, herror, Bool.false_and]
    have hmatch := matchBraces_of_braced (hkinds ▸ hbraces)
    constructor <;> rw [braces, hmatch] <;>
      simp [Braces.map, hkind, hdeep, hstray, toList_bracePair?, toList_openBrace?]
  | deep hkind hsymbols hrest =>
    have hdeep : n.isDeep = true := by
      rw [isDeep, hkind, Tree.areRaw_of_symbols hsymbols hrest]
      rfl
    have hstray : n.isStray = false := isStray_eq_false (by rw [hsymbols]; simp)
    have hbraced : n.kind.isBraced = false := by rw [hkind]; rfl
    refine ⟨by simp [hbraced, hdeep], by simp [hbraced, hdeep], ?_⟩
    rw [hstray, if_neg Bool.false_ne_true]
    refine (hsingle hkind).elim id ?_
    rintro ⟨t, ht⟩
    have hopen : Lexical.kind t = .leftBrace := braces_of_single ht (by rw [hsymbols]; rfl)
    rw [braces, ht, matchBraces_open hopen]
    rfl
  | stray hkind hsymbols =>
    have hdeep : n.isDeep = false := isDeep_eq_false (by rw [hsymbols]; simp)
    have hstray : n.isStray = true := by rw [isStray, hkind, hsymbols]; rfl
    have hbraced : n.kind.isBraced = false := by rw [hkind]; rfl
    obtain ⟨t, ht⟩ : ∃ t, n.tokens = [t] := by
      have hlength : n.tokens.length = (Tree.row n.children).length := by
        rw [← map_token_tokens, List.length_map]
      obtain ⟨child, _, hchildren, hchild, hnil⟩ := List.map_eq_cons_iff.1 hsymbols
      rw [hchildren, List.map_eq_nil_iff.1 hnil] at hlength
      cases child with
      | leaf a => exact List.length_eq_one_iff.1 hlength
      | node kind children =>
        rw [Tree.symbol] at hchild
        split at hchild <;> cases hchild
    have hclose : Lexical.kind t = .rightBrace := braces_of_single ht (by rw [hsymbols]; rfl)
    have hmatch : matchBraces n.tokens = ⟨[], [], [t]⟩ := by
      rw [ht, matchBraces_stray hclose]
    constructor <;> rw [braces, hmatch] <;> simp [Braces.map, hbraced, hdeep, hstray, ht]
  | none hkind hbraces =>
    have hdeep : n.isDeep = false := isDeep_eq_false fun rest h => by rw [h] at hbraces; cases hbraces
    have hstray : n.isStray = false := isStray_eq_false fun h => by rw [h] at hbraces; cases hbraces
    have hmatch : matchBraces n.tokens = .none := by
      rw [hbraces, braceKinds, List.filter_eq_nil_iff] at hkinds
      refine matchBraces_of_forall fun t ht => ⟨fun hk => ?_, fun hk => ?_⟩ <;>
        exact hkinds _ (List.mem_map_of_mem ht) (by rw [hk]; rfl)
    constructor <;> rw [braces, hmatch] <;> simp [Braces.map, Braces.none, hkind, hdeep, hstray]

end NodeRef

/-! ## The nodes of a text -/

/-- The nodes of the tree of a text. -/
def nodesOf (s : Text) : List NodeRef := (NodeRef.root (parse s).tree).descendants

/-- The nodes of the tree are those that the rule for a file has built, and the root. -/
theorem standsFor_nodesOf (s : Text) :
    List.Forall₂ NodeRef.StandsFor (nodesOf s)
      (⟨.sourceFile, (fileOutcome s).trees ++ [.leaf (tokenize s).stop]⟩
        :: Tree.forestSubnodes (fileOutcome s).trees) := by
  have htile : Tile 0 (Node.leaves ⟨.sourceFile, (fileOutcome s).trees ++ [.leaf (tokenize s).stop]⟩)
      (Text.size s) := tile_fileOutcome s
  have hnodes := NodeRef.standsFor_descendants htile
  rw [Node.map, List.map_append, Node.toTree, Tree.subnodes, Tree.forestSubnodes_append] at hnodes
  rw [nodesOf, parse_tree]
  rwa [show Tree.forestSubnodes [Tree.leaf (tokenize s).stop] = [] from rfl,
    List.append_nil] at hnodes

theorem map_places_nodesOf (s : Text) :
    (nodesOf s).map NodeRef.places
      = Node.places ⟨.sourceFile, (fileOutcome s).trees ++ [.leaf (tokenize s).stop]⟩
        :: (Tree.forestSubnodes (fileOutcome s).trees).map Node.places := by
  rw [← List.map_cons, ← List.forall₂_eq_eq_eq, List.forall₂_map_left_iff,
    List.forall₂_map_right_iff]
  exact (standsFor_nodesOf s).imp fun n m hnm => hnm.places_eq

/-- What the braces of a row are, by their places. -/
def bracesAt (places : NodeKind × List PlacedToken) : Braces Span :=
  (matchBraces places.2).map PlacedToken.span

theorem bracesAt_nodeRef (n : NodeRef) : bracesAt n.places = n.braces := by
  rw [bracesAt, NodeRef.places, matchBraces_map (f := TokenRef.placed) (fun _ => rfl),
    Braces.map_map]
  rfl

theorem bracesAt_node (n : Node PlacedToken) :
    bracesAt n.places = (matchBraces n.row).map PlacedToken.span := by
  rw [bracesAt, Node.places, matchBraces_map (f := PlacedToken.faultless) (fun _ => rfl),
    Braces.map_map]
  rfl

theorem nests_fileOutcome (s : Text) : (fileOutcome s).Nests :=
  Outcome.nests_file _ (fits_tokenize s) (calm_tokenize s)

/-- **The braces of a text are those of its nodes.** -/
theorem alike_braces (s : Text) :
    ((matchBraces (tokenize s).tokens).map PlacedToken.span).Alike
      (.sum ((nodesOf s).map NodeRef.braces)) := by
  have hnested := (nests_fileOutcome s).nested
  rw [read_fileOutcome] at hnested
  have hkind : Lexical.kind (tokenize s).stop = .endOfFile := kind_stop_tokenize s
  have hroot : matchBraces (Node.row ⟨.sourceFile, (fileOutcome s).trees ++ [.leaf (tokenize s).stop]⟩)
      = matchBraces (Tree.row (fileOutcome s).trees) := by
    rw [Node.row, Tree.row_append]
    refine (matchBraces_concat _ _).trans (Braces.step_other ?_ ?_) <;> rw [hkind] <;> decide
  have hnodes : (nodesOf s).map NodeRef.braces
      = (matchBraces (Tree.row (fileOutcome s).trees)
        :: (Tree.forestSubnodes (fileOutcome s).trees).map fun n => matchBraces n.row).map
          (Braces.map PlacedToken.span) := by
    have hplaces := congrArg (List.map bracesAt) (map_places_nodesOf s)
    rw [List.map_map, List.map_cons, List.map_map, bracesAt_node, hroot] at hplaces
    rw [List.map_cons, List.map_map, ← show bracesAt ∘ NodeRef.places = NodeRef.braces from
      funext bracesAt_nodeRef, hplaces]
    exact congrArg _ (List.map_congr_left fun n _ => bracesAt_node n)
  rw [hnodes, ← Braces.map_sum]
  exact hnested.map _

/-- A node of the tree, the root apart, is one that the rule for a file has built. -/
theorem exists_standsFor {s : Text} {n : NodeRef} (hn : n ∈ nodesOf s)
    (hkind : n.kind ≠ .sourceFile) :
    ∃ m ∈ Tree.forestSubnodes (fileOutcome s).trees, n.StandsFor m := by
  obtain ⟨m, hm, hstands⟩ := exists_of_forall₂ (standsFor_nodesOf s) hn
  rcases List.mem_cons.1 hm with rfl | hm
  · exact absurd hstands.kind hkind
  · exact ⟨m, hm, hstands⟩

theorem exists_subnode {s : Text} {n : NodeRef} (hn : n ∈ nodesOf s) (hkind : n.kind ≠ .sourceFile) :
    ∃ m ∈ Tree.forestSubnodes (fileOutcome s).trees, m.places = n.places := by
  obtain ⟨m, hm, hstands⟩ := exists_standsFor hn hkind
  exact ⟨m, hm, hstands.places_eq.symm⟩

theorem braceSorts_of_mem {s : Text} {n : NodeRef} (hn : n ∈ nodesOf s) : n.BraceSorts := by
  refine NodeRef.braceSorts ((shaped_parse s).admits hn) fun hkind => ?_
  obtain ⟨m, hm, hplaces⟩ := exists_subnode hn (by rw [hkind]; decide)
  rw [← bracesAt_nodeRef, ← hplaces, bracesAt_node]
  refine ((nests_fileOutcome s).single m hm).imp (fun h => by rw [Braces.map, h]; rfl) ?_
  rintro ⟨r, hr⟩
  have hrow := congrArg (List.length ∘ Prod.snd) hplaces
  simp only [Node.places, NodeRef.places, Function.comp, List.length_map, hr] at hrow
  exact List.length_eq_one_iff.1 hrow.symm

section Lists

variable {α β : Type}

theorem flatMap_ite (p : α → Bool) (f : α → List β) (xs : List α) :
    (xs.flatMap fun x => if p x then f x else []) = (xs.filter p).flatMap f := by
  induction xs with
  | nil => rfl
  | cons x xs ih =>
    rw [List.flatMap_cons, List.filter_cons, ih]
    split <;> rfl

theorem flatMap_ite_toList (p : α → Bool) (f : α → Option β) (xs : List α) :
    (xs.flatMap fun x => if p x then (f x).toList else []) = (xs.filter p).filterMap f := by
  rw [flatMap_ite p fun x => (f x).toList, List.filterMap_eq_flatMap_toList]

end Lists

/-- The `{` of blocks that are not closed, by their places. -/
theorem map_span_unclosed (s : Text) :
    (Tree.unclosed (fileOutcome s).trees).map PlacedToken.span
      = ((nodesOf s).filter (·.kind.isBlock)).filterMap NodeRef.openBrace? := by
  let opened (places : NodeKind × List PlacedToken) : List Span :=
    if places.1.isBlock then (bracesAt places).opened else []
  have hbuilt : (Tree.unclosed (fileOutcome s).trees).map PlacedToken.span
      = ((Tree.forestSubnodes (fileOutcome s).trees).map Node.places).flatMap opened := by
    rw [Tree.unclosed, List.map_flatMap, List.flatMap_map]
    congr 1
    funext n
    show _ = if n.kind.isBlock then (bracesAt n.places).opened else []
    rw [bracesAt_node]
    split <;> rfl
  have hnode : ∀ n ∈ nodesOf s, opened n.places
      = if n.kind.isBlock then n.openBrace?.toList else [] := by
    intro n hn
    show (if n.kind.isBlock then (bracesAt n.places).opened else []) = _
    rw [bracesAt_nodeRef]
    split
    · next hblock =>
      have hdeep : n.isDeep = false := by
        have hkind : (n.kind == .error) = false := by
          generalize n.kind = kind at hblock
          cases kind <;> first | rfl | cases hblock
        rw [NodeRef.isDeep, hkind, Bool.false_and]
      rw [(braceSorts_of_mem hn).opened, NodeKind.isBraced, hblock, hdeep]
      exact List.append_nil _
    · rfl
  have hroot := congrArg (List.flatMap opened) (map_places_nodesOf s)
  rw [List.flatMap_cons, List.flatMap_map] at hroot
  rw [hbuilt, ← flatMap_ite_toList]
  exact hroot.symm.trans (List.flatMap_congr hnode)

/-! ## Reports -/

theorem append_ne {first rest s : String} (hfirst : first.toList ≠ [])
    (h : first.toList.head? ≠ s.toList.head?) : first ++ rest ≠ s := by
  rintro rfl
  rw [String.toList_append, List.head?_append] at h
  cases hc : first.toList with
  | nil => exact hfirst hc
  | cons c cs => exact h (by rw [hc]; rfl)

/-- Other problems are not reported in these words. -/
theorem message_ne {p : Problem} (h : p.isBrace = false) :
    p.message ≠ Problem.unmatchedBrace.message ∧ p.message ≠ Problem.unclosedBrace.message := by
  cases p with
  | malformed fault => cases fault <;> decide
  | missing what => cases what <;> decide
  | unexpected kind => cases kind <;> decide
  | unmatchedBrace | unclosedBrace => cases h
  | unfinishedDirective name =>
    have hmessage : (Problem.unfinishedDirective name).message
        = "expected `;` or `\x7b` after `" ++ (String.ofList name ++ "`") := String.append_assoc ..
    rw [hmessage]
    exact ⟨append_ne (by decide) (by decide), append_ne (by decide) (by decide)⟩
  | scriptWithoutBlock keyword =>
    have hmessage : (Problem.scriptWithoutBlock keyword).message
        = "expected `\x7b` after `" ++ (String.ofList keyword ++ "`") := String.append_assoc ..
    rw [hmessage]
    exact ⟨append_ne (by decide) (by decide), append_ne (by decide) (by decide)⟩
  | _ => decide

/-- A report of a brace tells the problem. -/
theorem message_beq (p : Problem) {q : Problem} (hq : q.isBrace = true) :
    (p.message == q.message) = (p == q) := by
  cases hp : p.isBrace with
  | false =>
    have hne : p ≠ q := by rintro rfl; rw [hq] at hp; cases hp
    rw [beq_eq_false_iff_ne.2 hne, beq_eq_false_iff_ne]
    cases q <;> first | cases hq; done | exact (message_ne hp).1 | exact (message_ne hp).2
  | true =>
    cases p <;> first | cases hp; done | cases q <;> first | cases hq; done | decide

/-- What is reported of braces in these words. -/
theorem map_span_reports (s : Text) {q : Problem} (hq : q.isBrace = true) :
    (((parse s).diagnostics.filter (·.message == q.message)).map (·.span)).Perm
      (((braceIssues (fileOutcome s).issues).filter (·.problem == q)).map (·.place.span)) := by
  rw [parse_diagnostics]
  refine (((Diagnostic.sort_perm _).filter _).map _).trans (.of_eq ?_)
  rw [List.filter_map, List.map_map, braceIssues, List.filter_filter]
  have hissue : ∀ i : Issue PlacedToken, (i.diagnostic.message == q.message)
      = (i.problem == q && i.problem.isBrace) := by
    intro i
    rw [Issue.diagnostic, message_beq _ hq]
    by_cases hi : i.problem = q
    · rw [hi, hq, Bool.and_true]
    · rw [beq_eq_false_iff_ne.2 hi, Bool.false_and]
  rw [show (fun d : Diagnostic => d.message == q.message) ∘ Issue.diagnostic
    = fun i => i.problem == q && i.problem.isBrace from funext hissue]
  rfl

/-- The reports of braces of a file, one for each. -/
theorem reports_perm (s : Text) :
    (((parse s).diagnostics.filter (·.message == Problem.unclosedBrace.message)).map (·.span)).Perm
        ((Tree.unclosed (fileOutcome s).trees).map PlacedToken.span) ∧
      (((parse s).diagnostics.filter (·.message == Problem.unmatchedBrace.message)).map
        (·.span)).Perm ((matchBraces (tokenize s).tokens).unmatched.map PlacedToken.span) := by
  have hissues := (nests_fileOutcome s).issues
  rw [read_fileOutcome] at hissues
  constructor
  · refine (map_span_reports s rfl).trans (((hissues.filter _).map _).trans (.of_eq ?_))
    simp [List.filter_append, List.filter_map, Function.comp_def, Place.span]
  · refine (map_span_reports s rfl).trans (((hissues.filter _).map _).trans (.of_eq ?_))
    simp [List.filter_append, List.filter_map, Function.comp_def, Place.span]

/-- In a row of tokens of a text each brace has a place of its own. -/
theorem nodup_span_braces (s : Text) (kind : TokenKind) (hkind : kind ≠ .malformed) :
    (((tokenize s).tokens.filter (Lexical.kind · == kind)).map PlacedToken.span).Nodup := by
  have hpairwise := (tile_attachTrivia 0 [] (lex s)).pairwise
  refine List.pairwise_map.2 (List.pairwise_filter.2 (hpairwise.imp_of_mem ?_))
  intro p q hp _ hlt hpk _ hspan
  have hshaped := tokenize_shaped hp
  have hne : p.token.kind ≠ .malformed := by
    rw [show p.token.kind = kind from beq_iff_eq.1 hpk]
    exact hkind
  exact absurd (congrArg Span.start hspan) (hlt (hshaped.text_ne_nil (hshaped.fault_eq_none hne))).ne

/-! ## Scripts -/

/-- A script without its `}` ends in a malformed token. -/
theorem exists_tokens_of_openBrace {n : NodeRef} (hadmits : n.kind.Admits n.children)
    (hlua : n.kind.isLua = true) {l : Span} (hl : n.openBrace? = some l) :
    ∃ before t e, n.tokens = before ++ [t, e] ∧ t.token.kind = .leftBrace ∧ t.span = l ∧
      e.token.kind = .malformed := by
  obtain ⟨u, v, hsymbols, hu, hv⟩ := Pattern.exists_script hlua hadmits
  have hkinds := n.map_kind_tokens
  rw [hsymbols, List.filterMap_append] at hkinds
  rw [NodeRef.openBrace?] at hl
  split at hl
  case h_2 => cases hl
  next l' hopen hclose =>
  cases hl
  -- there is a `{`, which does not stand before the script, and no `}`
  have hleft {k : TokenKind} (hk : k = .leftBrace) : k ∉ u.filterMap Symbol.token? := by
    rw [Symbol.braces, List.filter_eq_nil_iff] at hu
    exact fun hmem => hu k hmem (by rw [hk]; rfl)
  have hscript : .leftBrace ∈ v.filterMap Symbol.token? := by
    have hmem := List.mem_map_of_mem (f := Lexical.kind) (List.mem_of_find?_eq_some hopen)
    have hkind : (l'.token.kind == .leftBrace) = true :=
      List.find?_some (p := fun t : TokenRef => t.token.kind == .leftBrace) hopen
    rw [show Lexical.kind l' = .leftBrace from beq_iff_eq.1 hkind, hkinds] at hmem
    exact (List.mem_append.1 hmem).resolve_left (hleft rfl)
  have hright : .rightBrace ∉ v.filterMap Symbol.token? := by
    intro hmem
    have hmem' := List.mem_append_right (u.filterMap Symbol.token?) hmem
    rw [← hkinds] at hmem'
    obtain ⟨r, hr, hkind⟩ := List.mem_map.1 hmem'
    exact List.find?_eq_none.1 hclose r hr (beq_iff_eq.2 hkind)
  obtain rfl : v = [.token .leftBrace, .token .malformed] := by
    have hall : ∀ v ∈ [[.token .leftBrace, .token .luaCode, .token .rightBrace],
        [.token .leftBrace, .token .rightBrace], [.token .leftBrace, .token .malformed],
        [.token .semicolon], []], .leftBrace ∈ v.filterMap Symbol.token? →
        .rightBrace ∉ v.filterMap Symbol.token? → v = [.token .leftBrace, .token .malformed] := by
      decide
    exact hall v (Pattern.mem_script hv) hscript hright
  obtain ⟨before, last, hsplit, hbefore, hlast⟩ := List.map_eq_append_iff.1 hkinds
  obtain ⟨t, _, rfl, ht, hlast⟩ := List.map_eq_cons_iff.1 hlast
  obtain ⟨e, _, rfl, he, hnil⟩ := List.map_eq_cons_iff.1 hlast
  obtain rfl := List.map_eq_nil_iff.1 hnil
  refine ⟨before, t, e, hsplit, ht, ?_, he⟩
  have hnone : before.find? (·.token.kind == .leftBrace) = none := by
    refine List.find?_eq_none.2 fun x hx hkind => hleft (beq_iff_eq.1 hkind) ?_
    rw [← hbefore]
    exact List.mem_map_of_mem hx
  have hfirst : n.token? .leftBrace = some t := by
    rw [NodeRef.token?, hsplit, List.find?_append, hnone, Option.none_or]
    exact List.find?_cons_of_pos (beq_iff_eq.2 ht)
  rw [hfirst] at hopen
  rw [Option.some.inj hopen]

/-- A script without its `}` is one that the text ends. -/
theorem exists_cutOff {s : Text} {n : NodeRef} (hn : n ∈ nodesOf s) (hlua : n.kind.isLua = true)
    {l : Span} (hl : n.openBrace? = some l) :
    ∃ before t e, n.tokens = before ++ [t, e] ∧ t.span = l ∧ e.token.kind = .malformed ∧
      ⟨e.span, LexFault.unterminatedLua.message, .error, .lexer⟩ ∈ (parse s).diagnostics := by
  obtain ⟨before, t, e, htokens, ht, hspan, he⟩ :=
    exists_tokens_of_openBrace ((shaped_parse s).admits hn) hlua hl
  refine ⟨before, t, e, htokens, hspan, he, ?_⟩
  obtain ⟨m, hm, hplaces⟩ := exists_subnode hn (by rintro hkind; rw [hkind] at hlua; cases hlua)
  have hkind : m.kind = n.kind := congrArg Prod.fst hplaces
  have hrow : m.row.map PlacedToken.faultless = n.tokens.map TokenRef.placed :=
    congrArg Prod.snd hplaces
  rw [htokens, List.map_append] at hrow
  obtain ⟨before', last, hsplit, -, hlast⟩ := List.map_eq_append_iff.1 hrow
  obtain ⟨t', _, rfl, ht', hlast⟩ := List.map_eq_cons_iff.1 hlast
  obtain ⟨e', _, rfl, he', hnil⟩ := List.map_eq_cons_iff.1 hlast
  obtain rfl := List.map_eq_nil_iff.1 hnil
  -- the fault of the token is known from the grammar
  have hfault : e'.fault = some .unterminatedLua := by
    have hchain := (Outcome.cutOff_file PlacedToken.origin (fits_tokenize s) (calm_tokenize s)).nodes m hm
      (hkind ▸ hlua)
    rw [hsplit] at hchain
    have hpair := List.isChain_pair.1 (hchain.suffix (List.suffix_append _ _))
    exact hpair ((congrArg (·.token.kind) ht').trans ht) ((congrArg (·.token.kind) he').trans he)
  have hread : e' ∈ (fileOutcome s).read := by
    have hsub := Tree.row_subset_forestLeaves _ m hm
    rw [Tree.forestLeaves_eq] at hsub
    exact hsub (by rw [hsplit]; simp)
  have hissue : (⟨.malformed .unterminatedLua, .across e' e'⟩ : Issue PlacedToken)
      ∈ (fileOutcome s).issues := by
    refine (runs_fileOutcome s).faultOf_subset e' hread ?_
    simp [Outcome.faultOf, show Lexical.fault e' = some .unterminatedLua from hfault]
  have hspan' : e'.span = e.span := congrArg PlacedToken.span he'
  rw [parse_diagnostics, (Diagnostic.sort_perm _).mem_iff]
  exact List.mem_map.2 ⟨_, hissue, by rw [← hspan']; rfl⟩

/-! ## Blocks and braces -/

/-- The braces of the tree of a text are those that a stack matches. -/
structure BracesAgree (s : Text) : Prop where
  /-- The pairs that a stack finds are the pairs of the blocks and scripts, and those among the raw
  tokens of blocks that are nested too deep. -/
  pairs : ((matchBraces (tokenize s).tokens).pairs.map (Prod.map PlacedToken.span PlacedToken.span)).Perm
    (((nodesOf s).filter (·.kind.isBraced)).filterMap NodeRef.bracePair?
      ++ ((nodesOf s).filter NodeRef.isDeep).flatMap (·.braces.pairs))
  /-- The `}` that close nothing are error nodes of their own. -/
  unmatched : ((matchBraces (tokenize s).tokens).unmatched.map PlacedToken.span).Perm
    (((nodesOf s).filter NodeRef.isStray).flatMap (·.tokens.map TokenRef.span))
  /-- Each of them is reported. -/
  unmatched_reported :
    (((parse s).diagnostics.filter (·.message == Problem.unmatchedBrace.message)).map (·.span)).Perm
      ((matchBraces (tokenize s).tokens).unmatched.map PlacedToken.span)
  /-- The `{` that are left open are those of blocks and scripts without a `}`, and those among the
  raw tokens of blocks that are nested too deep. -/
  opened : ((matchBraces (tokenize s).tokens).opened.map PlacedToken.span).Perm
    (((nodesOf s).filter (·.kind.isBraced)).filterMap NodeRef.openBrace?
      ++ ((nodesOf s).filter NodeRef.isDeep).flatMap (·.braces.opened))
  /-- Each of those of blocks is reported. -/
  unclosed_reported :
    (((parse s).diagnostics.filter (·.message == Problem.unclosedBrace.message)).map (·.span)).Perm
      (((nodesOf s).filter (·.kind.isBlock)).filterMap NodeRef.openBrace?)
  /-- Those of scripts have a malformed token after them, the script that the text ends. -/
  scripts : ∀ n ∈ nodesOf s, n.kind.isLua = true → ∀ l, n.openBrace? = some l →
    ∃ before t e, n.tokens = before ++ [t, e] ∧ t.span = l ∧ e.token.kind = .malformed ∧
      ⟨e.span, LexFault.unterminatedLua.message, .error, .lexer⟩ ∈ (parse s).diagnostics
  /-- No brace is reported twice. -/
  once : ∀ q : Problem, q.isBrace = true →
    (((parse s).diagnostics.filter (·.message == q.message)).map (·.span)).Nodup

/-- **The blocks of a text have the braces that a stack matches**, whatever the text is. -/
theorem bracesAgree (s : Text) : BracesAgree s := by
  have halike := alike_braces s
  obtain ⟨hunclosed, hstray⟩ := reports_perm s
  rw [map_span_unclosed] at hunclosed
  have hnodup : ∀ {kind : TokenKind} {us : List PlacedToken}, kind ≠ .malformed →
      us.Sublist ((tokenize s).tokens.filter (Lexical.kind · == kind)) →
      (us.map PlacedToken.span).Nodup :=
    fun hkind hsub => (nodup_span_braces s _ hkind).sublist (hsub.map _)
  have hunmatched : ((matchBraces (tokenize s).tokens).unmatched.map PlacedToken.span).Nodup :=
    hnodup (by decide) (unmatched_sublist _)
  have hopened : ((matchBraces (tokenize s).tokens).opened.map PlacedToken.span).Nodup := by
    have hreverse := hnodup (by decide) (reverse_opened_sublist (tokenize s).tokens)
    rwa [List.map_reverse, List.nodup_reverse] at hreverse
  have hbraces : ((matchBraces (tokenize s).tokens).opened.map PlacedToken.span).Perm
      (((nodesOf s).filter (·.kind.isBraced)).filterMap NodeRef.openBrace?
        ++ ((nodesOf s).filter NodeRef.isDeep).flatMap (·.braces.opened)) := by
    refine halike.opened.trans ((Braces.opened_sum _).trans ?_)
    rw [List.flatMap_map, List.flatMap_congr fun n hn => (braceSorts_of_mem hn).opened]
    refine (List.flatMap_append_perm _ _ _).symm.trans (.of_eq ?_)
    rw [flatMap_ite_toList, flatMap_ite]
  constructor
  case pairs =>
    refine halike.pairs.trans ?_
    rw [Braces.pairs_sum, List.flatMap_map,
      List.flatMap_congr fun n hn => (braceSorts_of_mem hn).pairs]
    refine (List.flatMap_append_perm _ _ _).symm.trans (.of_eq ?_)
    rw [flatMap_ite_toList, flatMap_ite]
  case unmatched =>
    refine halike.unmatched.trans (.of_eq ?_)
    rw [Braces.unmatched_sum, List.flatMap_map,
      List.flatMap_congr fun n hn => (braceSorts_of_mem hn).unmatched, flatMap_ite]
  case unmatched_reported => exact hstray
  case opened => exact hbraces
  case unclosed_reported => exact hunclosed
  case scripts => exact fun n hn hlua l hl => exists_cutOff hn hlua hl
  case once =>
    intro q hq
    cases q with
    | unmatchedBrace => exact hstray.nodup_iff.2 hunmatched
    | unclosedBrace =>
      refine hunclosed.nodup_iff.2 ((hbraces.nodup_iff.1 hopened).of_append_left.sublist ?_)
      refine (List.monotone_filter_right _ fun n hn => ?_).filterMap _
      rw [NodeKind.isBraced, hn, Bool.true_or]
    | _ => cases hq

end NginxConf
