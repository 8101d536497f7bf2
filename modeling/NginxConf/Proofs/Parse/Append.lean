import NginxConf.Proofs.Diagnostic.Order
import NginxConf.Proofs.Grammar.Recovery
import NginxConf.Proofs.Parse.Shape
import NginxConf.Proofs.SyntaxTree.Outline

/-!
# Texts one after the other

Where a text ends with a `;` or a `}` and leaves no `{` open, nothing that is wrong with it has a
say in how a text behind it is parsed (`parse_append`): the statements are those of the one and then
those of the other, further on, and so are the diagnostics.

The tokens of the two texts are known but for their trivia (`map_trimmed_tokenize_append`), and the
rules see no trivia. So the outcomes are put together without trivia (`fileOutcome_append`), and
what is said about a text, its outline and its reports, is read off them.
-/

namespace NginxConf

open PlacedToken (trimmed shift)

/-! ## Texts that are settled -/

/-- Tokens that look the same may come one after the other, too. -/
theorem Stage.Fits.map {α β : Type} [Lexical α] [Lexical β] {f : α → β} (hf : Relabelling f)
    {stage : Stage} {rest : List α} (h : stage.Fits rest) : stage.Fits (rest.map f) := by
  induction rest generalizing stage with
  | nil => exact h
  | cons t ts ih =>
    obtain ⟨hfault, stage', hnext, hmore⟩ := h
    rw [List.map_cons, Fits, hf.fault, hf.kind]
    exact ⟨hfault, stage', hnext, ih hmore⟩

/-- A text that ends with a `;` or a `}` and leaves no `{` open. All else may be wrong with it. -/
structure SettledText (a : Text) : Prop where
  last : ∃ l ∈ (lex a).getLast?, l.kind = .token .semicolon ∨ l.kind = .token .rightBrace
  opened : (matchBraces (tokenize a).tokens).opened = []

/-- The last token of a text is its last lexeme, where this is no trivia. -/
theorem getLast?_map_trimmed_tokenize {a : Text} {l : Lexeme} {kind : TokenKind}
    (hlast : (lex a).getLast? = some l) (hl : l.kind = .token kind) :
    ∃ t, ((tokenize a).tokens.map trimmed).getLast? = some t ∧ Lexical.kind t = kind := by
  obtain ⟨before, hlex⟩ := List.getLast?_eq_some_iff.1 hlast
  rw [map_trimmed_tokenize, hlex, placeLexemes_append, List.filterMap_append, placeLexemes,
    placeLexemes, List.filterMap_cons, PlacedToken.ofLexeme?_token hl, List.filterMap_nil,
    List.getLast?_concat]
  exact ⟨_, rfl, rfl⟩

namespace SettledText

variable {a : Text} (h : SettledText a)

include h

theorem exists_structural : ∃ l, (lex a).getLast? = some l ∧ l.isStructural := by
  obtain ⟨l, hlast, hl⟩ := h.last
  refine ⟨l, hlast, ?_⟩
  rcases hl with hl | hl <;> rw [Lexeme.isStructural, hl] <;> rfl

/-- **The tokens of such a text are settled**, without their trivia. -/
theorem settled : Settled ((tokenize a).tokens.map trimmed) := by
  obtain ⟨l, hlast, hl⟩ := h.last
  obtain ⟨kind, hkind, hterm⟩ :
      ∃ kind : TokenKind, l.kind = .token kind ∧ kind.isTerminator = true := by
    rcases hl with hl | hl <;> exact ⟨_, hl, rfl⟩
  obtain ⟨t, ht, rfl⟩ := getLast?_map_trimmed_tokenize hlast hkind
  have hne := List.ne_nil_of_mem (List.mem_of_getLast? ht)
  obtain ⟨u, us, hcons⟩ := List.exists_cons_of_ne_nil hne
  refine ⟨⟨u, by rw [hcons]; rfl, trivial⟩, ⟨t, ht, hterm⟩, ?_, .normal,
    (fits_tokenize a).map PlacedToken.relabelling_trimmed⟩
  rw [matchBraces_map PlacedToken.relabelling_trimmed.kind, Braces.map, h.opened, List.map_nil]

end SettledText

/-! ## Outcomes -/

theorem map_trimmed_fileOutcome (s : Text) : (fileOutcome s).map trimmed
    = Rule.file.run maxDepth .origin ((tokenize s).tokens.map trimmed) :=
  (run_relabel PlacedToken.relabelling_trimmed (.file PlacedToken.relabelling_trimmed) maxDepth
    .origin (tokenize s).tokens).symm

/-- **What is found in two texts** that stand one after the other is what is found in the first one,
and what is found in the second one, further on. -/
theorem fileOutcome_append {a : Text} (h : SettledText a) (b : Text) :
    (fileOutcome (a ++ b)).trees.map (Tree.map trimmed)
        = (fileOutcome a).trees.map (Tree.map trimmed)
          ++ ((fileOutcome b).trees.map (Tree.map trimmed)).map (Tree.map (shift (Text.size a))) ∧
      (fileOutcome (a ++ b)).issues.map (Issue.map trimmed)
        = (fileOutcome a).issues.map (Issue.map trimmed)
          ++ ((fileOutcome b).issues.map (Issue.map trimmed)).map
            (Issue.map (shift (Text.size a))) := by
  obtain ⟨l, hlast, hl⟩ := h.exists_structural
  have hshift := PlacedToken.relabelling_shift (Text.size a)
  have hwhole := map_trimmed_fileOutcome (a ++ b)
  rw [map_trimmed_tokenize_append hlast hl b, Rule.file_append (.inr h.settled),
    ← map_trimmed_fileOutcome a] at hwhole
  -- the token that is taken for the one before the second text does not matter
  have hsecond := (parseFile_eq ((fileOutcome a).map trimmed).last
      (((tokenize b).tokens.map trimmed).map (shift (Text.size a)))).symm.trans
    (parseFile_eq (shift (Text.size a) .origin) _)
  rw [run_relabel hshift (.file hshift), ← map_trimmed_fileOutcome b] at hsecond
  obtain ⟨htrees, hissues⟩ := Prod.mk.inj hsecond
  constructor
  · exact (congrArg Outcome.trees hwhole).trans (congrArg _ htrees)
  · exact (congrArg Outcome.issues hwhole).trans (congrArg _ hissues)

/-! ## Outlines -/

/-- The outlines of what stands at the top of a text are those of what has been built. -/
theorem map_outline_nodes_parse (s : Text) :
    (NodeRef.root (parse s).tree).nodes.map NodeRef.outline
      = ((fileOutcome s).trees.map Tree.outline).filter Outline.isNode := by
  have hshaped : Tree.forestShaped ((fileOutcome s).trees ++ [Tree.leaf (tokenize s).stop]) := by
    rw [Tree.forestShaped_iff]
    exact List.forall_mem_append.2 ⟨shaped_fileOutcome s, List.forall_mem_singleton.2 trivial⟩
  have htile := tile_fileOutcome s
  rw [← Tree.forestLeaves_eq] at htile
  have houtline := NodeRef.forestOutline_eq (.root (parse s).tree) 0 _ hshaped htile
  rw [Tree.forestMap_eq, Tree.forestOutlines_eq] at houtline
  have hchildren : (NodeRef.root (parse s).tree).children = ((fileOutcome s).trees
      ++ [Tree.leaf (tokenize s).stop]).map (Tree.map PlacedToken.token) := by
    rw [List.map_append]
    exact congrArg Node.children (parse_tree s)
  rw [NodeRef.map_outline_nodes_eq, hchildren]
  refine (congrArg _ houtline).trans ?_
  -- the end of the text is no node
  rw [List.map_append, List.filter_append]
  exact List.append_nil _

/-- A tree that is moved has its outline further on, whatever becomes of its trivia. -/
theorem Tree.outline_moved (n : Nat) (t : Tree PlacedToken) (ht : t.Shaped) :
    ((t.map trimmed).map (shift n)).outline = t.outline.shift n := by
  have hshaped : (t.map trimmed).Shaped :=
    (shaped_map (f := trimmed) (fun _ => rfl) (fun _ => rfl) t).2 ht
  rw [outline_shift n _ hshaped, outline_trimmed]

/-! ## Reports -/

/-- Where the tokens of an issue are moved, so is the report. -/
theorem Issue.diagnostic_map {f : PlacedToken → PlacedToken} {r : Span → Span}
    {i : Issue PlacedToken} (h : (i.place.map f).span = r i.place.span) :
    (i.map f).diagnostic = i.diagnostic.withSpan (r i.diagnostic.span) := by
  rw [map, diagnostic, h]
  rfl

theorem Issue.diagnostic_trimmed (i : Issue PlacedToken) :
    (i.map trimmed).diagnostic = i.diagnostic := by
  have hspan : (i.place.map trimmed).span = id i.place.span := by cases i.place <;> rfl
  rw [diagnostic_map hspan]
  rfl

/-- An issue whose tokens are moved is reported further on. -/
theorem Issue.diagnostic_moved (n : Nat) (i : Issue PlacedToken) :
    ((i.map trimmed).map (shift n)).diagnostic
      = i.diagnostic.withSpan (i.diagnostic.span.shift n) := by
  have hspan : ((i.map trimmed).place.map (shift n)).span = (i.map trimmed).place.span.shift n := by
    cases (i.map trimmed).place <;>
      simp only [Place.map, Place.span, PlacedToken.span_shift, Span.shift, Span.point]
  rw [diagnostic_map (r := (·.shift n)) hspan, diagnostic_trimmed]

/-- No report begins behind the text. -/
theorem start_le_size {s : Text} {i : Issue PlacedToken} (hi : i ∈ (fileOutcome s).issues) :
    i.diagnostic.span.start ≤ Text.size s := by
  obtain ⟨middle, htokens, hstop⟩ := (tile_tokenize s).append
  have hmiddle : middle ≤ Text.size s := hstop.between.1
  have hamong := (runs_fileOutcome s).place_among i hi
  rw [List.nil_append, read_fileOutcome] at hamong
  show i.place.span.start ≤ Text.size s
  cases hplace : i.place with
  | across first last =>
    rw [hplace] at hamong
    have hfirst := (htokens.between.2 first hamong.1).2
    exact Nat.le_trans first.start_le_stop (Nat.le_trans hfirst hmiddle)
  | after token =>
    rw [hplace] at hamong
    rcases List.mem_cons.1 hamong with rfl | htoken
    · exact Nat.zero_le _
    · exact Nat.le_trans (htokens.between.2 token htoken).2 hmiddle

/-! ## Parses -/

/-- Where lists are known but for what a view does not show, the view of them is known. -/
theorem map_view_append {ι κ : Type} {view : ι → κ} {blur move : ι → ι}
    {xs ys zs : List ι} (move' : κ → κ) (hblur : ∀ i, view (blur i) = view i)
    (hmove : ∀ i ∈ ys, view (move (blur i)) = move' (view i))
    (h : zs.map blur = xs.map blur ++ (ys.map blur).map move) :
    zs.map view = xs.map view ++ (ys.map view).map move' := by
  have hkept : ∀ is : List ι, (is.map blur).map view = is.map view := by
    intro is
    rw [List.map_map]
    exact List.map_congr_left fun i _ => hblur i
  have hmoved : ((ys.map blur).map move).map view = (ys.map view).map move' := by
    simp only [List.map_map]
    exact List.map_congr_left hmove
  rw [← hkept zs, h, List.map_append, hkept, hmoved]

/--
**What is wrong with a statement has no say in what comes behind it.** Where a text ends with a `;`
or a `}` and leaves no `{` open, a longer text has the statements of that text and then those of
what was appended, further on by the size of the text; and the same holds of the diagnostics.
-/
theorem parse_append {a : Text} (h : SettledText a) (b : Text) :
    (NodeRef.root (parse (a ++ b)).tree).nodes.map NodeRef.outline
        = (NodeRef.root (parse a).tree).nodes.map NodeRef.outline
          ++ ((NodeRef.root (parse b).tree).nodes.map NodeRef.outline).map (.shift (Text.size a)) ∧
      (parse (a ++ b)).diagnostics = (parse a).diagnostics
        ++ (parse b).diagnostics.map fun d => d.withSpan (d.span.shift (Text.size a)) := by
  obtain ⟨htrees, hissues⟩ := fileOutcome_append h b
  have houtlines := map_view_append (Outline.shift (Text.size a)) Tree.outline_trimmed
    (fun t ht => t.outline_moved (Text.size a) (shaped_fileOutcome b t ht)) htrees
  have hreports := map_view_append (fun d => d.withSpan (d.span.shift (Text.size a)))
    Issue.diagnostic_trimmed (fun i _ => i.diagnostic_moved (Text.size a)) hissues
  constructor
  · rw [map_outline_nodes_parse, map_outline_nodes_parse, map_outline_nodes_parse, houtlines,
      List.filter_append, Outline.filter_isNode_shift]
  · rw [parse_diagnostics, parse_diagnostics, parse_diagnostics, hreports, Diagnostic.sort_append,
      Diagnostic.sort_map]
    · intro c _ d _
      exact (Nat.add_le_add_iff_right).symm
    · -- where the texts meet, the reports about the first one come first
      intro c hc d hd
      obtain ⟨i, hi, rfl⟩ := List.mem_map.1 hc
      obtain ⟨e, -, rfl⟩ := List.mem_map.1 hd
      exact Nat.le_trans (start_le_size hi) (Nat.le_add_left _ _)

/-- An `if` that lacks everything, with a stray brace, and one more behind it. -/
theorem parse_append_stray_braces : SettledText ['i', 'f', '}'] ∧
    (NodeRef.root (parse (['i', 'f', '}'] ++ ['}', 'a'])).tree).nodes.map NodeRef.outline
        = (NodeRef.root (parse ['i', 'f', '}']).tree).nodes.map NodeRef.outline
          ++ ((NodeRef.root (parse ['}', 'a']).tree).nodes.map NodeRef.outline).map
            (.shift (Text.size ['i', 'f', '}'])) ∧
      (parse (['i', 'f', '}'] ++ ['}', 'a'])).diagnostics = (parse ['i', 'f', '}']).diagnostics
        ++ (parse ['}', 'a']).diagnostics.map
          fun d => d.withSpan (d.span.shift (Text.size ['i', 'f', '}'])) := by
  have hlast : (lex ['i', 'f', '}']).getLast? = some (.token .rightBrace ['}']) := by decide +kernel
  have hopened : (matchBraces (tokenize ['i', 'f', '}']).tokens).opened = [] := by decide +kernel
  have hsettled : SettledText ['i', 'f', '}'] := ⟨⟨_, hlast, .inr rfl⟩, hopened⟩
  exact ⟨hsettled, parse_append hsettled ['}', 'a']⟩

end NginxConf
