import NginxConf.Proofs.Lexeme.Partition
import NginxConf.Proofs.Parse.Lossless
import NginxConf.Proofs.Parse.Shape
import NginxConf.Proofs.SyntaxTree.Cover

/-!
# The pieces of a parsed text

The pieces of the tree of a text are its lexemes and the end (`map_lexeme_leaves`), so none of them
is empty but the end, which comes last, and a missing script right before it. To the right of an
offset inside of the text there is therefore the piece that has the next byte
(`exists_right_around`), and where a node begins, trivia apart, there is its first token
(`right?_leafAt_first`).
-/

namespace NginxConf

/-- A piece of text as a lexeme. -/
def LeafRef.lexeme (l : LeafRef) : Lexeme := ⟨l.kind, l.text, none⟩

namespace TokenRef

theorem map_lexeme_placeTrivia (owner : TokenRef) (part : Nat → Part) (index offset : Nat)
    (ts : List Trivia) :
    (owner.placeTrivia part index offset ts).map LeafRef.lexeme = ts.map Trivia.lexeme := by
  induction ts generalizing index offset with
  | nil => rfl
  | cons t ts ih => exact congrArg (t.lexeme :: ·) (ih _ _)

theorem map_lexeme_pieces (t : TokenRef) : t.pieces.map LeafRef.lexeme = t.token.lexemes := by
  rw [pieces, List.map_append, List.map_cons, leading, trailing, map_lexeme_placeTrivia,
    map_lexeme_placeTrivia]
  rfl

end TokenRef

namespace NodeRef

theorem map_lexeme_leaves (t : SyntaxTree) : (root t).leaves.map LeafRef.lexeme = t.lexemes := by
  have htokens : (root t).allTokens.map TokenRef.token = Tree.forestLeaves t.children :=
    (root t).map_token_allTokens
  rw [SyntaxTree.lexemes, Node.leaves, ← Tree.forestLeaves_eq, ← htokens, leaves,
    List.map_flatMap, List.flatMap_map]
  congr 1
  funext u
  exact u.map_lexeme_pieces

/-- To the right of where a piece begins there is the piece, if nothing empty comes before it. -/
theorem right?_leafAt_start {n : NodeRef} {before after : List LeafRef} {l : LeafRef}
    (h : n.leaves = before ++ l :: after) (hbefore : ∀ m ∈ before, m.text ≠ [])
    (hl : before = [] → l.text ≠ [] ∨ after = []) :
    (n.leafAt l.span.start).right? = some l := by
  have hamid := amid_leaves h
  have ht : n.span.touches l.span.start = true :=
    Span.touches_iff.2 ⟨hamid.start_le, Nat.le_trans l.start_le_stop hamid.le_stop⟩
  rcases List.eq_nil_or_concat before with rfl | ⟨init, p, rfl⟩
  · have hnil : ∀ m ∈ ([] : List LeafRef), m.span.stop < l.span.start := by simp
    rw [leafAt_of_split ht h hnil l.start_le_stop]
    rcases hl rfl with hne | rfl
    · rw [LeafRef.meeting_of_ne (Nat.ne_of_gt (LeafRef.start_lt_stop hne))]
      rfl
    · rfl
  · rw [List.concat_eq_append] at h hamid hbefore
    have hstop : p.span.stop = l.span.start := by simpa using hamid.last_before
    have hp : p.span.start < p.span.stop := LeafRef.start_lt_stop (hbefore p (by simp))
    rw [List.append_assoc, List.singleton_append] at h
    have hinit : ∀ m ∈ init, m.span.stop < l.span.start := fun m hm => by
      have := ((amid_leaves h).of_before m hm).2
      omega
    rw [leafAt_of_split ht h hinit (Nat.le_of_eq hstop.symm), List.head?_cons, LeafRef.meeting,
      if_pos hstop]
    rfl

end NodeRef

/-! ## Empty pieces -/

/-- Only the last lexeme of a text can be empty. -/
theorem pairwise_lex (s : Text) : (lex s).Pairwise fun l _ => l.text ≠ [] := by
  rcases List.eq_nil_or_concat (lex s) with hnil | ⟨init, l, hlex⟩
  · rw [hnil]
    exact .nil
  · rw [List.concat_eq_append] at hlex
    have hinit := (lexFrom_text_ne_nil hlex).1
    rw [hlex, List.pairwise_append]
    exact ⟨List.pairwise_of_forall_mem_list fun l hl _ _ => hinit l hl,
      List.pairwise_singleton _ _, fun l hl _ _ => hinit l hl⟩

/-- The pieces of a text are its lexemes and the end. -/
structure PiecesOf (s : Text) (init : List LeafRef) (stop : LeafRef) : Prop where
  leaves : (NodeRef.root (parse s).tree).leaves = init ++ [stop]
  lexemes : init.map LeafRef.lexeme = (lex s).map Lexeme.bare
  stop : stop.lexeme = .token .endOfFile []

theorem exists_piecesOf (s : Text) : ∃ init stop, PiecesOf s init stop := by
  have h := NodeRef.map_lexeme_leaves (parse s).tree
  rw [(isFileOf_parse s).lexemes, List.map_eq_append_iff] at h
  obtain ⟨init, rest, hleaves, hinit, hrest⟩ := h
  obtain ⟨stop, rfl, hstop⟩ := List.map_eq_singleton_iff.1 hrest
  exact ⟨init, stop, hleaves, hinit, hstop⟩

theorem span_root_parse (s : Text) :
    (NodeRef.root (parse s).tree).span = ⟨0, Text.size s⟩ := by
  rw [NodeRef.span, ← NodeRef.size_text, (isFileOf_parse s).rootText]
  simp [NodeRef.root]

namespace PiecesOf

variable {s : Text} {init : List LeafRef} {stop l : LeafRef}

theorem text_stop (h : PiecesOf s init stop) : stop.text = [] := congrArg Lexeme.text h.stop

theorem kind_stop (h : PiecesOf s init stop) : stop.kind = .token .endOfFile :=
  congrArg Lexeme.kind h.stop

/-- Only the last piece before the end can be empty. -/
theorem pairwise (h : PiecesOf s init stop) : init.Pairwise fun l _ => l.text ≠ [] := by
  have hbare : ((lex s).map Lexeme.bare).Pairwise fun l _ => l.text ≠ [] :=
    List.pairwise_map.2 (pairwise_lex s)
  rw [← h.lexemes, List.pairwise_map] at hbare
  exact hbare

/-- Trivia is not empty. -/
theorem trivia (h : PiecesOf s init stop) (hl : l ∈ init) (htrivia : l.isTrivia = true) :
    l.text ≠ [] := by
  have hmem : l.lexeme ∈ (lex s).map Lexeme.bare := h.lexemes ▸ List.mem_map_of_mem hl
  obtain ⟨x, hx, hbare⟩ := List.mem_map.1 hmem
  have hshaped := lexFrom_shaped hx
  have hkind : x.kind = l.kind := congrArg Lexeme.kind hbare
  have hfault : x.fault = none := by
    cases hfault : x.fault with
    | none => rfl
    | some fault =>
      have hmalformed := hshaped.isFaulty_iff.1 (by rw [hfault]; rfl)
      rw [LeafRef.isTrivia, ← hkind, hmalformed] at htrivia
      cases htrivia
  have htext : x.text = l.text := congrArg Lexeme.text hbare
  exact htext ▸ hshaped.text_ne_nil hfault

end PiecesOf

/-- **A piece that is empty stands at the end of the text.** -/
theorem start_of_text_nil {s : Text} {l : LeafRef}
    (hl : l ∈ (NodeRef.root (parse s).tree).leaves) (htext : l.text = []) :
    l.span.start = Text.size s := by
  obtain ⟨init, stop, h⟩ := exists_piecesOf s
  have hend : stop.span.stop = Text.size s := by
    have := (NodeRef.amid_leaves h.leaves).first_after
    rw [span_root_parse] at this
    exact this.symm
  have hempty : ∀ m : LeafRef, m.text = [] → m.span.stop = m.span.start := fun m hm => by
    simp [LeafRef.span, hm]
  have hstop := hempty stop h.text_stop
  rw [h.leaves, List.mem_append, List.mem_singleton] at hl
  rcases hl with hl | rfl
  · obtain ⟨before, after, rfl⟩ := List.append_of_mem hl
    -- nothing comes between an empty piece and the end
    obtain rfl : after = [] := by
      cases after with
      | nil => rfl
      | cons m after =>
        have hpairwise := (List.pairwise_append.1 h.pairwise).2.1
        exact absurd htext ((List.pairwise_cons.1 hpairwise).1 m List.mem_cons_self)
    have hleaves := h.leaves
    rw [List.append_assoc, List.singleton_append] at hleaves
    have hnext : stop.span.start = l.span.stop := (NodeRef.amid_leaves hleaves).first_after
    rw [← hempty l htext, ← hnext, ← hstop, hend]
  · rw [← hstop, hend]

theorem leaves_ne_nil_parse (s : Text) : (NodeRef.root (parse s).tree).leaves ≠ [] := by
  obtain ⟨init, stop, h⟩ := exists_piecesOf s
  simp [h.leaves]

/-! ## To the right of an offset -/

/-- **To the right of an offset inside of a text there is the piece that has the next byte.** -/
theorem exists_right_around {s : Text} {offset : Nat} (h : offset < Text.size s) :
    ∃ l ∈ (NodeRef.root (parse s).tree).leaves,
      ((NodeRef.root (parse s).tree).leafAt offset).right? = some l ∧ l.Around offset := by
  have ht : (NodeRef.root (parse s).tree).span.touches offset = true := by
    rw [span_root_parse]
    exact Span.touches_iff.2 ⟨Nat.zero_le _, Nat.le_of_lt h⟩
  obtain ⟨l, hl, hright, htouches, hnext⟩ :=
    NodeRef.exists_right_of_touches ht (leaves_ne_nil_parse s)
  obtain ⟨hstart, hstop⟩ := Span.touches_iff.1 htouches
  refine ⟨l, hl, hright, hstart, ?_⟩
  rcases hnext with hnext | htext | hend
  · exact hnext
  · have := start_of_text_nil hl htext
    omega
  · rw [span_root_parse] at hend
    exact absurd hend (Nat.ne_of_lt h)

/-- No token below the root is the end. -/
theorem kind_ne_endOfFile {s : Text} {m : NodeRef} {t : TokenRef}
    (hm : .enter m ∈ forestEvents (NodeRef.root (parse s).tree) 0 0 (parse s).tree.children)
    (ht : t ∈ m.allTokens) : t.token.kind ≠ .endOfFile := by
  obtain ⟨trees, left, hchildren, hkinds⟩ := (isFileOf_parse s).ends
  rw [hchildren, NodeRef.forestEvents_append, List.mem_append] at hm
  have hm := hm.resolve_right (by simp [forestEvents, treeEvents])
  have hinfix := NodeRef.events_infix_forestEvents _ 0 0 trees hm
  have hmem := List.mem_filterMap.2
    ⟨_, hinfix.subset (NodeRef.mem_allTokens.1 ht), show Event.token? (.token t) = some t from rfl⟩
  have htoken := List.mem_map_of_mem (f := TokenRef.token) hmem
  rw [(NodeRef.consecutive_forestEvents _ 0 0 trees).2, Tree.forestLeaves_eq] at htoken
  exact hkinds _ htoken

/-- To the right of where a token begins there is the token, if it is not the end. -/
theorem right?_leafAt_token {s : Text} {t : TokenRef}
    (ht : t ∈ (NodeRef.root (parse s).tree).allTokens) (hkind : t.token.kind ≠ .endOfFile) :
    ((NodeRef.root (parse s).tree).leafAt t.span.start).right? = some t.core := by
  obtain ⟨init, stop, h⟩ := exists_piecesOf s
  have hmem : t.core ∈ (NodeRef.root (parse s).tree).leaves :=
    List.mem_flatMap.2 ⟨t, ht, by simp [TokenRef.pieces]⟩
  have hinit : t.core ∈ init := by
    rw [h.leaves, List.mem_append, List.mem_singleton] at hmem
    refine hmem.resolve_right fun hstop => hkind ?_
    have : t.core.kind = .token .endOfFile := hstop ▸ h.kind_stop
    exact LeafKind.token.inj this
  obtain ⟨before, after, rfl⟩ := List.append_of_mem hinit
  have hleaves := h.leaves
  rw [List.append_assoc, List.cons_append] at hleaves
  refine NodeRef.right?_leafAt_start hleaves (fun m hm => ?_) fun hnil => .inl fun htext => ?_
  · exact (List.pairwise_append.1 h.pairwise).2.2 m hm t.core List.mem_cons_self
  · -- a text that begins with an empty piece has no pieces
    have hstart := (NodeRef.amid_leaves hleaves).last_before
    rw [hnil, span_root_parse, start_of_text_nil hmem htext] at hstart
    obtain rfl : s = [] := Text.size_eq_zero.1 hstart.symm
    have hlex := h.lexemes
    rw [show lex [] = [] from lexFrom_of_none rfl] at hlex
    simp at hlex

/-- Where the end is the only token, it is found to the right of where it begins. -/
theorem right?_leafAt_stop {s : Text} {t : TokenRef} {more : List TokenRef}
    (ht : (NodeRef.root (parse s).tree).allTokens = t :: more)
    (hkind : t.token.kind = .endOfFile) :
    ((NodeRef.root (parse s).tree).leafAt t.span.start).right? = some t.core := by
  obtain ⟨init, stop, h⟩ := exists_piecesOf s
  obtain ⟨trees, left, hchildren, hkinds⟩ := (isFileOf_parse s).ends
  have htokens : (t :: more).map TokenRef.token
      = trees.flatMap Tree.leaves ++ [.endOfFile left] := by
    have hmap := (NodeRef.root (parse s).tree).map_token_allTokens
    rw [ht, Tree.forestLeaves_eq] at hmap
    rw [hmap, show (NodeRef.root (parse s).tree).children = _ from hchildren, List.flatMap_append]
    rfl
  have htoken : t.token = .endOfFile left ∧ more = [] := by
    cases hleaves : trees.flatMap Tree.leaves with
    | nil =>
      rw [hleaves] at htokens
      simpa using htokens
    | cons u us =>
      rw [hleaves] at htokens
      obtain ⟨rfl, -⟩ := List.cons.inj htokens
      exact absurd hkind (hkinds _ (hleaves ▸ List.mem_cons_self))
  have hleaves : (NodeRef.root (parse s).tree).leaves = t.leading ++ [t.core] := by
    rw [NodeRef.leaves, ht, htoken.2, List.flatMap_singleton, TokenRef.pieces, TokenRef.trailing,
      htoken.1]
    rfl
  obtain ⟨rfl, -⟩ := List.append_inj' (h.leaves.symm.trans hleaves) rfl
  refine NodeRef.right?_leafAt_start hleaves (fun m hm => ?_) fun _ => .inr rfl
  exact h.trivia hm (TokenRef.owner_of_mem_placeTrivia hm).2

/-- **To the right of where a node begins, trivia apart, there is its first token.** -/
theorem right?_leafAt_first {s : Text} {m : NodeRef} {t : TokenRef} {more : List TokenRef}
    (hm : m ∈ (NodeRef.root (parse s).tree).descendants) (ht : m.allTokens = t :: more) :
    ((NodeRef.root (parse s).tree).leafAt t.span.start).right? = some t.core := by
  have hmem : t ∈ m.allTokens := ht ▸ List.mem_cons_self
  by_cases hkind : t.token.kind = .endOfFile
  · rw [NodeRef.mem_descendants, NodeRef.events_eq, List.mem_cons, List.mem_append] at hm
    rcases hm with hm | hm | hm
    · cases hm
      exact right?_leafAt_stop ht hkind
    · exact absurd hkind (kind_ne_endOfFile hm hmem)
    · simp at hm
  · exact right?_leafAt_token ((NodeRef.infix_allTokens hm).subset hmem) hkind

/-- Every node of the tree of a text has a token. -/
theorem allTokens_ne_nil {s : Text} {m : NodeRef}
    (hm : m ∈ (NodeRef.root (parse s).tree).descendants) : m.allTokens ≠ [] := by
  obtain ⟨frames, hin⟩ := NodeRef.exists_in_of_mem_descendants hm
  have hshaped := shaped_parse s
  rw [hin.tree] at hshaped
  have hleaves : Tree.forestLeaves m.children ≠ [] := hshaped.of_fill.leaves_ne_nil
  rw [← m.map_token_allTokens] at hleaves
  exact fun hnil => hleaves (by rw [hnil]; rfl)

end NginxConf
