import NginxConf.Proofs.Lexeme.Partition
import NginxConf.Proofs.Parse.Machine
import NginxConf.Proofs.Parse.Reported
import NginxConf.Proofs.SyntaxTree.Held

/-!
# Reports begin and end where tokens do

A report goes from the start of a token to the end of the same or a later one, or it is empty and
stands at the end of a token (`Span.Aligned`). Which tokens these are can be told from where the
report is: what ends before some tokens is aligned to those before them (`Aligned.of_stop_lt`), and
what begins behind some tokens to those behind them (`Aligned.of_start_gt`).

The reports about a text are in order, and each of them is aligned to the tokens of its tree
(`wellPlaced_parse`). So they lie in the text, and do not cut a character in two.

A rule names tokens that it knows or has read, or the one before. Before the first token of a file
there is none, but no report is about it: what is found in a file does not depend on what is taken
for it (`place_among_fileOutcome`).
-/

namespace NginxConf

/-! ## Ranges in a row -/

namespace Span

/-- The range goes from the start of one of some ranges in a row to the end of the same or a later
one, or it is empty and stands at the end of one of them. -/
inductive Aligned : List Span → Span → Prop
  | across {before more : List Span} {first last : Span} (hlast : last ∈ first :: more) :
    Aligned (before ++ first :: more) ⟨first.start, last.stop⟩
  | after {spans : List Span} {span : Span} (h : span ∈ spans) : Aligned spans (.point span.stop)

variable {xs ys zs : List Span} {r : Span}

/-- A range between two others, of which none has to be the first, if they do not overlap. -/
theorem Aligned.of_mem {first last : Span} (hordered : xs.Pairwise fun a b => a.stop ≤ b.start)
    (hfirst : first ∈ xs) (hlast : last ∈ xs) (hle : first.start ≤ last.stop) :
    Aligned xs ⟨first.start, last.stop⟩ := by
  obtain ⟨before, more, rfl⟩ := List.append_of_mem hfirst
  rcases List.mem_append.1 hlast with hbefore | hmore
  · -- the end is that of an earlier one, where the first one begins
    have hstop := (List.pairwise_append.1 hordered).2.2 last hbefore first List.mem_cons_self
    rw [Nat.le_antisymm hle hstop]
    exact .after hlast
  · exact .across hmore

theorem Aligned.append (h : Aligned ys r) (xs zs : List Span) : Aligned (xs ++ ys ++ zs) r := by
  cases h with
  | @across before more first last hlast =>
    rw [← List.append_assoc xs, List.append_assoc, List.cons_append]
    exact .across (List.mem_append_left zs hlast)
  | after h => exact .after (List.mem_append_left _ (List.mem_append_right _ h))

/-- Ranges that are moved by a function of their ends stay aligned. -/
theorem Aligned.map (h : Aligned xs r) (f : Nat → Nat) :
    Aligned (xs.map fun s => ⟨f s.start, f s.stop⟩) ⟨f r.start, f r.stop⟩ := by
  cases h with
  | @across before more first last hlast =>
    rw [List.map_append, List.map_cons]
    exact .across (List.mem_map_of_mem (f := fun s : Span => ⟨f s.start, f s.stop⟩) hlast)
  | after h => exact .after (List.mem_map_of_mem (f := fun s : Span => ⟨f s.start, f s.stop⟩) h)

/-- **What ends before some of the ranges is aligned to the others.** -/
theorem Aligned.of_stop_lt (h : Aligned (xs ++ ys) r) (hys : ∀ y ∈ ys, r.stop < y.stop) :
    Aligned xs r := by
  generalize hspans : xs ++ ys = spans at h
  cases h with
  | @across before more first last hlast =>
    have hnot : last ∉ ys := fun h => Nat.lt_irrefl _ (hys last h)
    rcases List.append_eq_append_iff.1 hspans with ⟨front, rfl, rfl⟩ | ⟨back, rfl, hmore⟩
    · exact absurd (List.mem_append_right front hlast) hnot
    · cases back with
      | nil =>
        rw [List.nil_append] at hmore
        exact absurd (hmore ▸ hlast) hnot
      | cons b back =>
        obtain ⟨rfl, -⟩ := List.cons.inj hmore
        rw [hmore] at hlast
        exact .across ((List.mem_append.1 hlast).resolve_right hnot)
  | @after _ span hmem =>
    rw [← hspans] at hmem
    exact .after ((List.mem_append.1 hmem).resolve_right fun h => Nat.lt_irrefl _ (hys span h))

/-- **What begins behind some of the ranges is aligned to the others.** -/
theorem Aligned.of_start_gt (h : Aligned (xs ++ ys) r)
    (hxs : ∀ x ∈ xs, x.start < r.start ∧ x.stop < r.stop) : Aligned ys r := by
  generalize hspans : xs ++ ys = spans at h
  cases h with
  | @across before more first last hlast =>
    have hnot : first ∉ xs := fun h => Nat.lt_irrefl _ (hxs first h).1
    rcases List.append_eq_append_iff.1 hspans with ⟨front, rfl, rfl⟩ | ⟨back, rfl, hmore⟩
    · exact .across hlast
    · cases back with
      | nil =>
        rw [List.nil_append] at hmore
        subst hmore
        exact List.nil_append (first :: more) ▸ .across hlast
      | cons b back =>
        obtain ⟨rfl, -⟩ := List.cons.inj hmore
        exact absurd (List.mem_append_right before List.mem_cons_self) hnot
  | @after _ span hmem =>
    rw [← hspans] at hmem
    exact .after ((List.mem_append.1 hmem).resolve_left fun h => Nat.lt_irrefl _ (hxs span h).2)

/-- A range that is aligned does not end before it begins, and its ends are ends of other ranges. -/
theorem Aligned.ends (h : Aligned xs r) (hle : ∀ x ∈ xs, x.start ≤ x.stop)
    (hordered : xs.Pairwise fun a b => a.stop ≤ b.start) : r.start ≤ r.stop ∧
      (∃ x ∈ xs, r.start = x.start ∨ r.start = x.stop) ∧ ∃ x ∈ xs, r.stop = x.stop := by
  cases h with
  | @across before more first last hlast =>
    have hfirst : first ∈ before ++ first :: more := by simp
    have hmem : last ∈ before ++ first :: more := List.mem_append_right _ hlast
    refine ⟨?_, ⟨first, hfirst, .inl rfl⟩, last, hmem, rfl⟩
    rcases List.mem_cons.1 hlast with rfl | hmore
    · exact hle last hmem
    · have hnext := (List.pairwise_cons.1 (List.pairwise_append.1 hordered).2.1).1 last hmore
      exact Nat.le_trans (hle first hfirst) (Nat.le_trans hnext (hle last hmem))
  | @after _ span h => exact ⟨Nat.le_refl _, ⟨span, h, .inr rfl⟩, span, h, rfl⟩

end Span

/-! ## Well-placed reports -/

/-- The tokens of a tree, without the mark at its end. -/
def SyntaxTree.significantTokens (t : SyntaxTree) : List TokenRef :=
  (NodeRef.root t).allTokens.filter (·.token.kind != .endOfFile)

/-- The reports are in order, and each of them begins and ends where tokens of the tree do. -/
structure Parse.WellPlaced (p : Parse) : Prop where
  sorted : p.diagnostics.Pairwise fun c d => c.span.start ≤ d.span.start
  aligned : ∀ d ∈ p.diagnostics,
    Span.Aligned (p.tree.significantTokens.map TokenRef.span) d.span
  inText : ∀ d ∈ p.diagnostics, d.span.start ≤ d.span.stop ∧ d.span.stop ≤ Text.size p.text ∧
    p.text.isBoundary d.span.start = true ∧ p.text.isBoundary d.span.stop = true

/-! ## Tokens in a text -/

/-- A token in a row stands in the text of the row. -/
theorem NodeRef.Consecutive.exists_cut (before : Text) {ts : List TokenRef} {t : TokenRef}
    (h : Consecutive (Text.size before) ts) (ht : t ∈ ts) : ∃ front back,
      before ++ (ts.map TokenRef.token).flatMap Token.fullText = front ++ t.token.text ++ back ∧
        Text.size front = t.span.start := by
  induction ts generalizing before with
  | nil => cases ht
  | cons u us ih =>
    obtain ⟨hstart, hus⟩ := h
    rw [List.map_cons, List.flatMap_cons]
    rcases List.mem_cons.1 ht with rfl | ht
    · refine ⟨before ++ Trivia.textOf t.token.leading, Trivia.textOf t.token.trailing
        ++ (us.map TokenRef.token).flatMap Token.fullText, by simp [Token.fullText], ?_⟩
      rw [Text.size_append, Trivia.size_textOf, TokenRef.span, hstart]
      rfl
    · rw [← Token.size_fullText, ← Text.size_append] at hus
      rw [← List.append_assoc]
      exact ih _ hus ht

/-- **The ends of a token are boundaries in the text of its tree.** -/
theorem SyntaxTree.boundaries_of_mem {tree : SyntaxTree} {t : TokenRef}
    (ht : t ∈ (NodeRef.root tree).allTokens) : t.span.stop ≤ Text.size tree.text ∧
      tree.text.isBoundary t.span.start = true ∧ tree.text.isBoundary t.span.stop = true := by
  have hconsecutive := (NodeRef.root tree).consecutive_allTokens
  obtain ⟨front, back, htext, hstart⟩ := NodeRef.Consecutive.exists_cut [] hconsecutive ht
  have hleaves : ((NodeRef.root tree).allTokens.map TokenRef.token).flatMap Token.fullText
      = tree.text := by
    rw [NodeRef.map_token_allTokens, Tree.forestLeaves_eq]
    rfl
  rw [List.nil_append, hleaves] at htext
  have hstop : t.span.stop = Text.size (front ++ t.token.text) := by
    rw [Text.size_append, hstart]
    rfl
  rw [htext, hstop, ← hstart]
  refine ⟨?_, ?_, isBoundary_append _ _⟩
  · rw [Text.size_append (front ++ t.token.text)]
    exact Nat.le_add_right _ _
  · rw [List.append_assoc]
    exact isBoundary_append _ _

/-- **Reports that are aligned to the tokens of a tree lie in its text.** -/
theorem Parse.wellPlaced_of_aligned {p : Parse}
    (hsorted : p.diagnostics.Pairwise fun c d => c.span.start ≤ d.span.start)
    (haligned : ∀ d ∈ p.diagnostics,
      Span.Aligned (p.tree.significantTokens.map TokenRef.span) d.span) : p.WellPlaced := by
  refine ⟨hsorted, haligned, fun d hd => ?_⟩
  have hordered : (p.tree.significantTokens.map TokenRef.span).Pairwise
      fun a b => a.stop ≤ b.start :=
    List.pairwise_map.2 ((NodeRef.pairwise_stop_allTokens _).filter _)
  have hends : ∀ r ∈ p.tree.significantTokens.map TokenRef.span, r.start ≤ r.stop ∧
      r.stop ≤ Text.size p.text ∧ p.text.isBoundary r.start = true ∧
        p.text.isBoundary r.stop = true := by
    refine List.forall_mem_map.2 fun t ht => ⟨Nat.le_add_right _ _, ?_⟩
    exact SyntaxTree.boundaries_of_mem (List.mem_filter.1 ht).1
  obtain ⟨hle, ⟨first, hfirst, hstart⟩, last, hlast, hstop⟩ :=
    (haligned d hd).ends (fun r hr => (hends r hr).1) hordered
  obtain ⟨-, -, hfirstStart, hfirstStop⟩ := hends first hfirst
  obtain ⟨-, hwithin, -, hlastStop⟩ := hends last hlast
  refine ⟨hle, hstop ▸ hwithin, ?_, hstop ▸ hlastStop⟩
  rcases hstart with hstart | hstart
  · exact hstart ▸ hfirstStart
  · exact hstart ▸ hfirstStop

/-! ## Tokens where they have been put -/

/-- The tokens of a tree stand where those stand of which it is made. -/
theorem SyntaxTree.map_span_significantTokens {tree : SyntaxTree} {ps : List PlacedToken}
    {last : PlacedToken} {stop : Nat} (htile : Tile 0 (ps ++ [last]) stop)
    (hleaves : tree.leaves = (ps ++ [last]).map PlacedToken.token)
    (hkinds : ∀ p ∈ ps, p.token.kind ≠ .endOfFile) (hlast : last.token.kind = .endOfFile) :
    tree.significantTokens.map TokenRef.span = ps.map PlacedToken.span := by
  have hplaced := (NodeRef.root tree).consecutive_allTokens.map_placed htile (by
    rw [NodeRef.map_token_allTokens, Tree.forestLeaves_eq]
    exact hleaves)
  have hfilter := congrArg (fun qs : List PlacedToken =>
    (qs.filter (·.token.kind != .endOfFile)).map PlacedToken.span) hplaced
  simp only [List.filter_map, List.map_map, List.filter_append] at hfilter
  have hself : ps.filter ((·.token.kind != .endOfFile) ∘ PlacedToken.faultless) = ps :=
    List.filter_eq_self.2 fun p hp => bne_iff_ne.2 (hkinds p hp)
  have hnone : [last].filter ((·.token.kind != .endOfFile) ∘ PlacedToken.faultless) = [] := by
    rw [List.filter_singleton, Function.comp, PlacedToken.faultless, hlast]
    rfl
  rw [hself, hnone, List.append_nil] at hfilter
  exact hfilter

/-- A place among tokens in a row is aligned to them, if it does not end before it begins. -/
theorem Place.Among.aligned {ps : List PlacedToken} {place : Place PlacedToken} (h : place.Among ps ps)
    (hordered : ps.Pairwise fun p q => p.span.stop ≤ q.span.start)
    (hle : place.span.start ≤ place.span.stop) :
    Span.Aligned (ps.map PlacedToken.span) place.span := by
  cases place with
  | across first last =>
    obtain ⟨hfirst, hlast⟩ := h
    have hlast : last ∈ ps := hlast.elim (fun h => h ▸ hfirst) id
    exact .of_mem (List.pairwise_map.2 hordered) (List.mem_map_of_mem hfirst)
      (List.mem_map_of_mem hlast) hle
  | after token => exact .after (List.mem_map_of_mem h)

/-! ## The reports about a text -/

/-- **What is found in a file is found at its tokens.** -/
theorem place_among_fileOutcome (s : Text) : ∀ i ∈ (fileOutcome s).issues,
    i.place.Among (tokenize s).tokens (tokenize s).tokens := by
  intro i hi
  have hamong (last : PlacedToken) : i.place.Among (tokenize s).tokens
      (last :: (tokenize s).tokens) := by
    have hsame : (Rule.file.run maxDepth last (tokenize s).tokens).issues
        = (fileOutcome s).issues :=
      congrArg Prod.snd ((parseFile_eq last _).symm.trans (parseFile_eq .origin _))
    have h := (Rule.runs_file last (tokenize s).tokens).place_among i (hsame ▸ hi)
    rwa [Rule.read_file] at h
  -- what is taken for the token before the first one does not matter
  have hmem {t : PlacedToken} (h : ∀ last, t ∈ last :: (tokenize s).tokens) :
      t ∈ (tokenize s).tokens := by
    let other : PlacedToken := { t with offset := t.offset + 1 }
    refine (List.mem_cons.1 (h other)).resolve_left fun heq => ?_
    exact absurd (congrArg PlacedToken.offset heq) (Nat.ne_of_lt (Nat.lt_succ_self _))
  cases hplace : i.place with
  | across first last =>
    rw [hplace] at hamong
    have hfirst := (hamong .origin).1
    refine ⟨hfirst, or_iff_not_imp_left.2 fun hne => hmem fun q => ?_⟩
    exact (hamong q).2.resolve_left hne
  | after token =>
    rw [hplace] at hamong
    exact hmem hamong

theorem map_span_significantTokens_parse (s : Text) :
    (parse s).tree.significantTokens.map TokenRef.span
      = (tokenize s).tokens.map PlacedToken.span :=
  SyntaxTree.map_span_significantTokens (tile_tokenize s) (leaves_parse s)
    (fun _ hp => (tokenize_shaped hp).not_endOfFile) (kind_stop_tokenize s)

/-- **The reports about a text are well placed.** -/
theorem wellPlaced_parse (s : Text) : (parse s).WellPlaced := by
  refine Parse.wellPlaced_of_aligned ?_ fun d hd => ?_
  · rw [parse_diagnostics]
    exact Diagnostic.sort_sorted _
  · rw [parse_diagnostics, (Diagnostic.sort_perm _).mem_iff] at hd
    obtain ⟨i, hi, rfl⟩ := List.mem_map.1 hd
    rw [map_span_significantTokens_parse]
    exact (place_among_fileOutcome s i hi).aligned
      (tile_attachTrivia 0 [] (lex s)).pairwise_stop_le
      ((Machine.ordered_tokenize s).start_le_stop (runs_fileOutcome s) i hi)

end NginxConf
