import NginxConf.Proofs.Tree.BraceRows

/-!
# How statements begin, and where they stand

What a pattern begins with can be read off it (`Pattern.mem_heads`): a statement begins with a word
or a keyword, and so does an entry of a geo block (`Tree.Shaped.exists_head`). Statements stand in a
block, in the whole file, or in an error node, and the entries of a geo block in that block
(`NodeKind.Admits.mayHold`).
-/

namespace NginxConf

open RegularExpression

/-- Whether a statement, or an entry of a geo block, can begin with the token. -/
def TokenKind.isHead : TokenKind → Bool
  | word | variableName | string => true
  | ifKeyword | setKeyword | includeKeyword | geoKeyword | luaKeyword => true
  | _ => false

/-- The kind of a node, where there is one. -/
def Symbol.node? : Symbol → Option NodeKind
  | node kind => some kind
  | _ => none

/-- Whether a node of one kind may have a child of another kind, as far as statements and entries of
geo blocks go. -/
def NodeKind.mayHold (kind child : NodeKind) : Bool :=
  if child.isStatement then kind == .sourceFile || kind == .block || kind == .error
  else if child.isGeoEntry then kind == .geoItem || kind == .error
  else if child = .geoItem then kind == .geoBlock
  else child != .sourceFile

/-! ## The first symbol -/

namespace Pattern

/-- The symbols that something that matches a pattern can begin with. -/
def heads : Pattern → List Symbol
  | .zero | .epsilon => []
  | .char s => [s]
  | .plus P Q => heads P ++ heads Q
  | .comp P Q => heads P ++ if P.matchEpsilon then heads Q else []
  | .star P => heads P

/-- **What matches a pattern begins with one of its first symbols.** -/
theorem mem_heads {P : Pattern} {s : Symbol} {w : List Symbol} (h : s :: w ∈ P.matches') :
    s ∈ P.heads := by
  induction P generalizing w with
  | zero => exact absurd h (Language.notMem_zero _)
  | epsilon => exact absurd ((Language.mem_one _).1 h) (List.cons_ne_nil s w)
  | char s' =>
    obtain ⟨rfl, -⟩ := List.cons.inj (mem_char.1 h)
    exact List.mem_singleton_self s
  | plus P Q ihP ihQ =>
    exact h.elim (fun h => List.mem_append_left _ (ihP h)) fun h => List.mem_append_right _ (ihQ h)
  | comp P Q ihP ihQ =>
    obtain ⟨u, hu, v, hv, huv⟩ := Language.mem_mul.1 h
    cases u with
    | nil =>
      have hempty : P.matchEpsilon = true := (rmatch_iff_matches' P []).2 hu
      obtain rfl := List.nil_append v ▸ huv
      rw [heads, if_pos hempty]
      exact List.mem_append_right _ (ihQ hv)
    | cons s' u =>
      obtain ⟨rfl, -⟩ := List.cons.inj huv
      exact List.mem_append_left _ (ihP hu)
  | star P ih =>
    obtain ⟨ws, hflat, hws⟩ := Language.mem_kstar_iff_exists_nonempty.1 h
    cases ws with
    | nil => cases hflat
    | cons u ws =>
      obtain ⟨hu, hne⟩ := hws u List.mem_cons_self
      obtain ⟨s', u, rfl⟩ := List.exists_cons_of_ne_nil hne
      obtain ⟨rfl, -⟩ := List.cons.inj hflat
      exact ih hu

end Pattern

variable {α : Type} [Lexical α] {kind : NodeKind} {children : List (Tree α)}

namespace NodeKind.Admits

theorem head_mem_heads (h : kind.Admits children) : ∃ t ts, children = t :: ts ∧
    t.symbol ∈ (kind.pattern (Tree.keyword children)).heads := by
  obtain ⟨t, ts, rfl⟩ := List.exists_cons_of_ne_nil h.ne_nil
  exact ⟨t, ts, rfl, Pattern.mem_heads h⟩

/-- A statement begins with a token, and so does what an entry of a geo block says. -/
theorem exists_leaf (h : kind.Admits children)
    (hkind : kind.isStatement = true ∨ kind.isGeoEntry = true) :
    ∃ a ts, children = .leaf a :: ts ∧ (Lexical.kind a).isHead = true := by
  obtain ⟨t, ts, rfl, hhead⟩ := h.head_mem_heads
  have hall (keyword : String) :
      (kind.pattern keyword).heads.all (·.token?.any TokenKind.isHead) = true := by
    cases kind with
    | geoProxy => rw [pattern]; split <;> rfl
    | sourceFile | block | condition | geoBlock | geoItem | error | tombstone =>
      rcases hkind with hkind | hkind <;> cases hkind
    | _ => rfl
  have htoken := List.all_eq_true.1 (hall _) _ hhead
  cases t with
  | leaf a => exact ⟨a, ts, rfl, htoken⟩
  | node k cs =>
    rw [Tree.symbol] at htoken
    split at htoken <;> cases htoken

/-- An entry of a geo block begins with what it says, and says nothing else. -/
theorem exists_entry (h : NodeKind.geoItem.Admits children) :
    ∃ k cs ts, children = .node k cs :: ts ∧ k.isGeoEntry = true ∧
      ∀ k' cs', .node k' cs' ∈ ts → k'.isGeoEntry = false := by
  obtain ⟨u, hu, v, hv, huv⟩ := Language.mem_mul.1 h
  obtain ⟨s, hs, rfl⟩ := Pattern.mem_oneOf.1 hu
  obtain ⟨t, ts, rfl⟩ := List.exists_cons_of_ne_nil h.ne_nil
  obtain ⟨rfl, rfl⟩ := List.cons.inj huv
  have hentries : ∀ s ∈ Symbol.geoEntries, s.node?.any isGeoEntry = true := by decide
  have hothers : (Pattern.inOrder [Pattern.surplus, Pattern.optional
      (Pattern.token .semicolon)]).atoms.all (!·.node?.any isGeoEntry) = true := rfl
  have hentry := hentries _ hs
  cases t with
  | leaf a => cases hentry
  | node k cs =>
    refine ⟨k, cs, ts, rfl, ?_, fun k' cs' hmem => ?_⟩
    · rw [Tree.symbol] at hentry
      split at hentry
      · cases hentry
      · exact hentry
    · have hatom := Pattern.mem_atoms hv _ (List.mem_map_of_mem hmem)
      have hother := List.all_eq_true.1 hothers _ hatom
      by_cases herror : k' = .error
      · rw [herror]
        rfl
      · rw [Tree.symbol, if_neg fun hdeep => herror hdeep.1] at hother
        simpa [Symbol.node?] using hother

/-- Statements stand in blocks, in the whole file and in error nodes, the entries of a geo block in
the block, and what they say in them. A whole file stands nowhere. -/
theorem mayHold {k : NodeKind} {cs : List (Tree α)} (h : kind.Admits children)
    (hmem : .node k cs ∈ children) : kind.mayHold k = true := by
  by_cases herror : k = .error
  · rw [herror]
    cases kind <;> rfl
  · have hatom := Pattern.mem_atoms h _ (List.mem_map_of_mem hmem)
    have hall (keyword : String) :
        (kind.pattern keyword).atoms.all (·.node?.all kind.mayHold) = true := by
      cases kind with
      | geoProxy => rw [pattern]; split <;> rfl
      | _ => rfl
    have hholds := List.all_eq_true.1 (hall _) _ hatom
    rwa [Tree.symbol, if_neg fun hdeep => herror hdeep.1] at hholds

end NodeKind.Admits

/-! ## The first token -/

/-- Whether the node stands on lines of its own, or says what an entry of a geo block does. -/
def NodeKind.isItem (kind : NodeKind) : Bool :=
  kind.isStatement || kind.isGeoEntry || kind == .geoItem

/-- **Statements, and entries of geo blocks, begin with a word or a keyword.** -/
theorem Tree.Shaped.exists_head (h : (Tree.node kind children).Shaped)
    (hkind : kind.isItem = true) :
    ∃ a as, forestLeaves children = a :: as ∧ (Lexical.kind a).isHead = true := by
  obtain ⟨hadmits, hchildren⟩ := Tree.shaped_node.1 h
  rw [NodeKind.isItem, Bool.or_eq_true, Bool.or_eq_true, beq_iff_eq] at hkind
  rcases hkind with hkind | rfl
  · obtain ⟨a, ts, rfl, ha⟩ := hadmits.exists_leaf hkind
    exact ⟨a, forestLeaves ts, rfl, ha⟩
  · obtain ⟨k, cs, ts, rfl, hk, -⟩ := hadmits.exists_entry
    have hentry := (Tree.shaped_node.1 (hchildren _ List.mem_cons_self)).1
    obtain ⟨a, us, rfl, ha⟩ := hentry.exists_leaf (.inr hk)
    exact ⟨a, forestLeaves us ++ forestLeaves ts, rfl, ha⟩

end NginxConf
