import NginxConf.Proofs.SyntaxTree.Tokens

/-!
# Trees that differ in trivia alone

A node without its trivia (`NodeRef.bare`) still tells its kind, its address, its tokens, and the same
of the nodes around it. Nodes that are the same without trivia are walked through in the same way
(`NodeRef.map_bare_events`): their tokens correspond one by one, and so do the nodes below them. Which
token corresponds to which can be seen from the address, for no two tokens of a tree have the same
(`NodeRef.eq_of_address_eq`).
-/

namespace NginxConf

/-! ## Without trivia -/

/-- The token alone. -/
def Token.bare (t : Token) : Token := { t with leading := [], trailing := [] }

theorem Token.bare_eq {t u : Token} (hkind : t.kind = u.kind) (htext : t.text = u.text) :
    t.bare = u.bare := by
  simp [bare, hkind, htext]

/-- The node without its trivia, standing nowhere. -/
def Site.bare (s : Site) : Site := ⟨s.kind, s.children.map (Tree.map Token.bare), 0, s.address⟩

/-- The node without its trivia, standing nowhere, with such nodes around it. -/
def NodeRef.bare (n : NodeRef) : NodeRef := ⟨n.toSite.bare, n.above.map Site.bare⟩

/-- The token alone, in a node without trivia. -/
def TokenRef.bare (t : TokenRef) : TokenRef := ⟨t.token.bare, 0, t.address, t.parent.bare⟩

/-- The step with nodes and tokens that have no trivia. -/
def Event.bare : Event → Event
  | enter n => enter n.bare
  | leave n => leave n.bare
  | token t => token t.bare

/-- The node that a step enters. -/
def Event.entered? : Event → Option NodeRef
  | enter n => some n
  | _ => none

theorem NodeRef.descendants_eq (n : NodeRef) :
    n.descendants = n :: (forestEvents n 0 n.start n.children).filterMap Event.entered? := by
  have h : n.descendants = n.events.filterMap Event.entered? := by
    rw [descendants]
    congr 1
  rw [h, events_eq, List.filterMap_cons, List.filterMap_append]
  simp [Event.entered?]

/-- The child that is a node. -/
def ElementRef.node? : ElementRef → Option NodeRef
  | node n => some n
  | token _ => none

theorem Tree.map_bare_bare (ts : List (Tree Token)) :
    (ts.map (Tree.map Token.bare)).map (Tree.map Token.bare) = ts.map (Tree.map Token.bare) := by
  rw [List.map_map]
  exact List.map_congr_left fun t _ => Tree.map_map Token.bare Token.bare t

namespace NodeRef

variable {m n : NodeRef}

theorem kind_of_bare (h : m.bare = n.bare) : m.kind = n.kind :=
  show m.bare.kind = n.bare.kind by rw [h]

theorem address_of_bare (h : m.bare = n.bare) : m.address = n.address :=
  show m.bare.address = n.bare.address by rw [h]

theorem children_of_bare (h : m.bare = n.bare) :
    m.children.map (Tree.map Token.bare) = n.children.map (Tree.map Token.bare) :=
  show m.bare.children = n.bare.children by rw [h]

/-- A child of nodes that are the same without trivia. -/
theorem bare_child {parent parent' : NodeRef} (hparent : parent.bare = parent'.bare)
    (kind : NodeKind) (children : List (Tree Token)) (position start start' : Nat) :
    NodeRef.bare ⟨⟨kind, children, start, position :: parent.address⟩, parent.toSite :: parent.above⟩
      = NodeRef.bare ⟨⟨kind, children.map (Tree.map Token.bare), start',
          position :: parent'.address⟩, parent'.toSite :: parent'.above⟩ := by
  have hsite : parent.toSite.bare = parent'.toSite.bare := congrArg NodeRef.toSite hparent
  have habove : parent.above.map Site.bare = parent'.above.map Site.bare :=
    congrArg NodeRef.above hparent
  have haddress := address_of_bare hparent
  simp only [bare, Site.bare, List.map_cons, Tree.map_bare_bare, haddress, habove]
  rw [show (⟨parent.kind, parent.children.map (Tree.map Token.bare), 0, parent'.address⟩ : Site)
    = parent.toSite.bare from by rw [Site.bare, haddress], hsite]
  rfl

mutual

theorem map_bare_treeEvents {parent parent' : NodeRef} (hparent : parent.bare = parent'.bare)
    (position start start' : Nat) : (t : Tree Token) →
    (treeEvents parent position start t).map Event.bare
      = (treeEvents parent' position start' (t.map Token.bare)).map Event.bare
  | .leaf token => by
    have haddress := address_of_bare hparent
    simp only [Tree.map, treeEvents, List.map_cons, List.map_nil, Event.bare, TokenRef.bare, hparent,
      haddress]
    rfl
  | .node kind children => by
    have hchild := bare_child hparent kind children position start start'
    have hinner := map_bare_forestEvents hchild 0 start start' children
    simp only [Tree.map, treeEvents, List.map_cons, List.map_append, List.map_nil, Event.bare,
      Tree.forestMap_eq] at hinner ⊢
    rw [hchild, hinner]

theorem map_bare_forestEvents {parent parent' : NodeRef} (hparent : parent.bare = parent'.bare)
    (position start start' : Nat) : (ts : List (Tree Token)) →
    (forestEvents parent position start ts).map Event.bare
      = (forestEvents parent' position start' (Tree.forestMap Token.bare ts)).map Event.bare
  | [] => rfl
  | t :: ts => by
    rw [Tree.forestMap, forestEvents, forestEvents, List.map_append, List.map_append,
      map_bare_treeEvents hparent position start start' t,
      map_bare_forestEvents hparent (position + 1) _
        (start' + (t.map Token.bare).sum Token.fullSize) ts]

end

/-- **Nodes that are the same without trivia are walked through in the same way.** -/
theorem map_bare_events (h : m.bare = n.bare) : m.events.map Event.bare = n.events.map Event.bare := by
  have hforest := map_bare_forestEvents h 0 m.start 0 m.children
  have hforest' := map_bare_forestEvents (rfl : n.bare = n.bare) 0 n.start 0 n.children
  rw [Tree.forestMap_eq] at hforest hforest'
  rw [children_of_bare h, ← hforest'] at hforest
  rw [events_eq, events_eq]
  simp only [List.map_cons, List.map_append, List.map_nil, hforest, Event.bare, h]

/-- **Their tokens correspond one by one.** -/
theorem map_bare_allTokens (h : m.bare = n.bare) :
    m.allTokens.map TokenRef.bare = n.allTokens.map TokenRef.bare := by
  have hmap : ∀ k : NodeRef, k.allTokens.map TokenRef.bare
      = (k.events.map Event.bare).filterMap Event.token? := by
    intro k
    rw [List.filterMap_map, allTokens, List.map_filterMap]
    congr 1
    funext event
    cases event <;> rfl
  rw [hmap, hmap, map_bare_events h]

/-- **The nodes below them correspond one by one.** -/
theorem map_bare_descendants (h : m.bare = n.bare) :
    m.descendants.map NodeRef.bare = n.descendants.map NodeRef.bare := by
  have hmap : ∀ k : NodeRef, k.descendants.map NodeRef.bare
      = (k.events.map Event.bare).filterMap Event.entered? := by
    intro k
    rw [List.filterMap_map, descendants, List.map_filterMap]
    congr 1
    funext event
    cases event <;> rfl
  rw [hmap, hmap, map_bare_events h]

theorem exists_mem_descendants (h : m.bare = n.bare) {k : NodeRef} (hk : k ∈ m.descendants) :
    ∃ l ∈ n.descendants, k.bare = l.bare := by
  have hmem := List.mem_map_of_mem (f := NodeRef.bare) hk
  rw [map_bare_descendants h] at hmem
  obtain ⟨l, hl, hbare⟩ := List.mem_map.1 hmem
  exact ⟨l, hl, hbare.symm⟩

theorem map_bare_placeAll {parent parent' : NodeRef} (hparent : parent.bare = parent'.bare)
    (position start start' : Nat) (ts : List (Tree Token)) :
    ((parent.placeAll position start ts).filterMap ElementRef.node?).map NodeRef.bare
      = ((parent'.placeAll position start' (ts.map (Tree.map Token.bare))).filterMap
          ElementRef.node?).map NodeRef.bare := by
  induction ts generalizing position start start' with
  | nil => rfl
  | cons t ts ih =>
    have hrest := ih (position + 1) (start + t.sum Token.fullSize)
      (start' + (t.map Token.bare).sum Token.fullSize)
    cases t with
    | leaf token => exact hrest
    | node kind children =>
      have hchild := bare_child hparent kind children position start start'
      simp only [placeAll, place, List.map_cons, List.filterMap_cons, ElementRef.node?, Tree.map,
        Tree.forestMap_eq] at hrest ⊢
      rw [hchild, hrest]

theorem nodes_eq (n : NodeRef) :
    n.nodes = (n.placeAll 0 n.start n.children).filterMap ElementRef.node? := by
  rw [nodes, elements]
  congr 1

/-- **Their child nodes correspond one by one.** -/
theorem map_bare_nodes (h : m.bare = n.bare) : m.nodes.map NodeRef.bare = n.nodes.map NodeRef.bare := by
  rw [nodes_eq, nodes_eq, map_bare_placeAll h 0 m.start 0, children_of_bare h,
    ← map_bare_placeAll (rfl : n.bare = n.bare) 0 n.start 0]

theorem exists_mem_nodes (h : m.bare = n.bare) {k : NodeRef} (hk : k ∈ m.nodes) :
    ∃ l ∈ n.nodes, k.bare = l.bare := by
  have hmem := List.mem_map_of_mem (f := NodeRef.bare) hk
  rw [map_bare_nodes h] at hmem
  obtain ⟨l, hl, hbare⟩ := List.mem_map.1 hmem
  exact ⟨l, hl, hbare.symm⟩

/-! ## Addresses -/

theorem tokens_treeEvents_node (parent : NodeRef) (position start : Nat) (kind : NodeKind)
    (children : List (Tree Token)) :
    (treeEvents parent position start (.node kind children)).filterMap Event.token?
      = (forestEvents ⟨⟨kind, children, start, position :: parent.address⟩,
          parent.toSite :: parent.above⟩ 0 start children).filterMap Event.token? := by
  simp only [treeEvents, List.filterMap_cons, List.filterMap_append, List.filterMap_nil,
    Event.token?, List.append_nil]

mutual

theorem suffix_address_treeEvents (parent : NodeRef) (position start : Nat) : (t : Tree Token) →
    ∀ u ∈ (treeEvents parent position start t).filterMap Event.token?,
      position :: parent.address <:+ u.address
  | .leaf token, u, hu => by
    have haddress : u.address = position :: parent.address :=
      congrArg TokenRef.address (List.mem_singleton.1 hu)
    exact haddress ▸ List.suffix_refl _
  | .node kind children, u, hu => by
    rw [tokens_treeEvents_node] at hu
    obtain ⟨q, -, hq⟩ := suffix_address_forestEvents _ 0 start children u hu
    exact (List.suffix_cons q _).trans hq

theorem suffix_address_forestEvents (parent : NodeRef) (position start : Nat) :
    (ts : List (Tree Token)) →
    ∀ u ∈ (forestEvents parent position start ts).filterMap Event.token?,
      ∃ q, position ≤ q ∧ q :: parent.address <:+ u.address
  | [], u, hu => by simp [forestEvents] at hu
  | t :: ts, u, hu => by
    rw [forestEvents, List.filterMap_append] at hu
    rcases List.mem_append.1 hu with hu | hu
    · exact ⟨position, Nat.le_refl _, suffix_address_treeEvents parent position start t u hu⟩
    · obtain ⟨q, hle, hq⟩ := suffix_address_forestEvents parent (position + 1) _ ts u hu
      exact ⟨q, by omega, hq⟩

end

mutual

theorem pairwise_address_treeEvents (parent : NodeRef) (position start : Nat) : (t : Tree Token) →
    ((treeEvents parent position start t).filterMap Event.token?).Pairwise
      fun u v => u.address ≠ v.address
  | .leaf token => List.pairwise_singleton _ _
  | .node kind children => by
    rw [tokens_treeEvents_node]
    exact pairwise_address_forestEvents _ 0 start children

theorem pairwise_address_forestEvents (parent : NodeRef) (position start : Nat) :
    (ts : List (Tree Token)) →
    ((forestEvents parent position start ts).filterMap Event.token?).Pairwise
      fun u v => u.address ≠ v.address
  | [] => List.Pairwise.nil
  | t :: ts => by
    rw [forestEvents, List.filterMap_append]
    refine List.pairwise_append.2 ⟨pairwise_address_treeEvents parent position start t,
      pairwise_address_forestEvents parent (position + 1) _ ts, fun u hu v hv heq => ?_⟩
    have hu := suffix_address_treeEvents parent position start t u hu
    obtain ⟨q, hle, hq⟩ := suffix_address_forestEvents parent (position + 1) _ ts v hv
    rw [heq] at hu
    have hsuffix := List.suffix_of_suffix_length_le hu hq (by simp)
    have hsame := hsuffix.eq_of_length (by simp)
    have := (List.cons.inj hsame).1
    omega

end

/-- **No two tokens of a node have the same address.** -/
theorem eq_of_address_eq {t u : TokenRef} (ht : t ∈ n.allTokens) (hu : u ∈ n.allTokens)
    (haddress : t.address = u.address) : t = u := by
  have hpairwise := pairwise_address_forestEvents n 0 n.start n.children
  rw [← allTokens_eq] at hpairwise
  obtain ⟨before, after, hsplit⟩ := List.append_of_mem ht
  rw [hsplit] at hpairwise hu
  obtain ⟨-, htail, hcross⟩ := List.pairwise_append.1 hpairwise
  rcases List.mem_append.1 hu with hu | hu
  · exact absurd haddress.symm (hcross u hu t List.mem_cons_self)
  · rcases List.mem_cons.1 hu with rfl | hu
    · rfl
    · exact absurd haddress ((List.pairwise_cons.1 htail).1 u hu)

end NodeRef

end NginxConf
