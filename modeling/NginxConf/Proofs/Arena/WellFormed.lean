import NginxConf.Proofs.Arena.Build
import NginxConf.Proofs.Arena.Invariants

/-!
# Arenas that are built are well formed

The arena of a tree is well formed (`wellFormed_ofTree`): its pieces climb from the beginning of the
text to its end, what the arena holds of a node is filled by what it holds of the children, and the
nodes of a tree are the nodes that its own nodes list. So the check lets pass whatever is built
(`assertInvariants_build`).
-/

namespace NginxConf.Arena

/-! ## Pieces in order -/

/-- Pieces end one after the other, from one offset to another. -/
def Climb : Nat → List Piece → Nat → Prop
  | start, [], stop => start = stop
  | start, p :: ps, stop => start ≤ p.stop ∧ Climb p.stop ps stop

theorem Climb.append {ps qs : List Piece} {start middle stop : Nat} (hps : Climb start ps middle)
    (hqs : Climb middle qs stop) : Climb start (ps ++ qs) stop := by
  induction ps generalizing start with
  | nil =>
    cases hps
    exact hqs
  | cons p ps ih => exact ⟨hps.1, ih hps.2⟩

theorem Climb.pairwise {ps : List Piece} {start stop : Nat} (h : Climb start ps stop) :
    (∀ p ∈ ps, start ≤ p.stop) ∧ ps.Pairwise fun p q => p.stop ≤ q.stop := by
  induction ps generalizing start with
  | nil => exact ⟨by simp, .nil⟩
  | cons p ps ih =>
    obtain ⟨hmore, hpairwise⟩ := ih h.2
    refine ⟨List.forall_mem_cons.2 ⟨h.1, fun q hq => ?_⟩, .cons hmore hpairwise⟩
    exact Nat.le_trans h.1 (hmore q hq)

theorem Climb.getLast? {ps : List Piece} {p : Piece} {start stop : Nat}
    (h : Climb start (p :: ps) stop) : (p :: ps).getLast?.map Piece.stop = some stop := by
  induction ps generalizing p start with
  | nil => exact congrArg some h.2
  | cons q ps ih => exact ih h.2

theorem climb_triviaPieces (parent offset : Nat) (ts : List Trivia) :
    Climb offset (triviaPieces parent offset ts) (offset + Trivia.sizeOf ts) := by
  induction ts generalizing offset with
  | nil => rfl
  | cons t ts ih =>
    rw [Trivia.sizeOf, ← Nat.add_assoc]
    exact ⟨Nat.le_add_right _ _, ih _⟩

theorem climb_tokenPieces (parent offset : Nat) (t : Token) :
    Climb offset (tokenPieces parent offset t) (offset + t.fullSize) := by
  rw [Token.fullSize, ← Nat.add_assoc, ← Nat.add_assoc]
  exact (climb_triviaPieces parent offset t.leading).append
    ⟨Nat.le_add_right _ _, climb_triviaPieces parent _ t.trailing⟩

mutual

theorem climb_treeBatch (parent : Nat) (m : Mark) : (t : Tree Token) →
    Climb m.offset (treeBatch parent m t).pieces (m.past t).offset
  | .leaf t => climb_tokenPieces parent m.offset t
  | .node _ children => climb_forestBatch m.node m.enter children

theorem climb_forestBatch (parent : Nat) (m : Mark) : (ts : List (Tree Token)) →
    Climb m.offset (forestBatch parent m ts).pieces (m.pastAll ts).offset
  | [] => rfl
  | t :: ts => (climb_treeBatch parent m t).append (climb_forestBatch parent (m.past t) ts)

end

/-! ## Tokens and their trivia -/

variable {a : Arena} {m : Mark} {parent : Nat}

/-- Whether a piece is a token. -/
def isToken (a : Arena) (i : Nat) : Bool := a.pieces[i]?.any fun piece => !piece.kind.isTrivia

/-- Trivia names the node that holds it. -/
theorem belong_trivia {ts : List Trivia} {i offset : Nat}
    (h : Stands a.pieces i (triviaPieces parent offset ts)) :
    a.Belong parent (List.range' i ts.length) := by
  induction ts generalizing i offset with
  | nil => simp [Belong]
  | cons t ts ih =>
    obtain ⟨hpiece, hmore⟩ := h.cons
    rw [List.length_cons, List.range'_succ]
    exact List.forall_mem_cons.2 ⟨⟨_, hpiece, rfl⟩, ih hmore⟩

/-- There is no token in trivia. -/
theorem filter_isToken_trivia {ts : List Trivia} {i offset : Nat}
    (h : Stands a.pieces i (triviaPieces parent offset ts)) :
    (List.range' i ts.length).filter a.isToken = [] := by
  induction ts generalizing i offset with
  | nil => rfl
  | cons t ts ih =>
    obtain ⟨hpiece, hmore⟩ := h.cons
    have hfirst : a.isToken i = false := by
      rw [isToken, hpiece]
      rfl
    rw [List.length_cons, List.range'_succ, List.filter_cons_of_neg (by simp [hfirst]), ih hmore]

/-- The last piece of trivia ends where the trivia ends. -/
theorem stop_pieceSpan?_trivia {ts : List Trivia} {i offset : Nat}
    (h : Stands a.pieces i (triviaPieces parent offset ts)) (hi : a.startOf? i = some offset)
    (hne : ts ≠ []) :
    ∃ start, a.pieceSpan? (i + ts.length - 1) = some ⟨start, offset + Trivia.sizeOf ts⟩ := by
  induction ts generalizing i offset with
  | nil => exact absurd rfl hne
  | cons t ts ih =>
    obtain ⟨hpiece, hmore⟩ := h.cons
    have hnext := startOf?_succ hpiece
    by_cases hts : ts = []
    · subst hts
      refine ⟨offset, ?_⟩
      rw [List.length_singleton, Nat.add_sub_cancel, pieceSpan?, hi, hnext]
      exact span?_of_le (Nat.le_add_right _ _)
    · obtain ⟨start, hspan⟩ := ih hmore hnext hts
      refine ⟨start, ?_⟩
      rw [Trivia.sizeOf, ← Nat.add_assoc offset, ← hspan, List.length_cons]
      congr 1
      omega

namespace HasToken

variable {t : Token} (h : a.HasToken parent m t)

include h

/-- A token and its trivia name the node that holds them. -/
theorem isChild : a.IsChild parent (.piece (m.piece + t.leading.length)) := by
  refine ⟨_, _, _, h.token, rfl, h.leading?, h.trailing?, ?_⟩
  refine List.forall_mem_append.2 ⟨belong_trivia h.leading, ?_⟩
  exact List.forall_mem_cons.2 ⟨⟨_, h.token, rfl⟩, belong_trivia h.trailing⟩

/-- The first piece begins where the token with its trivia begins. -/
theorem exists_first : ∃ stop,
    a.pieceSpan? ((List.range' m.piece t.leading.length).head?.getD (m.piece + t.leading.length))
      = some ⟨m.offset, stop⟩ := by
  have htoken := h.pieceSpan?
  cases hleading : t.leading with
  | nil =>
    rw [Token.leadingSize, hleading] at htoken
    exact ⟨_, htoken⟩
  | cons l ls =>
    have hpiece := h.leading
    rw [hleading] at hpiece
    refine ⟨m.offset + l.size, ?_⟩
    rw [List.length_cons, List.range'_succ, List.head?_cons, Option.getD_some, Arena.pieceSpan?,
      h.start, startOf?_succ hpiece.cons.1]
    exact span?_of_le (Nat.le_add_right _ _)

/-- The last piece ends where the token with its trivia ends. -/
theorem exists_last : ∃ start,
    a.pieceSpan? ((List.range' (m.piece + t.leading.length + 1) t.trailing.length).getLast?.getD
      (m.piece + t.leading.length)) = some ⟨start, (m.pastToken t).offset⟩ := by
  have hstop : (m.pastToken t).offset
      = m.offset + t.leadingSize + t.size + Trivia.sizeOf t.trailing := by
    simp [Mark.pastToken, Token.fullSize, Nat.add_assoc]
  rw [hstop, List.getLast?_range']
  by_cases hne : t.trailing = []
  · rw [hne]
    exact ⟨_, h.pieceSpan?⟩
  · rw [if_neg (mt List.length_eq_zero_iff.1 hne)]
    exact stop_pieceSpan?_trivia h.trailing h.startOf?_trailing hne

theorem tokenSpan? : a.tokenSpan? (m.piece + t.leading.length)
    = some ⟨m.offset, (m.pastToken t).offset⟩ := by
  obtain ⟨stop, hfirst⟩ := h.exists_first
  obtain ⟨start, hlast⟩ := h.exists_last
  rw [Arena.tokenSpan?, h.leading?, h.trailing?]
  simp only [Option.bind_eq_bind, Option.bind_some, hfirst, hlast]
  exact span?_of_le (Nat.le_add_right _ _)

/-- There is one token in a token with its trivia. -/
theorem filter_isToken :
    (List.range' m.piece (t.leading.length + 1 + t.trailing.length)).filter a.isToken
      = [m.piece + t.leading.length] := by
  have htoken : a.isToken (m.piece + t.leading.length) = true := by
    rw [isToken, h.token]
    rfl
  rw [Nat.add_assoc, ← List.range'_append_1, Nat.add_comm 1, List.range'_succ, List.filter_append,
    List.filter_cons_of_pos htoken, filter_isToken_trivia h.leading,
    filter_isToken_trivia h.trailing]
  rfl

end HasToken

/-! ## Nodes and their children -/

theorem Holds.nodeSpan? {parent : Option Nat} {kind : NodeKind} {children : List (Tree Token)}
    (h : a.Holds m (.enclose parent m kind children (forestBatch m.node m.enter children))) :
    a.nodeSpan? m.node = some ⟨m.offset, (m.enter.pastAll children).offset⟩ := by
  rw [Arena.nodeSpan?, h.cell]
  simp only [Option.bind_eq_bind, Option.bind_some, h.startOf, h.inner.startOf_pastAll]
  exact span?_of_le (m.enter.le_pastAll children).offset

/-- A tree stands where it is held, as a child of the node that holds it. -/
theorem Holds.child (hlt : parent < m.node) : (t : Tree Token) →
    a.Holds m (treeBatch parent m t) →
    a.childSpan? (m.ref t) = some ⟨m.offset, (m.past t).offset⟩ ∧ a.IsChild parent (m.ref t)
  | .leaf _, h => ⟨h.token.tokenSpan?, h.token.isChild⟩
  | .node _ _, h => ⟨h.nodeSpan?, hlt, _, h.cell, rfl⟩

/-- Trees stand one after the other, as children of the node that holds them. -/
theorem Holds.adjoin {ts : List (Tree Token)} (hlt : parent < m.node)
    (h : a.Holds m (forestBatch parent m ts)) :
    (∃ spans, (m.refs ts).mapM a.childSpan? = some spans ∧
      Adjoin m.offset spans (m.pastAll ts).offset) ∧ ∀ c ∈ m.refs ts, a.IsChild parent c := by
  induction ts generalizing m with
  | nil => exact ⟨⟨[], rfl, rfl⟩, by simp [Mark.refs]⟩
  | cons t ts ih =>
    obtain ⟨hspan, hchild⟩ := Holds.child hlt t h.head
    obtain ⟨⟨spans, hspans, hadjoin⟩, hmore⟩ :=
      ih (Nat.lt_of_lt_of_le hlt (m.le_past t).node) h.tail
    refine ⟨⟨⟨m.offset, (m.past t).offset⟩ :: spans, ?_, rfl, hadjoin⟩,
      List.forall_mem_cons.2 ⟨hchild, hmore⟩⟩
    simp [Mark.refs, hspan, hspans]

theorem Holds.filled_node {parent : Option Nat} {kind : NodeKind} {children : List (Tree Token)}
    (h : a.Holds m (.enclose parent m kind children (forestBatch m.node m.enter children))) :
    a.Filled m.node := by
  obtain ⟨⟨spans, hspans, hadjoin⟩, hchildren⟩ := Holds.adjoin (Nat.lt_succ_self _) h.inner
  exact ⟨_, _, spans, h.nodeSpan?, h.childrenOf, hspans, hadjoin, hchildren⟩

mutual

/-- All nodes of a tree are filled. -/
theorem Holds.filled {parent : Nat} {m : Mark} : (t : Tree Token) →
    a.Holds m (treeBatch parent m t) → ∀ n, m.node ≤ n → n < (m.past t).node → a.Filled n
  | .leaf _, _, n, hle, hlt => absurd hle (Nat.not_le.2 hlt)
  | .node _ children, h, n, hle, hlt => by
    rcases Nat.eq_or_lt_of_le hle with rfl | hle
    · exact h.filled_node
    · exact filledAll children h.inner n hle hlt

/-- All nodes of some trees are filled. -/
theorem Holds.filledAll {parent : Nat} {m : Mark} : (ts : List (Tree Token)) →
    a.Holds m (forestBatch parent m ts) → ∀ n, m.node ≤ n → n < (m.pastAll ts).node → a.Filled n
  | [], _, n, hle, hlt => absurd hle (Nat.not_le.2 hlt)
  | t :: ts, h, n, hle, hlt => by
    by_cases hn : n < (m.past t).node
    · exact filled t h.head n hle hn
    · exact filledAll ts h.tail n (Nat.not_lt.1 hn) hlt

end

/-! ## Each child in one list -/

/-- The nodes and tokens among so many nodes and pieces. -/
def childrenFrom (a : Arena) (node nodes piece pieces : Nat) : List Child :=
  (List.range' node nodes).map .node ++ ((List.range' piece pieces).filter a.isToken).map .piece

theorem childrenFrom_append (a : Arena) (node n n' piece l l' : Nat) :
    (a.childrenFrom node n piece l ++ a.childrenFrom (node + n) n' (piece + l) l').Perm
      (a.childrenFrom node (n + n') piece (l + l')) := by
  rw [childrenFrom, childrenFrom, childrenFrom, ← List.range'_append_1, ← List.range'_append_1,
    List.map_append, List.filter_append, List.map_append, List.append_assoc, List.append_assoc]
  exact (List.perm_append_comm_assoc _ _ _).append_left _

theorem filterMap_childrenFrom (a : Arena) (node n piece l : Nat) :
    (a.childrenFrom node n piece l).filterMap Child.node? = List.range' node n := by
  have hnode : Child.node? ∘ Child.node = some := rfl
  have hpiece : Child.node? ∘ Child.piece = fun _ => none := rfl
  rw [childrenFrom, List.filterMap_append, List.filterMap_map, List.filterMap_map, hnode, hpiece]
  simp

/-- What some nodes list as their children. -/
def listingsFrom (a : Arena) (node nodes : Nat) : List Child :=
  (List.range' node nodes).flatMap fun n => (a.childrenOf? n).getD []

theorem listingsFrom_append (a : Arena) (node n n' : Nat) :
    a.listingsFrom node (n + n') = a.listingsFrom node n ++ a.listingsFrom (node + n) n' := by
  rw [listingsFrom, ← List.range'_append_1, List.flatMap_append]
  rfl

theorem Holds.listingsFrom {parent : Option Nat} {kind : NodeKind} {children : List (Tree Token)}
    (h : a.Holds m (.enclose parent m kind children (forestBatch m.node m.enter children)))
    (n : Nat) :
    a.listingsFrom m.node (n + 1) = m.enter.refs children ++ a.listingsFrom (m.node + 1) n := by
  rw [Arena.listingsFrom, List.range'_succ, List.flatMap_cons, h.childrenOf]
  rfl

mutual

/-- The nodes and tokens of a tree are the tree itself and what its nodes list. -/
theorem Holds.perm {parent : Nat} {m : Mark} : (t : Tree Token) →
    a.Holds m (treeBatch parent m t) →
    (m.ref t :: a.listingsFrom m.node (treeBatch parent m t).nodes.length).Perm
      (a.childrenFrom m.node (treeBatch parent m t).nodes.length
        m.piece (treeBatch parent m t).pieces.length)
  | .leaf t, h => by
    have hpieces : (treeBatch parent m (.leaf t)).pieces.length
        = t.leading.length + 1 + t.trailing.length := length_tokenPieces parent m.offset t
    rw [hpieces, childrenFrom, h.token.filter_isToken]
    exact .refl _
  | .node kind children, h => by
    have hinner := permAll children h.inner
    have hlistings := h.listingsFrom (forestBatch m.node m.enter children).nodes.length
    exact .trans (.of_eq (congrArg (m.ref (.node kind children) :: ·) hlistings))
      (.cons (.node m.node) hinner)

/-- The nodes and tokens of some trees are the trees themselves and what their nodes list. -/
theorem Holds.permAll {parent : Nat} {m : Mark} : (ts : List (Tree Token)) →
    a.Holds m (forestBatch parent m ts) →
    (m.refs ts ++ a.listingsFrom m.node (forestBatch parent m ts).nodes.length).Perm
      (a.childrenFrom m.node (forestBatch parent m ts).nodes.length
        m.piece (forestBatch parent m ts).pieces.length)
  | [], _ => .refl _
  | t :: ts, h => by
    have hfirst := perm t h.head
    have hothers := permAll ts h.tail
    have hnode : (m.past t).node = m.node + (treeBatch parent m t).nodes.length :=
      congrArg Mark.node (m.past_eq parent t)
    have hpiece : (m.past t).piece = m.piece + (treeBatch parent m t).pieces.length :=
      congrArg Mark.piece (m.past_eq parent t)
    rw [hnode, hpiece] at hothers
    have hall := (hfirst.append hothers).trans (childrenFrom_append a _ _ _ _ _ _)
    simp only [forestBatch, Batch.append, List.length_append, listingsFrom_append]
    refine .trans ?_ hall
    -- the other trees move in front of what the nodes of the first one list
    rw [Mark.refs, List.cons_append, List.cons_append]
    exact .cons _ (List.perm_append_comm_assoc _ _ _)

end

/-- All nodes but the root, and all tokens. -/
def everyChild (a : Arena) : List Child :=
  a.childrenFrom 1 (a.nodes.length - 1) 1 (a.pieces.length - 1)

/-- Each node but the root and each token is listed as a child once. -/
theorem perm_listings_ofTree (t : SyntaxTree) :
    (ofTree t).listings.Perm (ofTree t).everyChild := by
  have h := holds_ofTree t
  have hlistings := h.listingsFrom (forestBatch 0 Mark.first.enter t.children).nodes.length
  have hrange : (ofTree t).listings = (ofTree t).listingsFrom 0 (ofTree t).nodes.length := by
    rw [listings, List.range_eq_range']
    rfl
  rw [hrange]
  exact .trans (.of_eq hlistings) (Holds.permAll t.children h.inner)

/-! ## The whole arena -/

/-- **The arena of a tree is well formed.** -/
theorem wellFormed_ofTree (t : SyntaxTree) : (ofTree t).WellFormed := by
  have h := holds_ofTree t
  have hstop := Mark.first.enter.pastAll_eq 0 t.children
  have hsize : (Mark.first.enter.pastAll t.children).offset = Text.size t.text := by
    rw [hstop, t.text_eq, ← Tree.forestSum_fullSize]
    exact Nat.zero_add _
  have hnode : (Mark.first.enter.pastAll t.children).node = (ofTree t).nodes.length := by
    rw [hstop]
    exact Nat.add_comm _ _
  have hclimb : Climb 0 (ofTree t).pieces (Text.size t.text) := by
    rw [← hsize]
    exact ⟨Nat.le_refl 0, climb_forestBatch 0 Mark.first.enter t.children⟩
  have hroot : (ofTree t).nodeSpan? 0 = some ⟨0, Text.size t.text⟩ := by
    rw [← hsize]
    exact h.nodeSpan?
  refine ⟨⟨_, rfl, rfl⟩, hclimb.pairwise.2, hclimb.getLast?, ⟨_, h.cell, rfl⟩, hroot, ?_, ?_⟩
  · intro n hn
    rcases Nat.eq_zero_or_pos n with rfl | hpos
    · exact h.filled_node
    · exact Holds.filledAll t.children h.inner n hpos (hnode ▸ hn)
  · have hnodes := (perm_listings_ofTree t).filterMap Child.node?
    rwa [everyChild, filterMap_childrenFrom] at hnodes

/-- **What is built passes the check.** It is well formed, each token is the child of one node, and
it is the arena of the tree that the same calls build. -/
theorem assertInvariants_build {s : Text} {calls : List BuildCall} {a : Arena}
    (h : build s calls = .ok a) :
    a.assertInvariants = .ok () ∧ a.WellFormed ∧ a.listings.Perm a.everyChild ∧
      ∃ t, Builder.build s calls = .ok t ∧ a = ofTree t := by
  obtain ⟨t, hbuild, rfl⟩ := exists_of_build h
  have hwell := wellFormed_ofTree t
  exact ⟨assertInvariants_eq_ok_iff.2 hwell, hwell, perm_listings_ofTree t, t, hbuild, rfl⟩

/-- Nodes without children at both ends of another one, and tokens without text. -/
theorem assertInvariants_build_empty_nodes :
    ∃ a, build " é;".toList
        [.start (.node .sourceFile), .start (.node .directive), .start (.node .error), .finish,
          .token [⟨.whitespace, 1⟩] (.token .word) 2 [⟨.newline, 0⟩],
          .token [] (.token .semicolon) 1 [], .start (.node .error), .finish, .finish,
          .token [⟨.comment, 0⟩] (.token .endOfFile) 0 [], .finish] = .ok a ∧
      a.children = [.node 2, .piece 2, .piece 4, .node 3, .node 1, .piece 6] ∧
      a.assertInvariants = .ok () ∧ a.WellFormed := by
  refine ⟨?arena, ?hbuild, ?hchildren, (assertInvariants_build ?hbuild).1,
    (assertInvariants_build ?hbuild).2.1⟩
  case hbuild => rfl
  case hchildren => rfl

end NginxConf.Arena
