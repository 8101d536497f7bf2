import NginxConf.Arena.Walk
import NginxConf.Proofs.Arena.Build
import NginxConf.Proofs.SyntaxTree.Walk

/-!
# A walk reads the calls

A walk through an arena that holds a tree meets the nodes and tokens of the tree in order, and what
is read off it are the calls that build the tree. A walk can go only one way, so nothing else can be
read, and the calls are as good as the arena.
-/

namespace NginxConf

namespace Arena

variable {a : Arena} {m : Mark} {parent : Nat}

/-! ## One way to go -/

theorem Walks.eq {w : Walk} {es es' : List Event} (h : a.Walks w es) (h' : a.Walks w es') :
    es = es' := by
  induction h generalizing es' with
  | ended h =>
    cases h' with
    | ended => rfl
    | event hevent => rw [h] at hevent; cases hevent
  | event h more ih =>
    cases h' with
    | ended hended => rw [h] at hended; cases hended
    | event hevent more' =>
      rw [h] at hevent
      cases hevent
      rw [ih more']

theorem Reads.eq {cs cs' : List BuildCall} (h : a.Reads cs) (h' : a.Reads cs') : cs = cs' := by
  obtain ⟨es, hwalks, hcalls⟩ := h
  obtain ⟨es', hwalks', hcalls'⟩ := h'
  rw [hwalks'.eq hwalks, hcalls] at hcalls'
  exact Option.some.inj hcalls'

/-! ## What a walk reads -/

theorem mapM_triviaLength? {ts : List Trivia} {i offset : Nat}
    (h : Stands a.pieces i (triviaPieces parent offset ts)) (hi : a.startOf? i = some offset) :
    (List.range' i ts.length).mapM a.triviaLength? = some (ts.map Trivia.length) := by
  induction ts generalizing i offset with
  | nil => rfl
  | cons t ts ih =>
    obtain ⟨hpiece, hmore⟩ := h.cons
    have hspan : a.pieceSpan? i = some ⟨offset, offset + t.size⟩ := by
      rw [pieceSpan?, hi, startOf?_succ hpiece]
      exact span?_of_le (Nat.le_add_right _ _)
    have hlength : a.triviaLength? i = some t.length := by
      simp [triviaLength?, hpiece, hspan, Kind.trivia?, Span.size, Trivia.length]
    rw [List.length_cons, List.range'_succ, List.mapM_cons, hlength,
      ih hmore (startOf?_succ hpiece)]
    rfl

theorem HasToken.call? {t : Token} (h : a.HasToken parent m t) :
    a.call? (.token (m.piece + t.leading.length)) = some t.call := by
  have hleading := mapM_triviaLength? h.leading h.start
  have htrailing := mapM_triviaLength? h.trailing h.startOf?_trailing
  simp [Arena.call?, h.token, h.pieceSpan?, h.leading?, h.trailing?, hleading, htrailing, Span.size,
    Token.call]

/-- From where a node is entered, a walk reads the calls of the node and goes on behind it. -/
theorem Holds.walk_node {parent : Option Nat} {kind : NodeKind} {children : List (Tree Token)}
    {inner : List Event}
    (h : a.Holds m (.enclose parent m kind children (forestBatch m.node m.enter children)))
    (hcalls : inner.mapM a.call? = some (forestCalls children))
    (hinner : ∀ {n more outer es}, a.Walks ⟨none, (n, more) :: outer⟩ es →
      a.Walks ⟨none, (n, m.enter.refs children ++ more) :: outer⟩ (inner ++ es)) :
    (Event.enter m.node :: (inner ++ [.leave m.node])).mapM a.call?
        = some (.start kind :: (forestCalls children ++ [.finish])) ∧
      ∀ {w outer es}, a.next w = a.enter m.node outer → a.Walks ⟨none, outer⟩ es →
        a.Walks w (.enter m.node :: (inner ++ [.leave m.node]) ++ es) := by
  constructor
  · simp [List.mapM_append, Arena.call?, h.cell, hcalls]
  · intro w outer es hw hes
    have henter : a.next w = .event (.enter m.node)
        ⟨none, (m.node, m.enter.refs children) :: outer⟩ := by
      rw [hw, Arena.enter, h.childrenOf]
    rw [← List.append_nil (m.enter.refs children)] at henter
    rw [List.cons_append, List.append_assoc]
    exact .event henter (hinner (.event rfl hes))

mutual

/-- Past a tree, a walk reads the calls of the tree. -/
theorem Holds.walk {parent : Nat} {m : Mark} : (t : Tree Token) →
    a.Holds m (treeBatch parent m t) →
    ∃ events : List Event, events.mapM a.call? = some (treeCalls t) ∧
      ∀ {n more outer es}, a.Walks ⟨none, (n, more) :: outer⟩ es →
        a.Walks ⟨none, (n, m.ref t :: more) :: outer⟩ (events ++ es)
  | .leaf t, h => ⟨[.token (m.piece + t.leading.length)], by simp [h.token.call?, treeCalls],
      fun hes => .event rfl hes⟩
  | .node kind children, h => by
    obtain ⟨inner, hcalls, hinner⟩ := walkAll children h.inner
    obtain ⟨hcalls', hwalks⟩ := Holds.walk_node h hcalls hinner
    exact ⟨_, hcalls', fun hes => hwalks rfl hes⟩

/-- Past some trees, a walk reads the calls of the trees. -/
theorem Holds.walkAll {parent : Nat} {m : Mark} : (ts : List (Tree Token)) →
    a.Holds m (forestBatch parent m ts) →
    ∃ events : List Event, events.mapM a.call? = some (forestCalls ts) ∧
      ∀ {n more outer es}, a.Walks ⟨none, (n, more) :: outer⟩ es →
        a.Walks ⟨none, (n, m.refs ts ++ more) :: outer⟩ (events ++ es)
  | [], _ => ⟨[], rfl, id⟩
  | t :: ts, h => by
    obtain ⟨first, hcalls, hfirst⟩ := walk t h.head
    obtain ⟨others, hcalls', hothers⟩ := walkAll ts h.tail
    refine ⟨first ++ others, by simp [List.mapM_append, hcalls, hcalls', forestCalls], ?_⟩
    intro n more outer es hes
    rw [List.append_assoc]
    exact hfirst (hothers hes)

end

/-- The walk through the arena of a tree reads the calls of the tree. -/
theorem reads_ofTree (t : SyntaxTree) : (ofTree t).Reads t.calls := by
  have h := holds_ofTree t
  obtain ⟨inner, hcalls, hinner⟩ := h.inner.walkAll
  obtain ⟨hcalls', hwalks⟩ := Holds.walk_node h hcalls hinner
  have hall := hwalks (w := .start) rfl (.ended rfl)
  rw [List.append_nil] at hall
  exact ⟨_, hall, hcalls'⟩

/-- The walk through an arena that is built reads the calls that built it. -/
theorem reads_of_build {text : Text} {calls : List BuildCall} (h : build text calls = .ok a) :
    a.Reads calls ∧ a.text = text := by
  obtain ⟨t, hbuild, rfl⟩ := exists_of_build h
  obtain ⟨htext, hcalls, -⟩ := Builder.build_eq_ok hbuild
  exact ⟨hcalls ▸ reads_ofTree t, htext⟩

/-- **Building and walking are inverse.** The walk through what was built reads the calls that built
it and no others, over the same text they build the same again, and what is built from other calls
or another text differs. In the tree that has this arena, a walker meets the same calls. -/
theorem build_walk_inverse {s : Text} {calls : List BuildCall}
    (h : build s calls = .ok a) :
    a.text = s ∧ (∀ cs, a.Reads cs ↔ cs = calls) ∧
      (∀ cs, a.Reads cs → build a.text cs = .ok a) ∧
      (∀ {s' calls' a'}, build s' calls' = .ok a' →
        (a' = a ↔ s' = s ∧ calls' = calls)) ∧
      ∃ t es, Builder.build s calls = .ok t ∧ a = ofTree t ∧
        (Walker.start (.root t)).Walks es ∧ es.map NginxConf.Event.call = calls := by
  obtain ⟨hreads, htext⟩ := reads_of_build h
  refine ⟨htext, ?_, ?_, ?_, ?_⟩
  · intro cs
    constructor
    · intro hcs
      exact hcs.eq hreads
    · rintro rfl
      exact hreads
  · intro cs hcs
    rw [hcs.eq hreads, htext, h]
  · intro s' calls' a' h'
    obtain ⟨hreads', htext'⟩ := reads_of_build h'
    constructor
    · rintro rfl
      exact ⟨htext'.symm.trans htext, hreads'.eq hreads⟩
    · rintro ⟨rfl, rfl⟩
      rw [h] at h'
      exact (Except.ok.inj h').symm
  · obtain ⟨t, hbuild, ha⟩ := exists_of_build h
    have hcalls : (NodeRef.root t).events.map NginxConf.Event.call = calls := by
      rw [t.map_call_events, (Builder.build_eq_ok hbuild).2.1]
    exact ⟨t, _, hbuild, ha, Walker.walks_iff.2 rfl, hcalls⟩

/-- Trivia on both sides of a token, some of it without text, behind a node without children. -/
theorem build_walk_inverse_empty_node :
    ∃ a, build " é\n".toList
        [.start (.node .sourceFile), .start (.node .error), .finish,
          .token [⟨.whitespace, 1⟩] (.token .word) 2 [⟨.comment, 0⟩, ⟨.newline, 1⟩], .finish]
        = .ok a ∧
      a.pieces = [.sentinel, ⟨.trivia .whitespace, 0, 0, 1, 0⟩, ⟨.token .word, 1, 2, 3, 0⟩,
        ⟨.trivia .comment, 0, 0, 3, 0⟩, ⟨.trivia .newline, 0, 0, 4, 0⟩] ∧
      a.nodes = [⟨none, 0, 2, .sourceFile, 1, 5⟩, ⟨some 0, 0, 0, .error, 1, 1⟩] ∧
      a.children = [.node 1, .piece 2] ∧
      a.Reads [.start (.node .sourceFile), .start (.node .error), .finish,
        .token [⟨.whitespace, 1⟩] (.token .word) 2 [⟨.comment, 0⟩, ⟨.newline, 1⟩], .finish] := by
  refine ⟨_, rfl, rfl, rfl, rfl, ?_⟩
  exact ((build_walk_inverse (s := " é\n".toList) rfl).2.1 _).2 rfl

end Arena

end NginxConf
