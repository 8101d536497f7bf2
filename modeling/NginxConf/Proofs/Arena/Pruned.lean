import NginxConf.Arena.Walk
import NginxConf.Proofs.Arena.Places
import NginxConf.Proofs.SyntaxTree.Pruned

/-!
# Walks through an arena that leave out nodes

A walk through the arena of a tree and a walker in the tree that stand at the same place go on in
the same way (`Follows.next`), and still do so when both skip. So the walk through the arena that
leaves out what is below some nodes is the one through the tree.
-/

namespace NginxConf.Arena

/-- Whether a node of one of the kinds is entered. -/
def Event.enters (a : Arena) (stop : NodeKind → Bool) : Event → Bool
  | enter n => a.nodes[n]?.any (stop ·.kind)
  | _ => false

/-- An event of a walk, in the tree. -/
def Event.read? (t : SyntaxTree) : Event → Option NginxConf.Event
  | enter n => (t.nodeAt? n).map .enter
  | leave n => (t.nodeAt? n).map .leave
  | token i => (t.pieceAt? i).map fun l => .token l.owner

/--
A walk that goes on by `next`, and skips after each node of some kinds that it has entered, comes to
its end after these events.
-/
inductive Yields (a : Arena) (next : Walk → Step) (stop : NodeKind → Bool) :
    Walk → List Event → Prop
  | ended {w} (h : next w = .ended) : Yields a next stop w []
  | event {w e w' es} (h : next w = .event e w') (hgo : e.enters a stop = false)
      (more : Yields a next stop w' es) : Yields a next stop w (e :: es)
  | skipped {w e w' w'' es} (h : next w = .event e w') (hstop : e.enters a stop = true)
      (hskip : w'.skipSubtree? = some w'') (more : Yields a next stop w'' es) :
      Yields a next stop w (e :: es)

/-- A walk through the arena of a tree stands where a walker in the tree stands. -/
structure Follows (t : SyntaxTree) (w : Walk) (w' : Walker) : Prop where
  ahead : Option.Rel (fun i n => t.nodeAt? i = some n) w.ahead w'.ahead
  entered : List.Forall₂
    (fun x y => t.nodeAt? x.1 = some y.1 ∧ List.Forall₂ (fun c e => c.element? t = some e) x.2 y.2)
    w.entered w'.entered

/-- A step of a walk and one of a walker are the same. -/
inductive SameStep (t : SyntaxTree) : Step → Option (NginxConf.Event × Walker) → Prop
  | ended : SameStep t .ended none
  | event {e w e' w'} (he : e.read? t = some e') (hw : Follows t w w') :
      SameStep t (.event e w) (some (e', w'))

variable {t : SyntaxTree} {w : Walk} {w' : Walker} {stop : NodeKind → Bool}

namespace SameStep

theorem eq_ended {r : Step} (h : SameStep t r none) : r = .ended := by
  cases h
  rfl

theorem eq_none {s : Option (NginxConf.Event × Walker)} (h : SameStep t .ended s) : s = none := by
  cases h
  rfl

theorem exists_event {r : Step} {e' : NginxConf.Event} (h : SameStep t r (some (e', w'))) :
    ∃ e w, r = .event e w ∧ e.read? t = some e' ∧ Follows t w w' := by
  cases h with
  | event he hw => exact ⟨_, _, rfl, he, hw⟩

theorem exists_some {s : Option (NginxConf.Event × Walker)} {e : Event}
    (h : SameStep t (.event e w) s) :
    ∃ e' w', s = some (e', w') ∧ e.read? t = some e' ∧ Follows t w w' := by
  cases h with
  | event he hw => exact ⟨_, _, rfl, he, hw⟩

end SameStep

theorem Follows.startAt {i : Nat} {n : NodeRef} (h : t.nodeAt? i = some n) :
    Follows t (.startAt i) (.start n) :=
  ⟨.some h, .nil⟩

theorem sameStep_enter {i : Nat} {n : NodeRef} {entered : List (Nat × List Child)}
    {entered' : List (NodeRef × List ElementRef)} (h : t.nodeAt? i = some n)
    (hentered : Follows t ⟨none, entered⟩ ⟨none, entered'⟩) :
    SameStep t ((ofTree t).enter i entered)
      (some (.enter n, ⟨none, (n, n.elements) :: entered'⟩)) := by
  obtain ⟨cell, hcell⟩ := t.storesNode h
  obtain ⟨cs, hcs, hchildren⟩ := hcell.children
  rw [enter, hcs]
  refine .event ?_ ⟨.none, .cons ⟨h, hchildren⟩ hentered.entered⟩
  rw [Event.read?, h]
  rfl

/-- **A walk and a walker that stand at the same place go on in the same way.** -/
theorem Follows.next (h : Follows t w w') : SameStep t ((ofTree t).next w) w'.next? := by
  obtain ⟨ahead, entered⟩ := w
  obtain ⟨ahead', entered'⟩ := w'
  obtain ⟨hahead, hentered⟩ := h
  cases hahead with
  | some hn => exact sameStep_enter hn ⟨.none, hentered⟩
  | none =>
    cases hentered with
    | nil => exact .ended
    | @cons x y outer outer' hxy houter =>
      obtain ⟨n, cs⟩ := x
      obtain ⟨m, es⟩ := y
      obtain ⟨hm, hes⟩ := hxy
      cases hes with
      | nil => exact .event (congrArg (Option.map NginxConf.Event.leave) hm) ⟨.none, houter⟩
      | @cons c e cs es hce hes =>
        cases c with
        | node i =>
          obtain ⟨k, hk, rfl⟩ := Option.map_eq_some_iff.1 hce
          exact sameStep_enter hk ⟨.none, .cons ⟨hm, hes⟩ houter⟩
        | piece i =>
          obtain ⟨l, hl, rfl⟩ := Option.map_eq_some_iff.1 hce
          refine .event ?_ ⟨.none, .cons ⟨hm, hes⟩ houter⟩
          rw [Event.read?, hl]
          rfl

/-- When one can skip, so can the other one, and they stand at the same place again. -/
theorem Follows.skipSubtree?_eq (h : Follows t w w') :
    (∀ v, w.skipSubtree? = some v → ∃ v', w'.skipSubtree? = some v' ∧ Follows t v v') ∧
      ∀ v', w'.skipSubtree? = some v' → ∃ v, w.skipSubtree? = some v ∧ Follows t v v' := by
  obtain ⟨ahead, entered⟩ := w
  obtain ⟨ahead', entered'⟩ := w'
  obtain ⟨hahead, hentered⟩ := h
  cases hentered with
  | nil => exact ⟨nofun, nofun⟩
  | cons _ houter =>
    constructor
    · rintro v ⟨⟩
      exact ⟨_, rfl, hahead, houter⟩
    · rintro v' ⟨⟩
      exact ⟨_, rfl, hahead, houter⟩

/-- In lists of children that belong together, the same tokens come first. -/
theorem forall₂_dropWhile {cs : List Child} {es : List ElementRef}
    (h : List.Forall₂ (fun c e => c.element? t = some e) cs es) :
    List.Forall₂ (fun c e => c.element? t = some e) (cs.dropWhile (·.node?.isNone))
      (es.dropWhile fun | .token _ => true | .node _ => false) := by
  induction h with
  | nil => exact .nil
  | @cons c e cs es hce hes ih =>
    cases c with
    | node i =>
      obtain ⟨k, hk, rfl⟩ := Option.map_eq_some_iff.1 hce
      exact .cons hce hes
    | piece i =>
      obtain ⟨l, hl, rfl⟩ := Option.map_eq_some_iff.1 hce
      exact ih

/-- **When both pass over tokens, they stand at the same place again.** -/
theorem Follows.skipTokens (h : Follows t w w') : Follows t w.skipTokens w'.skipTokens := by
  obtain ⟨ahead, entered⟩ := w
  obtain ⟨ahead', entered'⟩ := w'
  obtain ⟨hahead, hentered⟩ := h
  cases hahead with
  | some hn => exact ⟨.some hn, hentered⟩
  | none =>
    cases hentered with
    | nil => exact ⟨.none, .nil⟩
    | cons hxy houter => exact ⟨.none, .cons ⟨hxy.1, forall₂_dropWhile hxy.2⟩ houter⟩

theorem Follows.nextNode (h : Follows t w w') :
    SameStep t ((ofTree t).nextNode w) w'.nextNode? :=
  h.skipTokens.next

/-! ## Whole walks -/

theorem enters_eq {e : Event} {e' : NginxConf.Event} (he : e.read? t = some e') :
    e.enters (ofTree t) stop = e'.enters stop := by
  cases e with
  | enter i =>
    obtain ⟨n, hn, rfl⟩ := Option.map_eq_some_iff.1 he
    obtain ⟨cell, hcell⟩ := t.storesNode hn
    rw [Event.enters, hcell.stored, Option.any_some, hcell.kind]
    rfl
  | leave i =>
    obtain ⟨n, -, rfl⟩ := Option.map_eq_some_iff.1 he
    rfl
  | token i =>
    obtain ⟨l, -, rfl⟩ := Option.map_eq_some_iff.1 he
    rfl

variable {next : Walk → Step} {next' : Walker → Option (NginxConf.Event × Walker)}

/-- Where the steps are the same, a walk comes to its end when a walker does. -/
theorem Follows.exists_yields (hnext : ∀ {w w'}, Follows t w w' → SameStep t (next w) (next' w'))
    {es' : List NginxConf.Event} (h : Walker.Yields next' stop w' es') (hw : Follows t w w') :
    ∃ es, Yields (ofTree t) next stop w es := by
  induction h generalizing w with
  | ended h => exact ⟨[], .ended (h ▸ hnext hw).eq_ended⟩
  | event h hgo more ih =>
    obtain ⟨e, w, hr, he, hw⟩ := (h ▸ hnext hw).exists_event
    obtain ⟨es, hes⟩ := ih hw
    exact ⟨_, .event hr ((enters_eq he).trans hgo) hes⟩
  | skipped h hstop hskip more ih =>
    obtain ⟨e, w, hr, he, hw⟩ := (h ▸ hnext hw).exists_event
    obtain ⟨v, hv, hw⟩ := hw.skipSubtree?_eq.2 _ hskip
    obtain ⟨es, hes⟩ := ih hw
    exact ⟨_, .skipped hr ((enters_eq he).trans hstop) hv hes⟩

/-- Where the steps are the same, the events of a walk are those of a walker. -/
theorem Yields.follows (hnext : ∀ {w w'}, Follows t w w' → SameStep t (next w) (next' w'))
    {es : List Event} (h : Yields (ofTree t) next stop w es) (hw : Follows t w w') :
    ∃ es', Walker.Yields next' stop w' es' ∧ es.mapM (Event.read? t) = some es' := by
  induction h generalizing w' with
  | ended h => exact ⟨[], .ended (h ▸ hnext hw).eq_none, rfl⟩
  | event h hgo more ih =>
    obtain ⟨e', w', hr, he, hw⟩ := (h ▸ hnext hw).exists_some
    obtain ⟨es', hes', hread⟩ := ih hw
    refine ⟨_, .event hr ((enters_eq he).symm.trans hgo) hes', ?_⟩
    rw [List.mapM_cons, he, hread]
    rfl
  | skipped h hstop hskip more ih =>
    obtain ⟨e', w', hr, he, hw⟩ := (h ▸ hnext hw).exists_some
    obtain ⟨v', hv, hw⟩ := hw.skipSubtree?_eq.1 _ hskip
    obtain ⟨es', hes', hread⟩ := ih hw
    refine ⟨_, .skipped hr ((enters_eq he).symm.trans hstop) hv hes', ?_⟩
    rw [List.mapM_cons, he, hread]
    rfl

/--
**All walks agree.** A walker that skips after each node of some kinds that it enters gives the walk
that leaves out what is below these nodes, and nothing else, with its tokens or without them. A
visitor that does not go on below these nodes logs the nodes that this walk enters and the tokens
that it meets, in the same order, except for nodes that stand for nothing. A walk through the arena
of a tree comes to its end, too, and gives the same events.
-/
theorem pruned_walks_agree (stop : NodeKind → Bool) :
    (∀ n : NodeRef,
      (∀ es, Walker.Yields Walker.next? stop (.start n) es ↔ es = n.prunedEvents stop) ∧
      (∀ es, Walker.Yields Walker.nextNode? stop (.start n) es ↔
        es = (n.prunedEvents stop).filter fun e => !e.isToken) ∧
      (stop .tombstone = false →
        n.visitLog stop = (n.prunedEvents stop).filterMap Event.visited?)) ∧
    ∀ (t : SyntaxTree) (i : Nat), i < (ofTree t).nodes.length → ∃ n, t.nodeAt? i = some n ∧
      ((∃ es, Yields (ofTree t) (ofTree t).next stop (.startAt i) es) ∧
        ∀ es, Yields (ofTree t) (ofTree t).next stop (.startAt i) es →
          es.mapM (Event.read? t) = some (n.prunedEvents stop)) ∧
      (∃ es, Yields (ofTree t) (ofTree t).nextNode stop (.startAt i) es) ∧
        ∀ es, Yields (ofTree t) (ofTree t).nextNode stop (.startAt i) es →
          es.mapM (Event.read? t) = some ((n.prunedEvents stop).filter fun e => !e.isToken) := by
  constructor
  · intro n
    exact ⟨fun _ => Walker.yields_iff, fun _ => Walker.yields_nodes_iff, fun h => n.visitLog_eq h⟩
  · intro t i hi
    obtain ⟨n, hn⟩ := SyntaxTree.exists_nodeAt?_iff.2 hi
    have hstart := Follows.startAt hn
    refine ⟨n, hn, ⟨?_, fun es hes => ?_⟩, ?_, fun es hes => ?_⟩
    · exact hstart.exists_yields Follows.next (Walker.yields_iff.2 rfl)
    · obtain ⟨es', hes', hread⟩ := hes.follows Follows.next hstart
      rw [hread, Walker.yields_iff.1 hes']
    · exact hstart.exists_yields Follows.nextNode (Walker.yields_nodes_iff.2 rfl)
    · obtain ⟨es', hes', hread⟩ := hes.follows Follows.nextNode hstart
      rw [hread, Walker.yields_nodes_iff.1 hes']

/-- A node that stands for nothing is passed through, and what is below an error is left out. -/
theorem pruned_walks_agree_tombstone :
    let t : SyntaxTree := ⟨.sourceFile, [.node .tombstone [.leaf ⟨[], .word, ['a'], []⟩],
      .node .error [.leaf ⟨[], .semicolon, [';'], []⟩]]⟩
    let stop : NodeKind → Bool := (· = .error)
    let es : List Event := [.enter 0, .enter 1, .token 1, .leave 1, .enter 2, .leave 0]
    Yields (ofTree t) (ofTree t).next stop (.startAt 0) es ∧
      (∃ n, t.nodeAt? 0 = some n ∧ es.mapM (Event.read? t) = some (n.prunedEvents stop)) ∧
      ((NodeRef.root t).visitLog stop).length = 3 ∧
      (NodeRef.root t).visitLog stop
        = ((NodeRef.root t).prunedEvents stop).filterMap Event.visited? := by
  intro t stop es
  have hyields : Yields (ofTree t) (ofTree t).next stop (.startAt 0) es :=
    .event rfl rfl <| .event rfl rfl <| .event rfl rfl <| .event rfl rfl <|
      .skipped rfl rfl rfl <| .event rfl rfl <| .ended rfl
  obtain ⟨n, hn, ⟨-, hevents⟩, -⟩ := (pruned_walks_agree stop).2 t 0 (by decide)
  exact ⟨hyields, ⟨n, hn, hevents es hyields⟩, rfl, ((pruned_walks_agree stop).1 _).2.2 rfl⟩

end NginxConf.Arena
