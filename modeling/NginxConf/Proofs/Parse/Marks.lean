import NginxConf.Proofs.Parse.Machine

/-!
# Marks that are stored

A machine that follows a rule does what the rule returns: it notes the steps of the trees, makes the
reports of the issues, and ends where the rule ends. It may begin in any state in which the tokens
ahead are in order. What can go wrong is the storing of marks, and that is all (`Reaches`): where a
mark is not stored as it is, the machine may find no node there, or it gives the kind of one node to
another. In any case it reads the same tokens.

The proof goes along the derivation of the outcome (`reaches_driveWith`); what the derivation carries
beside the outcome is just what the machine checks.
-/

namespace NginxConf

/-- The event without the kind of a node. -/
def ParseEvent.blank : ParseEvent → ParseEvent
  | start _ => start none
  | e => e

namespace Machine

variable {m : Machine} {last : PlacedToken} {rest : List PlacedToken} {a b : Outcome PlacedToken}

/-! ## Places among the events -/

/-- The events of some trees begin at a place, and the marks of all nodes among them are stored as
they are. -/
def Kept (store : Nat → Nat) (place : Nat) (ts : List (Tree PlacedToken)) : Prop :=
  ∀ i kind, (Tree.forestSteps ts)[i]? = some (.start kind) → store (place + i) = place + i

namespace Kept

variable {store : Nat → Nat} {place : Nat} {ss ts : List (Tree PlacedToken)}

theorem left (h : Kept store place (ss ++ ts)) : Kept store place ss := by
  intro i kind hi
  refine h i kind ?_
  rw [Tree.forestSteps_append, List.getElem?_append_left (List.getElem?_eq_some_iff.1 hi).1]
  exact hi

theorem right (h : Kept store place (ss ++ ts)) :
    Kept store (place + (Tree.forestSteps ss).length) ts := by
  intro i kind hi
  have hplace := h ((Tree.forestSteps ss).length + i) kind
    (by rw [Tree.forestSteps_append, List.getElem?_append_right (Nat.le_add_right _ _),
      Nat.add_sub_cancel_left, hi])
  rwa [Nat.add_assoc]

theorem mark {kind : NodeKind} (h : Kept store place [.node kind ts]) : store place = place :=
  h 0 (some kind) (by simp [Tree.forestSteps, Tree.steps])

theorem inner {kind : NodeKind} (h : Kept store place [.node kind ts]) :
    Kept store (place + 1) ts := by
  intro i kind' hi
  have hplace := h (i + 1) kind' (by
    simp only [Tree.forestSteps, Tree.steps, List.append_nil, List.getElem?_cons_succ]
    rw [List.getElem?_append_left (List.getElem?_eq_some_iff.1 hi).1, hi])
  rwa [Nat.add_assoc, Nat.add_comm 1 i]

/-- Where no mark is changed, all are kept. -/
theorem of_id : Kept id place ts := fun _ _ _ => rfl

end Kept

/-! ## Machines that differ in kinds of nodes -/

/-- Two machines that differ at most in the kinds of nodes among their events. -/
structure Like (m n : Machine) : Prop where
  rest_eq : m.rest = n.rest
  reports_eq : m.reports = n.reports
  depth_eq : m.depth = n.depth
  readEnd_eq : m.readEnd = n.readEnd
  events_eq : m.events.map ParseEvent.blank = n.events.map ParseEvent.blank

namespace Like

variable {n k : Machine}

theorem refl (m : Machine) : m.Like m := ⟨rfl, rfl, rfl, rfl, rfl⟩

theorem trans (h : m.Like n) (h' : n.Like k) : m.Like k :=
  ⟨h.rest_eq.trans h'.rest_eq, h.reports_eq.trans h'.reports_eq, h.depth_eq.trans h'.depth_eq,
    h.readEnd_eq.trans h'.readEnd_eq, h.events_eq.trans h'.events_eq⟩

theorem before (h : n.Like m) (hm : m.Before last rest) : n.Before last rest :=
  ⟨h.rest_eq.trans hm.rest_eq, h.readEnd_eq.trans hm.readEnd_eq⟩

theorem after (h : n.Like m) (a : Outcome PlacedToken) : (n.after a).Like (m.after a) where
  rest_eq := rfl
  reports_eq := congrArg (· ++ _) h.reports_eq
  depth_eq := h.depth_eq
  readEnd_eq := rfl
  events_eq := by simp only [Machine.after, List.map_append, h.events_eq]

theorem nextKind_eq (h : m.Like n) : m.nextKind = n.nextKind := by
  rw [nextKind, nextKind, h.rest_eq]

/-- Nodes begin at the same places. -/
theorem exists_start (h : n.Like m) {i : Nat} {kind : Option NodeKind}
    (hi : m.events[i]? = some (.start kind)) : ∃ kind', n.events[i]? = some (.start kind') := by
  have hblank := congrArg (·[i]?) h.events_eq
  simp only [List.getElem?_map, hi, Option.map_some] at hblank
  obtain ⟨e, he, hstart⟩ := Option.map_eq_some_iff.1 hblank
  cases e with
  | start kind' => exact ⟨kind', he⟩
  | _ => cases hstart

end Like

/-! ## Completing a node -/

/-- The node that was begun last is completed. -/
theorem complete_eq (m : Machine) (kind : NodeKind) (a : Outcome PlacedToken) :
    complete m.events.length kind (m.start.after a) = .ok (m.after (a.wrapped kind)) := by
  have hmark : (m.start.after a).events[m.events.length]? = some (.start none) := by
    simp [start, after]
  rw [complete, hmark]
  simp [start, after, Outcome.wrapped, Tree.forestSteps, Tree.steps]

/-- What completing a node comes to. -/
theorem complete_cases (mark : Nat) (kind : NodeKind) (m : Machine) :
    complete mark kind m = .error .lostMark ∨
      ∃ old, m.events[mark]? = some (.start old) ∧ complete mark kind m
        = .ok { m with events := m.events.set mark (.start (some kind)) ++ [.finish] } := by
  unfold complete
  split
  · next old hold => exact .inr ⟨old, hold, rfl⟩
  · exact .inl rfl

/-- The kind of a node is all that changes when it is set. -/
theorem map_blank_set {events : List ParseEvent} {i : Nat} {old kind : Option NodeKind}
    (h : events[i]? = some (.start old)) :
    (events.set i (.start kind)).map ParseEvent.blank = events.map ParseEvent.blank := by
  refine List.ext_getElem? fun j => ?_
  rw [List.getElem?_map, List.getElem?_map]
  by_cases hj : i = j
  · subst hj
    rw [h, List.getElem?_set_self (List.getElem?_eq_some_iff.1 h).1]
    rfl
  · rw [List.getElem?_set_ne hj]

/-- Each node of the second machine that has a kind has had it in the first one, or a mark leads to
it. -/
def NamedBy (store : Nat → Nat) (m n : Machine) : Prop :=
  ∀ i kind, n.events[i]? = some (.start (some kind)) →
    m.events[i]? = some (.start (some kind)) ∨ ∃ place, store place = i

namespace NamedBy

variable {store : Nat → Nat} {n k : Machine}

theorem trans (h : NamedBy store m n) (h' : NamedBy store n k) : NamedBy store m k :=
  fun i kind hi => (h' i kind hi).elim (h i kind) .inr

/-- A node that begins has no kind. -/
theorem of_start (h : NamedBy store m.start n) : NamedBy store m n := by
  refine fun i kind hi => (h i kind hi).imp (fun hstart => ?_) id
  rw [start, List.getElem?_append] at hstart
  split at hstart
  · exact hstart
  · simp [List.getElem?_singleton] at hstart

/-- A node that is completed is one that a mark leads to. -/
theorem complete (place : Nat) (kind : NodeKind) (m : Machine) :
    NamedBy store m
      { m with events := m.events.set (store place) (.start (some kind)) ++ [.finish] } := by
  intro i kind' hi
  by_cases hmark : store place = i
  · exact .inr ⟨place, hmark⟩
  simp only [List.getElem?_append, List.getElem?_set_ne hmark, List.length_set] at hi
  split at hi
  · exact .inl hi
  · simp [List.getElem?_singleton] at hi

end NamedBy

/-! ## What a machine comes to -/

/-- What a machine comes to that is to return an outcome. Where the marks of all nodes are stored as
they are, it does. Else it may lose a mark, or give some nodes wrong kinds or none. -/
structure Reaches (store : Nat → Nat) (m : Machine) (a : Outcome PlacedToken)
    (r : Except Halt Machine) : Prop where
  exact : Kept store m.events.length a.trees → r = .ok (m.after a)
  like : r = .error .lostMark ∨ ∃ n, r = .ok n ∧ n.Like (m.after a) ∧ NamedBy store m n

namespace Reaches

variable {store : Nat → Nat} {r : Except Halt Machine}

/-- Where only tokens are noted, nothing can go wrong. -/
theorem of_tokens (hr : r = .ok (m.after a)) (us : List PlacedToken)
    (htrees : a.trees = us.map .leaf) : Reaches store m a r := by
  refine ⟨fun _ => hr, .inr ⟨_, hr, .refl _, fun i kind hi => .inl ?_⟩⟩
  have hsteps : Tree.forestSteps a.trees = us.map .token := by
    rw [htrees, Tree.forestSteps_leaves]
  simp only [Machine.after, hsteps, List.getElem?_append] at hi
  split at hi
  · exact hi
  · simp at hi

/-- One rule after the other. -/
theorem bind {f : Machine → Except Halt Machine} (h : Reaches store m a r)
    (hf : ∀ n, n.Like (m.after a) → Reaches store n b (f n)) :
    Reaches store m (a.join b) (r >>= f) := by
  constructor
  case exact =>
    intro hkept
    have hnext := (hf (m.after a) (.refl _)).exact
    rw [h.exact hkept.left, ← after_join]
    refine hnext ?_
    rw [Machine.after, List.length_append]
    exact hkept.right
  case like =>
    obtain hlost | ⟨n, rfl, hn, hnamed⟩ := h.like
    · exact .inl (by rw [hlost]; rfl)
    obtain hlost | ⟨k, hk, hlike, hnamed'⟩ := (hf n hn).like
    · exact .inl hlost
    exact .inr ⟨k, hk, hlike.trans (after_join m a b ▸ hn.after b), hnamed.trans hnamed'⟩

/-- A node around what has been noted since it was begun. -/
theorem wrap (kind : NodeKind) (h : Reaches store m.start a r) :
    Reaches store m (a.wrapped kind) (r >>= complete (store m.events.length) kind) := by
  have hplace : m.start.events.length = m.events.length + 1 := by simp [start]
  constructor
  case exact =>
    intro hkept
    rw [h.exact (hplace ▸ hkept.inner), hkept.mark]
    exact complete_eq m kind a
  case like =>
    obtain hlost | ⟨n, rfl, hn, hnamed⟩ := h.like
    · exact .inl (by rw [hlost]; rfl)
    obtain hlost | ⟨old, hold, hok⟩ := complete_cases (store m.events.length) kind n
    · exact .inl hlost
    refine .inr ⟨_, hok, ⟨hn.rest_eq, hn.reports_eq, hn.depth_eq, hn.readEnd_eq, ?_⟩,
      hnamed.of_start.trans (.complete _ kind n)⟩
    rw [List.map_append, map_blank_set hold, hn.events_eq]
    simp [start, Machine.after, Outcome.wrapped, Tree.forestSteps, Tree.steps, ParseEvent.blank]

/-- A block that has been left. -/
theorem leave (h : Reaches store { m with depth := m.depth + 1 } a r) :
    Reaches store m a (r >>= leaveBlock) := by
  constructor
  case exact =>
    intro hkept
    rw [h.exact hkept]
    rfl
  case like =>
    obtain hlost | ⟨n, rfl, hn, hnamed⟩ := h.like
    · exact .inl (by rw [hlost]; rfl)
    refine .inr ⟨{ n with depth := m.depth }, ?_,
      ⟨hn.rest_eq, hn.reports_eq, rfl, hn.readEnd_eq, hn.events_eq⟩, hnamed⟩
    show leaveBlock n = _
    rw [leaveBlock, hn.depth_eq]
    rfl

/-- A node whose kind is known after a part of it. -/
theorem wrapBy {f : Machine → Except Halt Machine} {kind : Option TokenKind → NodeKind}
    (h : Reaches store m.start a r)
    (hf : ∀ n, n.Like (m.start.after a) → Reaches store n b (f n)) :
    Reaches store m ((a.join b).wrapped (kind a.nextKind)) (do
      let started ← r
      let ended ← f started
      complete (store m.events.length) (kind started.nextKind) ended) := by
  have hwhole := (h.bind hf).wrap (kind a.nextKind)
  obtain hlost | ⟨n, rfl, hn, -⟩ := h.like
  · rw [hlost] at hwhole ⊢
    exact hwhole
  · show Reaches store m _ (f n >>= complete _ (kind n.nextKind))
    rw [show n.nextKind = a.nextKind from hn.nextKind_eq]
    exact hwhole

/-- A loop goes on where its item has read something. -/
theorem many {p : TokenKind → Bool} {item : Machine → Except Halt Machine} {t : PlacedToken}
    {ts : List PlacedToken} (hrest : m.rest = t :: ts) (hp : p (Lexical.kind t) = true)
    (h : Reaches store m a (item m)) (hshorter : a.rest.length < (t :: ts).length)
    (hf : ∀ n, n.Like (m.after a) → Reaches store n b (n.repeatWhile p item)) :
    Reaches store m (a.join b) (m.repeatWhile p item) := by
  have hwhole := h.bind hf
  rw [repeatWhile]
  split
  · next hnil => rw [hrest] at hnil; cases hnil
  · next hcons =>
    rw [hrest] at hcons
    cases hcons
    rw [if_pos hp]
    obtain hlost | ⟨n, hn, hlike, -⟩ := h.like
    · rw [hlost] at hwhole ⊢
      exact hwhole
    · have hshort : n.rest.length < m.rest.length := by
        rw [hlike.rest_eq, hrest]
        exact hshorter
      rw [hn] at hwhole ⊢
      dsimp only
      rw [if_pos hshort]
      exact hwhole

end Reaches

/-! ## Following a rule -/

/-- **A machine that follows a rule does what the rule returns**, at any depth, with any number of
calls that is not less than the room for blocks, and as far as marks can be stored. -/
theorem reaches_driveWith {store : Nat → Nat} {room calls : Nat} {known seen : List PlacedToken}
    {rule : Rule PlacedToken} (h : Runs room known seen rule last rest a) (hm : m.Before last rest)
    (hdepth : maxDepth - m.depth = room) (hcalls : room ≤ calls) (hord : InOrder seen last rest) :
    Reaches store m a (driveWith store (driveBlock store calls) rule m) := by
  induction h generalizing m calls with
  | done => exact .of_tokens (congrArg _ (after_idle hm).symm) [] rfl
  | @complain _ _ _ problem last rest =>
    refine .of_tokens ?_ [] rfl
    rw [driveWith, hm.readEnd_eq]
    exact congrArg _ (report_eq hm ⟨problem, .after last⟩)
  | @complainSince _ _ _ first problem last rest _ hs =>
    refine .of_tokens ?_ [] rfl
    rw [driveWith, hm.readEnd_eq, if_pos (hord.starts first hs)]
    exact congrArg _ (report_eq hm ⟨problem, .across first last⟩)
  | @complainAt _ _ _ token problem last rest _ =>
    exact .of_tokens (congrArg _ (report_eq hm ⟨problem, .across token token⟩)) [] rfl
  | andThen ha _ iha ihb =>
    rw [driveWith]
    refine (iha hm hdepth hcalls hord).bind fun n hn => ?_
    exact ihb (hn.before (m.before_after _)) (by rw [hn.depth_eq]; exact hdepth) hcalls
      (hord.after ha)
  | @wrap _ _ _ kind _ _ _ a _ _ ih =>
    rw [driveWith]
    exact (ih hm.start hdepth hcalls hord).wrap kind
  | atEnd =>
    refine .of_tokens ?_ [] rfl
    rw [driveWith, hm.rest_eq]
    exact congrArg _ (after_idle hm).symm
  | withNext _ _ ih =>
    rw [driveWith, hm.rest_eq]
    exact ih hm hdepth hcalls hord
  | peek _ ih =>
    rw [driveWith, nextKind, hm.rest_eq]
    exact ih hm hdepth hcalls hord
  | advance => exact .of_tokens (congrArg _ (advance_eq hm)) _ rfl
  | acceptAll => exact .of_tokens (congrArg _ (advanceWhile_eq _ hm)) _ rfl
  | rawGroup hb => exact .of_tokens (readGroup_eq 0 hm (.inr hb)) _ rfl
  | wrapBy _ ha _ iha ihb =>
    rw [driveWith]
    refine (iha hm.start hdepth hcalls hord).wrapBy fun n hn => ?_
    rw [show n.nextKind = _ from hn.nextKind_eq]
    exact ihb (hn.before (m.start.before_after _)) (by rw [hn.depth_eq]; exact hdepth) hcalls
      (hord.after ha)
  | @manyStop _ _ _ _ _ _ rest hp =>
    refine .of_tokens ?_ [] rfl
    rw [driveWith, repeatWhile]
    split
    · exact congrArg _ (after_idle hm).symm
    · next hrest =>
      rw [hm.rest_eq] at hrest
      subst hrest
      rw [if_neg (Bool.eq_false_iff.1 (hp _ rfl))]
      exact congrArg _ (after_idle hm).symm
  | manyStep hp ha hr _ iha ihb =>
    rw [driveWith]
    refine .many hm.rest_eq hp (iha hm hdepth hcalls hord) (ha.length_rest_lt hr) fun n hn => ?_
    rw [← driveWith]
    exact ihb (hn.before (m.before_after _)) (by rw [hn.depth_eq]; exact hdepth) hcalls
      (hord.after ha)
  | @tooDeep _ _ shape last t ts a hb _ ih =>
    have hraw := ih hm hdepth hcalls hord
    rw [driveWith, driveBlock, hm.rest_eq]
    simp only [ne_eq, hb, not_true_eq_false, if_false]
    rw [if_pos (by omega)]
    simp only [Rule.tooDeep, driveWith, hm.rest_eq] at hraw ⊢
    exact hraw
  | @block room _ _ shape last t ts a hb _ ih =>
    obtain ⟨calls, rfl⟩ : ∃ n, calls = n + 1 := ⟨calls - 1, by omega⟩
    have hinside := ih (m := { m.start with depth := m.depth + 1 }) ⟨hm.rest_eq, hm.readEnd_eq⟩
      (by simp only; omega) (Nat.le_of_succ_le_succ hcalls) hord
    rw [driveWith, driveBlock, hm.rest_eq]
    simp only [ne_eq, hb, not_true_eq_false, if_false]
    rw [if_neg (by omega), ← bind_assoc]
    exact (Reaches.leave (m := m.start) hinside).wrap shape.kind

/-- Where marks are stored as they are, nothing else can go wrong. -/
theorem driveWith_eq {room : Nat} {known seen : List PlacedToken} {rule : Rule PlacedToken}
    (h : Runs room known seen rule last rest a) (hm : m.Before last rest)
    (hdepth : m.depth + room = maxDepth) (hord : Ordered seen last rest) :
    driveWith id (driveBlock id room) rule m = .ok (m.after a) :=
  (reaches_driveWith h hm (by omega) (Nat.le_refl room) hord.inOrder).exact .of_id

end Machine

end NginxConf
