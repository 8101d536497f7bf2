import NginxConf.Arena.Invariants

/-!
# What the check finds

An arena is `WellFormed` when its pieces cover the text, the children of each node fill it and name
it as their parent, and each node but the root is the child of one node. The check lets an arena
pass exactly then (`assertInvariants_eq_ok_iff`).
-/

namespace NginxConf.Arena

/-! ## Arenas of trees -/

/-- Ranges stand one after the other, from one offset to another. -/
def Adjoin : Nat → List Span → Nat → Prop
  | start, [], stop => start = stop
  | start, s :: ss, stop => s.start = start ∧ Adjoin s.stop ss stop

/-- Pieces name a node as the one that holds them. -/
def Belong (a : Arena) (node : Nat) (pieces : List Nat) : Prop :=
  ∀ i ∈ pieces, ∃ piece, a.pieces[i]? = some piece ∧ piece.parent = node

/-- A node comes before its child, which names it as its parent. Of the pieces, only tokens are
children, and their trivia names the same node. -/
def IsChild (a : Arena) (node : Nat) : Child → Prop
  | .node m => node < m ∧ ∃ cell, a.nodes[m]? = some cell ∧ cell.parent = some node
  | .piece i => ∃ piece leading trailing, a.pieces[i]? = some piece ∧
      piece.kind.isTrivia = false ∧ a.leading? i = some leading ∧ a.trailing? i = some trailing ∧
      a.Belong node (leading ++ i :: trailing)

/-- The children of a node fill it, in order. -/
structure Filled (a : Arena) (node : Nat) : Prop where
  exists_spans : ∃ span children spans, a.nodeSpan? node = some span ∧
    a.childrenOf? node = some children ∧ children.mapM a.childSpan? = some spans ∧
    Adjoin span.start spans span.stop ∧ ∀ c ∈ children, a.IsChild node c

/-- An arena is that of a tree over its text. -/
structure WellFormed (a : Arena) : Prop where
  sentinel : ∃ piece, a.pieces[0]? = some piece ∧ piece.stop = 0
  ascends : a.pieces.Pairwise fun p q => p.stop ≤ q.stop
  last : a.pieces.getLast?.map Piece.stop = some (Text.size a.text)
  root : ∃ cell, a.nodes[0]? = some cell ∧ cell.parent = none
  rootSpan : a.nodeSpan? 0 = some ⟨0, Text.size a.text⟩
  filled : ∀ n < a.nodes.length, a.Filled n
  /-- The nodes that are listed as children are all but the root, each of them once. -/
  listed : a.listed.Perm (List.range' 1 (a.nodes.length - 1))

/-! ## Checks that pass -/

theorem bind_eq_ok {α β : Type} {x : Except Violation α} {f : α → Except Violation β} {y : β} :
    (x >>= f) = .ok y ↔ ∃ r, x = .ok r ∧ f r = .ok y := by
  cases x with
  | error e => exact ⟨nofun, nofun⟩
  | ok r => exact ⟨fun h => ⟨r, rfl, h⟩, fun ⟨_, hr, h⟩ => Except.ok.inj hr ▸ h⟩

theorem given_eq_ok {α : Type} {o : Option α} {x : α} : given o = .ok x ↔ o = some x := by
  cases o <;> simp [given]

theorem require_eq_ok {p : Prop} [Decidable p] {v : Violation} {u : Unit} :
    require p v = .ok u ↔ p := by
  unfold require
  split <;> simp_all

variable {a : Arena} {node : Nat} {span : Span}

theorem checkParents_eq_ok {is : List Nat} {u : Unit} :
    a.checkParents node is = .ok u ↔ a.Belong node is := by
  induction is with
  | nil => simp [checkParents, Belong]
  | cons i is ih =>
    simp only [checkParents, bind_eq_ok, given_eq_ok, require_eq_ok, ih, Belong,
      List.forall_mem_cons]
    constructor
    · rintro ⟨piece, hpiece, -, hparent, hmore⟩
      exact ⟨⟨piece, hpiece, hparent⟩, hmore⟩
    · rintro ⟨⟨piece, hpiece, hparent⟩, hmore⟩
      exact ⟨piece, hpiece, (), hparent, hmore⟩

theorem checkLink_eq_ok {c : Child} {u : Unit} :
    a.checkLink node c = .ok u ↔ a.IsChild node c := by
  cases c with
  | node m =>
    simp only [checkLink, bind_eq_ok, given_eq_ok, require_eq_ok, IsChild]
    constructor
    · rintro ⟨cell, hcell, -, hparent, hlt⟩
      exact ⟨hlt, cell, hcell, hparent⟩
    · rintro ⟨hlt, cell, hcell, hparent⟩
      exact ⟨cell, hcell, (), hparent, hlt⟩
  | piece i =>
    simp only [checkLink, bind_eq_ok, given_eq_ok, require_eq_ok, checkParents_eq_ok, IsChild]
    constructor
    · rintro ⟨piece, hpiece, -, hkind, leading, hleading, trailing, htrailing, hbelong⟩
      exact ⟨piece, leading, trailing, hpiece, hkind, hleading, htrailing, hbelong⟩
    · rintro ⟨piece, leading, trailing, hpiece, hkind, hleading, htrailing, hbelong⟩
      exact ⟨piece, hpiece, (), hkind, leading, hleading, trailing, htrailing, hbelong⟩

/-- Children pass where they stand one after the other in the range of the node. -/
theorem checkChildren_eq_ok {cursor stop : Nat} {cs : List Child} :
    a.checkChildren node span cursor cs = .ok stop ↔
      (∀ c ∈ cs, a.IsChild node c) ∧ ∃ spans, cs.mapM a.childSpan? = some spans ∧
        Adjoin cursor spans stop ∧ ∀ s ∈ spans, span.contains s = true := by
  induction cs generalizing cursor with
  | nil => simp [checkChildren, Adjoin]
  | cons c cs ih =>
    simp only [checkChildren, bind_eq_ok, given_eq_ok, require_eq_ok, checkLink_eq_ok, ih,
      List.forall_mem_cons, List.mapM_cons, Option.bind_eq_bind, Option.bind_eq_some_iff,
      Option.pure_def, Option.some.injEq]
    constructor
    · rintro ⟨-, hc, here, hhere, -, hstart, -, hinside, hcs, spans, hspans, hadjoin, hall⟩
      refine ⟨⟨hc, hcs⟩, here :: spans, ⟨here, hhere, spans, hspans, rfl⟩, ⟨hstart, hadjoin⟩, ?_⟩
      exact List.forall_mem_cons.2 ⟨hinside, hall⟩
    · rintro ⟨⟨hc, hcs⟩, -, ⟨here, hhere, spans, hspans, rfl⟩, ⟨hstart, hadjoin⟩, hall⟩
      obtain ⟨hinside, hall⟩ := List.forall_mem_cons.1 hall
      exact ⟨(), hc, here, hhere, (), hstart, (), hinside, hcs, spans, hspans, hadjoin, hall⟩

theorem start_le_stop_of_span? {start stop : Nat} {s : Span} (h : span? start stop = some s) :
    s.start ≤ s.stop := by
  unfold span? at h
  split at h
  · next hle =>
    cases h
    exact hle
  · cases h

theorem start_le_stop_of_childSpan? {c : Child} {s : Span} (h : a.childSpan? c = some s) :
    s.start ≤ s.stop := by
  cases c with
  | node m =>
    simp only [childSpan?, nodeSpan?, Option.bind_eq_bind, Option.bind_eq_some_iff] at h
    obtain ⟨cell, -, start, -, stop, -, h⟩ := h
    exact start_le_stop_of_span? h
  | piece i =>
    simp only [childSpan?, tokenSpan?, Option.bind_eq_bind, Option.bind_eq_some_iff] at h
    obtain ⟨leading, -, trailing, -, first, -, last, -, h⟩ := h
    exact start_le_stop_of_span? h

/-- Ranges that stand one after the other stay between the ends. -/
theorem Adjoin.between {spans : List Span} {start stop : Nat} (h : Adjoin start spans stop)
    (hspans : ∀ s ∈ spans, s.start ≤ s.stop) :
    start ≤ stop ∧ ∀ s ∈ spans, start ≤ s.start ∧ s.stop ≤ stop := by
  induction spans generalizing start with
  | nil => exact ⟨Nat.le_of_eq h, by simp⟩
  | cons s ss ih =>
    obtain ⟨hstart, hmore⟩ := h
    obtain ⟨hle, hall⟩ := ih hmore fun r hr => hspans r (List.mem_cons_of_mem _ hr)
    have hs := hspans s List.mem_cons_self
    refine ⟨by omega, List.forall_mem_cons.2 ⟨⟨by omega, hle⟩, fun r hr => ?_⟩⟩
    have hr := hall r hr
    omega

theorem start_le_stop_of_mapM {cs : List Child} {spans : List Span}
    (h : cs.mapM a.childSpan? = some spans) : ∀ s ∈ spans, s.start ≤ s.stop := by
  induction cs generalizing spans with
  | nil =>
    cases h
    simp
  | cons c cs ih =>
    simp only [List.mapM_cons, Option.bind_eq_bind, Option.bind_eq_some_iff, Option.pure_def,
      Option.some.injEq] at h
    obtain ⟨s, hs, ss, hss, rfl⟩ := h
    exact List.forall_mem_cons.2 ⟨start_le_stop_of_childSpan? hs, ih hss⟩

theorem checkNode_eq_ok {u : Unit} : a.checkNode node = .ok u ↔ a.Filled node := by
  simp only [checkNode, bind_eq_ok, given_eq_ok, require_eq_ok, checkChildren_eq_ok]
  constructor
  · rintro ⟨span, hspan, children, hchildren, stop, ⟨hlinks, spans, hspans, hadjoin, -⟩, rfl⟩
    exact ⟨span, children, spans, hspan, hchildren, hspans, hadjoin, hlinks⟩
  · rintro ⟨span, children, spans, hspan, hchildren, hspans, hadjoin, hlinks⟩
    -- children that stand one after the other up to the end are inside, so that check says no more
    have hbetween := (hadjoin.between (start_le_stop_of_mapM hspans)).2
    refine ⟨span, hspan, children, hchildren, span.stop, ⟨hlinks, spans, hspans, hadjoin, ?_⟩, rfl⟩
    intro s hs
    have hs := hbetween s hs
    simp only [Span.contains, Bool.and_eq_true, decide_eq_true_eq]
    exact hs

theorem checkNodes_eq_ok {ns : List Nat} {u : Unit} :
    a.checkNodes ns = .ok u ↔ ∀ n ∈ ns, a.Filled n := by
  induction ns with
  | nil => simp [checkNodes]
  | cons n ns ih =>
    simp only [checkNodes, bind_eq_ok, checkNode_eq_ok, ih, List.forall_mem_cons]
    constructor
    · rintro ⟨-, hn, hmore⟩
      exact ⟨hn, hmore⟩
    · rintro ⟨hn, hmore⟩
      exact ⟨(), hn, hmore⟩

theorem ascends_iff {ps : List Piece} :
    Arena.ascends ps = true ↔ ps.Pairwise fun p q => p.stop ≤ q.stop := by
  induction ps with
  | nil => simp [Arena.ascends]
  | cons p ps ih =>
    cases ps with
    | nil => simp [Arena.ascends]
    | cons q ps =>
      rw [Arena.ascends, Bool.and_eq_true, ih, decide_eq_true_eq]
      constructor
      · rintro ⟨hle, hmore⟩
        have hrest : ∀ r ∈ ps, p.stop ≤ r.stop := fun r hr =>
          Nat.le_trans hle ((List.pairwise_cons.1 hmore).1 r hr)
        exact List.pairwise_cons.2 ⟨List.forall_mem_cons.2 ⟨hle, hrest⟩, hmore⟩
      · intro h
        obtain ⟨hfirst, hmore⟩ := List.pairwise_cons.1 h
        exact ⟨hfirst q List.mem_cons_self, hmore⟩

/-- A node that is listed as a child comes behind another one. -/
theorem lt_of_mem_listed (h : ∀ n < a.nodes.length, a.Filled n) {m : Nat} (hm : m ∈ a.listed) :
    0 < m ∧ m < a.nodes.length := by
  obtain ⟨c, hc, hcm⟩ := List.mem_filterMap.1 hm
  obtain ⟨n, hn, hc⟩ := List.mem_flatMap.1 hc
  obtain ⟨span, children, spans, -, hchildren, -, -, hlinks⟩ := h n (List.mem_range.1 hn)
  rw [hchildren, Option.getD_some] at hc
  cases c with
  | piece i => cases hcm
  | node l =>
    cases hcm
    obtain ⟨hlt, cell, hcell, -⟩ := hlinks _ hc
    exact ⟨by omega, (List.getElem?_eq_some_iff.1 hcell).1⟩

/-- Counting finds each node but the root once where the list has just these nodes. -/
theorem count_listed_iff (h : ∀ n < a.nodes.length, a.Filled n) :
    (a.listed.count 0 = 0 ∧ ∀ n < a.nodes.length, 0 < n → a.listed.count n = 1)
      ↔ a.listed.Perm (List.range' 1 (a.nodes.length - 1)) := by
  simp only [List.perm_iff_count, List.count_range_1']
  constructor
  · rintro ⟨-, hothers⟩ n
    by_cases hn : 0 < n ∧ n < a.nodes.length
    · rw [hothers n hn.2 hn.1, if_pos (by omega)]
    · rw [List.count_eq_zero_of_not_mem (mt (lt_of_mem_listed h) hn), if_neg (by omega)]
  · intro hcount
    refine ⟨by rw [hcount, if_neg (by omega)], fun n hn hpos => ?_⟩
    rw [hcount, if_pos (by omega)]

/-- **The check lets pass just the arenas of trees.** -/
theorem assertInvariants_eq_ok_iff : a.assertInvariants = .ok () ↔ a.WellFormed := by
  simp only [assertInvariants, bind_eq_ok, given_eq_ok, require_eq_ok, checkNodes_eq_ok,
    ascends_iff, List.mem_range]
  constructor
  · rintro ⟨sentinel, hsentinel, -, hempty, -, hascends, -, hlast, root, hroot, -, hparent, span,
      hspan, -, rfl, -, hfilled, -, hzero, hone⟩
    exact ⟨⟨sentinel, hsentinel, hempty⟩, hascends, hlast, ⟨root, hroot, hparent⟩, hspan, hfilled,
      (count_listed_iff hfilled).1 ⟨hzero, hone⟩⟩
  · rintro ⟨⟨sentinel, hsentinel, hempty⟩, hascends, hlast, ⟨root, hroot, hparent⟩, hspan, hfilled,
      hlisted⟩
    obtain ⟨hzero, hone⟩ := (count_listed_iff hfilled).2 hlisted
    exact ⟨sentinel, hsentinel, (), hempty, (), hascends, (), hlast, root, hroot, (), hparent, _,
      hspan, (), rfl, (), hfilled, (), hzero, hone⟩

example : assertInvariants ⟨"ab".toList,
    [.sentinel, ⟨.token .word, 0, 0, 1, 0⟩, ⟨.token .word, 0, 0, 2, 0⟩],
    [⟨none, 0, 2, .sourceFile, 1, 3⟩], [.piece 2, .piece 1]⟩ = .error (.gap 0) := rfl

end NginxConf.Arena
