import NginxConf.Proofs.Grammar.Origin
import NginxConf.Proofs.Token.Braces
import NginxConf.Proofs.Tree.Shape

/-!
# Groups of raw tokens

A group of raw tokens is read up to the `}` that leaves no brace of it open. A stack finds the same
`}` as the partner of the `{` with which the group begins, whatever stands before the group
(`partner_of_group`).

Only the rule for a block makes an error node of raw tokens, and only where there is no room left for
a block: any other error node begins with a token other than `{`, or with a node. So wherever such a
node is found, its tokens are the group that its `{` opens (`Runs.exists_rawGroup`).
-/

namespace NginxConf

variable {α : Type} [Lexical α]

/-! ## Where a group ends -/

/-- Pairs that have been found stay. -/
theorem pairs_subset_foldl (b : Braces α) (ts : List α) :
    b.pairs ⊆ (ts.foldl Braces.step b).pairs := by
  induction ts generalizing b with
  | nil => exact List.Subset.refl _
  | cons t ts ih =>
    refine List.Subset.trans ?_ (ih (b.step t))
    by_cases hl : Lexical.kind t = .leftBrace
    · rw [Braces.step_leftBrace hl]
      exact List.Subset.refl _
    by_cases hr : Lexical.kind t = .rightBrace
    · cases hb : b.opened with
      | nil =>
        rw [Braces.step_unmatched hr hb]
        exact List.Subset.refl _
      | cons l ls =>
        rw [Braces.step_matched hr hb]
        exact List.subset_append_left _ _
    · rw [Braces.step_other hl hr]
      exact List.Subset.refl _

/-- How the group ends that closes a `{` and what has been opened in it: with the partner of the `{`,
or with the text. -/
theorem partner_of_groupLength (ts : List α) {b : Braces α} {l : α} {inner outer : List α}
    (hb : b.opened = inner ++ l :: outer) :
    (∃ before r after, ts = before ++ r :: after ∧
      groupLength (inner.length + 1) ts = before.length + 1 ∧
      (l, r) ∈ (ts.foldl Braces.step b).pairs) ∨
    groupLength (inner.length + 1) ts = ts.length ∧ l ∈ (ts.foldl Braces.step b).opened := by
  induction ts generalizing b inner with
  | nil => exact .inr ⟨rfl, by simp [hb]⟩
  | cons t ts ih =>
    -- a token that does not end the group
    have hmore (inner' : List α) (hstep : (b.step t).opened = inner' ++ l :: outer)
        (hlength : groupLength (inner.length + 1) (t :: ts)
          = groupLength (inner'.length + 1) ts + 1) :
        (∃ before r after, t :: ts = before ++ r :: after ∧
          groupLength (inner.length + 1) (t :: ts) = before.length + 1 ∧
          (l, r) ∈ ((t :: ts).foldl Braces.step b).pairs) ∨
        groupLength (inner.length + 1) (t :: ts) = (t :: ts).length ∧
          l ∈ ((t :: ts).foldl Braces.step b).opened := by
      rw [hlength]
      rcases ih hstep with ⟨before, r, after, rfl, hgroup, hpair⟩ | ⟨hgroup, hopened⟩
      · exact .inl ⟨t :: before, r, after, rfl, by rw [hgroup]; rfl, hpair⟩
      · exact .inr ⟨by rw [hgroup]; rfl, hopened⟩
    by_cases hl : Lexical.kind t = .leftBrace
    · refine hmore (t :: inner) ?_ (groupLength_leftBrace hl)
      rw [Braces.step_leftBrace hl]
      exact congrArg _ hb
    by_cases hr : Lexical.kind t = .rightBrace
    · cases inner with
      | nil =>
        refine .inl ⟨[], t, ts, rfl, by simp [groupLength_rightBrace hr], ?_⟩
        refine pairs_subset_foldl _ ts ?_
        rw [Braces.step_matched hr hb]
        exact List.mem_append_right _ List.mem_cons_self
      | cons k inner =>
        refine hmore inner ?_ (by simp [groupLength_rightBrace hr])
        rw [Braces.step_matched hr hb]
        rfl
    · exact hmore inner (by rw [Braces.step_other hl hr, hb]) (groupLength_other hl hr)

/-- **A group of raw tokens ends with the partner of its `{`, or with the text.** -/
theorem partner_of_group (before : List α) {l : α} (hl : Lexical.kind l = .leftBrace) (ts : List α) :
    (∃ r, ((l :: ts).take (groupLength 0 (l :: ts))).getLast? = some r ∧
      (l, r) ∈ (matchBraces (before ++ l :: ts)).pairs) ∨
    (l :: ts).drop (groupLength 0 (l :: ts)) = [] ∧
      l ∈ (matchBraces (before ++ l :: ts)).opened := by
  have hopened : ((matchBraces before).step l).opened = [] ++ l :: (matchBraces before).opened := by
    rw [Braces.step_leftBrace hl]
    rfl
  have hmatch : matchBraces (before ++ l :: ts)
      = ts.foldl Braces.step ((matchBraces before).step l) := by
    rw [matchBraces, List.foldl_append]
    rfl
  rw [groupLength_leftBrace hl, List.take_succ_cons, List.drop_succ_cons, hmatch]
  rcases partner_of_groupLength ts hopened with ⟨us, r, after, rfl, hgroup, hpair⟩ | ⟨hgroup, hl⟩
  · refine .inl ⟨r, ?_, hpair⟩
    have htake : (us ++ r :: after).take (us.length + 1) = us ++ [r] := by
      rw [List.take_length_add_append, List.take_succ_cons, List.take_zero]
    rw [show groupLength (0 + 1) (us ++ r :: after) = us.length + 1 from hgroup, htake,
      ← List.cons_append, List.getLast?_concat]
  · rw [show groupLength (0 + 1) ts = ts.length from hgroup]
    exact .inr ⟨List.drop_length, hl⟩

/-! ## Where raw tokens come from -/

/-- Raw tokens are tokens, the first of which is a `{`. -/
theorem Tree.exists_of_areRaw {ts : List (Tree α)} (h : areRaw ts = true) :
    ∃ l us, ts = (l :: us).map leaf ∧ Lexical.kind l = .leftBrace := by
  unfold areRaw at h
  split at h
  · next l more =>
    obtain ⟨hl, hmore⟩ := Bool.and_eq_true_iff.1 h
    refine ⟨l, more.flatMap leaves, ?_, beq_iff_eq.1 hl⟩
    rw [List.map_cons]
    congr 1
    induction more with
    | nil => rfl
    | cons t ts ih =>
      rw [List.all_cons, Bool.and_eq_true] at hmore
      cases t with
      | leaf a =>
        rw [List.flatMap_cons, leaves, List.map_append, ← ih (by simp [hl, hmore.2]) hmore.2]
        rfl
      | node => cases hmore.1
  · cases h

/-- These raw tokens, found in a hole of what is built of the tokens, are the group that their `{`
opens, and stand where there is no room for a block. -/
structure RawGroupAt (room : Nat) (rest : List α) (before : List (Tree α)) (frames : List (Frame α))
    (children : List (Tree α)) : Prop where
  room_eq : room = Frame.blocks frames
  exists_group : ∃ t ts, rest = Tree.lead before frames ++ t :: ts ∧
    Lexical.kind t = .leftBrace ∧ children = ((t :: ts).take (groupLength 0 (t :: ts))).map .leaf

/-- **An error node of raw tokens stands where there is no room for a block, and holds the group that
its `{` opens.** -/
theorem Runs.exists_rawGroup {room : Nat} {known seen : List α} {rule : Rule α} {last : α}
    {rest : List α} {a : Outcome α} (h : Runs room known seen rule last rest a)
    (hrule : rule.NodesIn rest.head?) {before after children : List (Tree α)}
    {frames : List (Frame α)}
    (ht : a.trees = before ++ Tree.fill frames (.node .error children) :: after)
    (hraw : Tree.areRaw children = true) : RawGroupAt room rest before frames children := by
  obtain ⟨inner, known, rule, last, here, b, horigin⟩ := h.exists_origin hrule ht
  obtain ⟨l, us, hchildren, hl⟩ := Tree.exists_of_areRaw hraw
  have hnode := horigin.trees
  have hread : b.read = l :: us := by
    rw [Outcome.read, hnode, hchildren, List.flatMap_singleton, Tree.leaves, Tree.forestLeaves_eq,
      Tree.flatMap_leaves_map_leaf]
  have hhere := horigin.runs.read_append_rest
  rw [hread, List.cons_append] at hhere
  subst hhere
  have hruns := horigin.runs
  have hbuilds := horigin.builds
  rw [List.head?_cons] at hbuilds
  -- what a rule for nodes builds does not begin with a token
  have hnodes {body : Rule α} (hrule : rule = .wrap .error body) (hbody : body.BuildsNodes) :
      False := by
    subst hrule
    cases hruns with
    | wrap _ ha =>
      have htrees := (Tree.node.inj (List.singleton_inj.1 hnode)).2
      exact ha.isNode hbody (.leaf l) (by rw [htrees, hchildren]; exact List.mem_cons_self)
  cases hbuilds with
  | @block _ shape =>
    cases hruns with
    | tooDeep hb ha =>
      have htrees := ha.eq_run.symm ▸ hnode
      exact ⟨by rw [horigin.room_eq, Nat.zero_add], l, us ++ b.rest, horigin.rest_eq, hl,
        (Tree.node.inj (List.singleton_inj.1 htrees)).2.symm⟩
    | block =>
      have hkind := (Tree.node.inj (List.singleton_inj.1 hnode)).1
      cases shape <;> cases hkind
  | namelessBlock => exact (hnodes rfl (.andThen .complainAt .block)).elim
  | notAGeoItem => exact (hnodes rfl (.andThen .complainAt Rule.statement_buildsNodes)).elim
  | reject h => exact absurd hl h
  | directive h | ifStatement h | condition h | setStatement h | includeStatement h | luaStatement h
  | geoStatement h | geoItem h | geoEntry h | extraValues h | extraGeoEntries h | malformed h =>
    rw [hl] at h
    cases h

end NginxConf
