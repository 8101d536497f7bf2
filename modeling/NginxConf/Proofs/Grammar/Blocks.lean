import NginxConf.Proofs.Grammar.Sound
import NginxConf.Proofs.Tree.Hole

/-!
# Blocks in what a rule returns

A block node comes from nowhere but the rule for blocks (`Runs.exists_block`), and what stands
between its braces are nodes (`item_buildsNodes`). Its own tokens are therefore its braces, and
nothing but its braces: a `{`, and a `}` where the tokens do not end first (`run_braced_closed`,
`run_braced_open`).
-/

namespace NginxConf

variable {α : Type}

/-- The tree is a node. -/
def Tree.IsNode : Tree α → Prop
  | leaf _ => False
  | node _ _ => True

theorem Tree.IsNode.map {β : Type} {t : Tree α} (h : t.IsNode) (f : α → β) : (t.map f).IsNode := by
  cases t with
  | leaf => exact h.elim
  | node => trivial

/-- A block with both of its braces. -/
def Tree.braces (shape : BlockShape) (opening : α) (items : List (Tree α)) (closing : α) : Tree α :=
  node shape.kind (leaf opening :: items ++ [leaf closing])

theorem Tree.map_eq_leaf {β : Type} {f : α → β} {t : Tree α} {b : β} (h : t.map f = leaf b) :
    ∃ a, t = leaf a ∧ b = f a := by
  cases t with
  | leaf a => exact ⟨a, rfl, (Tree.leaf.inj h).symm⟩
  | node => cases h

/-- A block over other leaves is a block. -/
theorem Tree.exists_of_map_eq_braces {β : Type} {f : α → β} {t : Tree α} {shape : BlockShape}
    {opening closing : β} {items : List (Tree β)}
    (h : t.map f = braces shape opening items closing) :
    ∃ l inner r, t = braces shape l inner r ∧ opening = f l ∧ items = inner.map (map f) ∧
      closing = f r := by
  cases t with
  | leaf => cases h
  | node kind children =>
    rw [map, forestMap_eq, braces] at h
    obtain ⟨rfl, hchildren⟩ := Tree.node.inj h
    obtain ⟨first, more, rfl, hfirst, hmore⟩ := List.map_eq_append_iff.1 hchildren
    obtain ⟨l, inner, rfl, hl, hinner⟩ := List.map_eq_cons_iff.1 hfirst
    obtain ⟨r, none, rfl, hr, hnone⟩ := List.map_eq_cons_iff.1 hmore
    obtain ⟨l, rfl, hopening⟩ := map_eq_leaf hl
    obtain ⟨r, rfl, hclosing⟩ := map_eq_leaf hr
    rw [List.map_eq_nil_iff] at hnone
    exact ⟨l, inner, r, by rw [hnone]; rfl, hopening, hinner.symm, hclosing⟩

theorem BlockShape.isBlock_kind (shape : BlockShape) : shape.kind.isBlock = true := by
  cases shape <;> rfl

/-! ## Rules that build nodes -/

namespace Rule

/-- The rule leaves no token outside of a node. -/
inductive BuildsNodes : Rule α → Prop
  | done : BuildsNodes .done
  | complain {problem} : BuildsNodes (.complain problem)
  | complainSince {t problem} : BuildsNodes (.complainSince t problem)
  | complainAt {t problem} : BuildsNodes (.complainAt t problem)
  | andThen {first second} (ha : BuildsNodes first) (hb : BuildsNodes second) :
    BuildsNodes (.andThen first second)
  | wrap {kind rule} : BuildsNodes (.wrap kind rule)
  | wrapBy {start kind finish} : BuildsNodes (.wrapBy start kind finish)
  | withNext {rule} (h : ∀ t, BuildsNodes (rule t)) : BuildsNodes (.withNext rule)
  | peek {rule} (h : ∀ next, BuildsNodes (rule next)) : BuildsNodes (.peek rule)
  | many {p item} (h : BuildsNodes item) : BuildsNodes (.many p item)
  | block {shape} : BuildsNodes (.block shape)

theorem reject_buildsNodes {problem : Problem} : BuildsNodes (reject (α := α) problem) :=
  .withNext fun _ => .wrap

variable [Lexical α]

theorem statement_buildsNodes : BuildsNodes (statement (α := α)) := by
  refine .withNext fun first => ?_
  unfold statementFrom
  split
  · exact .wrap
  · exact .wrap
  · exact .wrap
  · exact .wrap
  · exact .withNext fun _ => .wrap
  · exact .withNext fun _ => .wrapBy
  · exact .withNext fun _ => .wrapBy
  · exact .withNext fun _ => .wrapBy
  · exact .wrap
  · exact .wrap
  · exact reject_buildsNodes

theorem geoItem_buildsNodes : BuildsNodes (geoItem (α := α)) := by
  refine .withNext fun first => ?_
  unfold geoItemFrom
  split
  · exact .wrap
  · exact .wrap
  · exact .wrap
  · exact .wrap
  · exact reject_buildsNodes
  · exact .wrap
  · exact .wrap

/-- **What stands between the braces of a block are nodes.** -/
theorem item_buildsNodes (shape : BlockShape) : BuildsNodes (item (α := α) shape) :=
  match shape with
  | .plain => statement_buildsNodes
  | .geo => geoItem_buildsNodes

end Rule

variable [Lexical α]

theorem Runs.isNode {room : Nat} {known seen : List α} {rule : Rule α} {last : α} {rest : List α}
    {a : Outcome α} (h : Runs room known seen rule last rest a) (hrule : rule.BuildsNodes) :
    ∀ t ∈ a.trees, t.IsNode := by
  induction h with
  | done | complain | complainSince | complainAt | atEnd | manyStop => simp [Outcome.idle]
  | wrap | wrapBy | block => simp [Outcome.wrapped, Tree.IsNode]
  | advance | acceptAll | rawGroup => cases hrule
  | andThen _ _ iha ihb =>
    cases hrule with
    | andThen hfirst hsecond =>
      intro t ht
      exact (List.mem_append.1 ht).elim (iha hfirst t) (ihb hsecond t)
  | @withNext _ _ _ _ _ t _ _ _ _ ih =>
    cases hrule with
    | withNext hnext => exact ih (hnext t)
  | peek _ ih =>
    cases hrule with
    | peek hnext => exact ih (hnext _)
  | manyStep _ _ _ _ iha ihb =>
    cases hrule with
    | many hitem =>
      intro t ht
      exact (List.mem_append.1 ht).elim (iha hitem t) (ihb (.many hitem) t)
  | tooDeep _ _ ih => exact ih (.withNext fun _ => .wrap)

/-! ## Where block nodes come from -/

/-- The rule for blocks has built a block with these children below some frames, and has found there
some of these issues. -/
def BuiltBlock (room : Nat) (frames : List (Frame α)) (shape : BlockShape)
    (children : List (Tree α)) (issues : List (Issue α)) : Prop :=
  ∃ inner seen last t ts b, room = inner + 1 + Frame.blocks frames ∧
    Lexical.kind t = .leftBrace ∧ Runs inner [t] seen (.braced t shape) last (t :: ts) b ∧
    children = b.trees ∧ b.issues ⊆ issues

namespace BuiltBlock

variable {room room' : Nat} {frames : List (Frame α)} {shape : BlockShape}
  {children : List (Tree α)} {issues issues' : List (Issue α)}

theorem mono (h : BuiltBlock room frames shape children issues) (hsub : issues ⊆ issues') :
    BuiltBlock room frames shape children issues' := by
  obtain ⟨inner, seen, last, t, ts, b, hroom, hkind, hbraced, htrees, hissues⟩ := h
  exact ⟨inner, seen, last, t, ts, b, hroom, hkind, hbraced, htrees, List.Subset.trans hissues hsub⟩

/-- A frame around the others needs room for a block if it is one itself. -/
theorem below {frame : Frame α} (h : BuiltBlock room frames shape children issues)
    (hroom' : room' = room + if frame.kind.isBlock then 1 else 0) :
    BuiltBlock room' (frame :: frames) shape children issues := by
  obtain ⟨inner, seen, last, t, ts, b, hroom, hbuilt⟩ := h
  refine ⟨inner, seen, last, t, ts, b, ?_, hbuilt⟩
  rw [hroom', hroom, Frame.blocks_cons, Nat.add_assoc]

end BuiltBlock

/-- **A block node anywhere below is what the rule for blocks has built there**, with what it has
found. -/
theorem Runs.exists_block {room : Nat} {known seen : List α} {rule : Rule α} {last : α}
    {rest : List α} {a : Outcome α} (h : Runs room known seen rule last rest a)
    {before after : List (Tree α)} {frames : List (Frame α)} {shape : BlockShape}
    {children : List (Tree α)}
    (ht : a.trees = before ++ Tree.fill frames (.node shape.kind children) :: after) :
    BuiltBlock room frames shape children a.issues := by
  -- a tree in a wrapped outcome is the wrapping node, or one frame further down
  have wrapped : ∀ {kind : NodeKind} {trees : List (Tree α)} {frames : List (Frame α)}
      {before after : List (Tree α)},
      [.node kind trees] = before ++ Tree.fill frames (.node shape.kind children) :: after →
      (frames = [] ∧ kind = shape.kind ∧ trees = children) ∨
      ∃ before after more, frames = ⟨kind, before, after⟩ :: more ∧
        trees = before ++ Tree.fill more (.node shape.kind children) :: after := by
    intro kind trees frames before after h
    obtain ⟨-, hnode, -⟩ := singleton_eq_append_cons h
    cases frames with
    | nil => exact .inl ⟨rfl, Tree.node.inj hnode⟩
    | cons frame frames =>
      obtain ⟨rfl, htrees⟩ := Tree.node.inj hnode
      exact .inr ⟨frame.before, frame.after, frames, rfl, htrees⟩
  induction h generalizing before frames after with
  | done | complain | complainSince | complainAt | atEnd | manyStop => simp [Outcome.idle] at ht
  | advance | acceptAll | rawGroup =>
    have hmem : Tree.fill frames (.node shape.kind children) ∈ List.map Tree.leaf _ :=
      ht ▸ List.mem_append_right _ List.mem_cons_self
    obtain ⟨x, -, hx⟩ := List.mem_map.1 hmem
    exact absurd hx.symm (Tree.fill_ne_leaf _ _ _ _)
  | andThen _ _ iha ihb | manyStep _ _ _ _ iha ihb =>
    rcases append_eq_append_cons ht with ⟨_, ha, -⟩ | ⟨_, -, hb⟩
    · exact (iha ha).mono (List.subset_append_left _ _)
    · exact (ihb hb).mono (List.subset_append_right _ _)
  | withNext _ _ ih | peek _ ih => exact ih ht
  | wrap hk _ ih =>
    rcases wrapped ht with ⟨-, rfl, -⟩ | ⟨_, _, _, rfl, htrees⟩
    · rw [shape.isBlock_kind] at hk; cases hk
    · exact (ih htrees).below (by simp [hk])
  | wrapBy hk _ _ iha ihb =>
    rcases wrapped ht with ⟨-, hkind, -⟩ | ⟨_, _, _, rfl, htrees⟩
    · have := hk _ ▸ congrArg NodeKind.isBlock hkind
      rw [shape.isBlock_kind] at this; cases this
    · rcases append_eq_append_cons htrees with ⟨_, ha, -⟩ | ⟨_, -, hb⟩
      · exact ((iha ha).mono (List.subset_append_left _ _)).below (by simp [hk])
      · exact ((ihb hb).mono (List.subset_append_right _ _)).below (by simp [hk])
  | tooDeep _ _ ih =>
    obtain ⟨_, _, _, _, _, _, hroom, _⟩ := ih ht
    omega
  | @block room known seen shape' last t ts b hb hbraced ih =>
    rcases wrapped ht with ⟨rfl, hkind, htrees⟩ | ⟨_, _, _, rfl, htrees⟩
    · have hshape : shape' = shape := by cases shape' <;> cases shape <;> first | rfl | cases hkind
      subst hshape
      exact ⟨room, seen, last, t, ts, b, rfl, hb, hbraced, htrees.symm, List.Subset.refl _⟩
    · exact (ih htrees).below (by simp [shape'.isBlock_kind])

/-! ## Braces -/

namespace Rule

/-- The rule for what stands between the braces of a block. -/
def items (shape : BlockShape) : Rule α := .many (· != .rightBrace) (item shape)

variable {room : Nat} {last t : α} {ts : List α} {shape : BlockShape}

theorem items_sound (shape : BlockShape) (known : List α) : Sound room known (items shape) :=
  Sound.many fun _ _ => item_soundAt (blocksSound room) shape

theorem runs_items (shape : BlockShape) (last : α) (rest : List α) :
    Runs room [] [] (items shape) last rest ((items shape).run room last rest) :=
  items_sound shape [] [] last rest (List.nil_subset _)

theorem isNode_items {u : Tree α} (h : u ∈ ((items shape).run room last ts).trees) : u.IsNode :=
  (runs_items shape last ts).isNode (.many (item_buildsNodes shape)) u h

/-- What follows the items of a block is a `}`. -/
theorem kind_of_rest_items {r : α} {rest : List α}
    (h : ((items shape).run room last ts).rest = r :: rest) : Lexical.kind r = .rightBrace := by
  have hruns : Runs room [] [] (items shape) last ts _ := runs_items shape last ts
  simpa using hruns.rest_many r (by rw [h]; rfl)

/-- A block whose tokens end before it does. -/
theorem run_braced_open (h : ((items shape).run room t ts).rest = []) :
    (braced t shape).run room last (t :: ts)
      = ⟨.leaf t :: ((items shape).run room t ts).trees,
        Outcome.faultOf t ++ ((items shape).run room t ts).issues
          ++ [⟨.unclosedBrace, .across t t⟩],
        ((items shape).run room t ts).last, []⟩ := by
  show Outcome.join (.reading 1 last (t :: ts)) (Outcome.join ((items shape).run room t ts)
    ((ifNext (· == .rightBrace) advance (complainAt t .unclosedBrace)).run room
      ((items shape).run room t ts).last ((items shape).run room t ts).rest)) = _
  rw [h]
  simp [Outcome.join, Outcome.reading, run_ifNext_nil]

/-- A block with both of its braces. -/
theorem run_braced_closed {r : α} {rest : List α}
    (h : ((items shape).run room t ts).rest = r :: rest) :
    (braced t shape).run room last (t :: ts)
      = ⟨.leaf t :: ((items shape).run room t ts).trees ++ [.leaf r],
        Outcome.faultOf t ++ ((items shape).run room t ts).issues ++ Outcome.faultOf r, r, rest⟩ := by
  have hr := kind_of_rest_items h
  show Outcome.join (.reading 1 last (t :: ts)) (Outcome.join ((items shape).run room t ts)
    ((ifNext (· == .rightBrace) advance (complainAt t .unclosedBrace)).run room
      ((items shape).run room t ts).last ((items shape).run room t ts).rest)) = _
  rw [h]
  simp [Outcome.join, Outcome.reading, run_ifNext_cons, hr]

end Rule

/-- **A block node is a `{`, nodes, and a `}` unless the tokens end first.** -/
theorem Runs.children_of_block {room : Nat} {known seen : List α} {rule : Rule α} {last : α}
    {rest : List α} {a : Outcome α} (h : Runs room known seen rule last rest a)
    {before after : List (Tree α)} {frames : List (Frame α)} {shape : BlockShape}
    {children : List (Tree α)}
    (ht : a.trees = before ++ Tree.fill frames (.node shape.kind children) :: after) :
    ∃ (opening : α) (items : List (Tree α)) (closing : Option α),
      Lexical.kind opening = .leftBrace ∧ (∀ u ∈ items, u.IsNode) ∧
      (∀ r ∈ closing, Lexical.kind r = .rightBrace) ∧
      children = .leaf opening :: items ++ (closing.map Tree.leaf).toList := by
  obtain ⟨inner, seen, last, t, ts, b, -, hb, hbraced, rfl, -⟩ := h.exists_block ht
  rw [← hbraced.eq_run]
  cases hrest : ((Rule.items shape).run inner t ts).rest with
  | nil =>
    refine ⟨t, ((Rule.items shape).run inner t ts).trees, none, hb, fun _ => Rule.isNode_items, by simp, ?_⟩
    rw [Rule.run_braced_open hrest]
    exact (List.append_nil _).symm
  | cons r rest =>
    refine ⟨t, ((Rule.items shape).run inner t ts).trees, some r, hb, fun _ => Rule.isNode_items, ?_, ?_⟩
    · intro r' hr'
      cases hr'
      exact Rule.kind_of_rest_items hrest
    · rw [Rule.run_braced_closed hrest]
      rfl

/-- A block that ends in one of its items is not closed. -/
theorem isClosedBlock_open {shape : BlockShape} {t : α} {items : List (Tree α)}
    (ht : Lexical.kind t = .leftBrace) (hitems : ∀ u ∈ items, u.IsNode) :
    isClosedBlock shape (.node shape.kind (.leaf t :: items)) = false := by
  have hlast : (Tree.leaf t :: items).getLast? = some (.leaf t) ∨
      ∃ u ∈ items, (Tree.leaf t :: items).getLast? = some u := by
    cases hi : items.getLast? with
    | none =>
      rw [List.getLast?_eq_none_iff.1 hi]
      exact .inl rfl
    | some u => exact .inr ⟨u, List.mem_of_getLast? hi, by rw [List.getLast?_cons, hi]; rfl⟩
  rw [isClosedBlock]
  rcases hlast with hlast | ⟨u, hu, hlast⟩
  · simp [hlast, ht]
  · cases u with
    | leaf x => exact (hitems _ hu).elim
    | node kind children => simp [hlast]

/-- **A block that is taken alone has both of its braces, and they end where the tokens do.** -/
theorem parseBlock?_eq_some {depth : Nat} {shape : BlockShape} {tokens : List α} {tree : Tree α}
    {issues : List (Issue α)} (h : parseBlock? depth shape tokens = some (tree, issues)) :
    ∃ room t ts r, maxDepth - depth = room + 1 ∧ tokens = t :: ts ∧
      Lexical.kind t = .leftBrace ∧ ((Rule.items shape).run room t ts).rest = [r] ∧
      tree = .braces shape t ((Rule.items shape).run room t ts).trees r ∧
      issues = Outcome.faultOf t ++ ((Rule.items shape).run room t ts).issues
        ++ Outcome.faultOf r := by
  cases tokens with
  | nil => cases h
  | cons t ts =>
    rw [parseBlock?] at h
    split at h
    · next hkind =>
      simp only at h
      split at h
      · next tree' htrees hrest =>
        split at h
        · next hclosed =>
          cases h
          cases hroom : maxDepth - depth with
          | zero =>
            -- where there is no room, the only tree is an error
            have herror : (runBlock 0 shape t (t :: ts)).trees = [tree] := hroom ▸ htrees
            rw [show (runBlock 0 shape t (t :: ts)).trees = [.node .error _] from rfl] at herror
            cases herror
            cases shape <;> cases hclosed
          | succ room =>
            rw [hroom] at htrees hrest
            have hrun : runBlock (room + 1) shape t (t :: ts)
                = ((Rule.braced t shape).run room t (t :: ts)).wrapped shape.kind := rfl
            rw [hrun] at htrees hrest ⊢
            refine ⟨room, t, ?_⟩
            cases hitems : ((Rule.items shape).run room t ts).rest with
            | nil =>
              rw [Rule.run_braced_open hitems] at htrees
              cases htrees
              rw [isClosedBlock_open hkind fun _ => Rule.isNode_items] at hclosed
              cases hclosed
            | cons r rest =>
              rw [Rule.run_braced_closed hitems] at htrees hrest ⊢
              cases htrees
              cases hrest
              exact ⟨ts, r, rfl, rfl, hkind, hitems, rfl, rfl⟩
        · cases h
      · cases h
    · cases h

end NginxConf
