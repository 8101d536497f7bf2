import NginxConf.Proofs.Grammar.Blocks
import NginxConf.Proofs.Tree.Shape

/-!
# How deep rules nest what they build

A derivation counts the blocks it enters, so there are no more blocks on a way down than there is
room (`Runs.forestMost_isBlock_le`). How many nodes a rule puts into each other before it comes to a
block can be read off the rule (`Rule.Within`): two for a statement and three for an entry of a geo
block, which can be a statement in an error node. With one node for each block, there are at most
three more for each block around (`Runs.forestDepth_le`). And since a block begins with its `{`, no
more than three nodes begin at one place (`Runs.chains`).
-/

namespace NginxConf

variable {α : Type}

/-- The rule puts at most so many nodes into each other, where a block is counted as one node. -/
def Rule.Within : Rule α → Nat → Prop
  | andThen first second, n => first.Within n ∧ second.Within n
  | wrap _ _, 0 => False
  | wrap _ rule, n + 1 => rule.Within n
  | withNext rule, n => ∀ t, (rule t).Within n
  | peek rule, n => ∀ next, (rule next).Within n
  | wrapBy _ _ _, 0 => False
  | wrapBy start _ finish, n + 1 => start.Within n ∧ ∀ next, (finish next).Within n
  | many _ item, n => item.Within n
  | block _, n => 0 < n
  | _, _ => True

/-! ## The rules of the grammar -/

namespace Rule

variable {n : Nat} {yes no : Rule α}

theorem within_ifNext {p : TokenKind → Bool} (hy : yes.Within n) (hn : no.Within n) :
    (ifNext p yes no).Within n := by
  intro next
  dsimp only
  split
  · exact hy
  · exact hn

theorem within_value {what : Missing} : (value (α := α) what).Within n :=
  within_ifNext trivial trivial

theorem within_reject {problem : Problem} : (reject (α := α) problem).Within (n + 1) :=
  fun _ => ⟨trivial, trivial⟩

theorem within_extraValues : (extraValues (α := α)).Within (n + 1) :=
  within_ifNext (fun _ => ⟨trivial, trivial⟩) trivial

theorem within_condition : (condition (α := α)).Within (n + 1) :=
  within_ifNext ⟨trivial, within_value⟩
    ⟨trivial, within_ifNext ⟨trivial, within_value⟩ trivial⟩

theorem within_conditions : (conditions (α := α)).Within (n + 1) :=
  within_ifNext ⟨within_condition, within_ifNext (fun _ => ⟨within_condition, trivial⟩) trivial⟩
    trivial

theorem within_ifBlock {shape : BlockShape} (hn : no.Within (n + 1)) :
    (ifNext (· == .leftBrace) (block shape) no).Within (n + 1) :=
  within_ifNext (Nat.succ_pos n) hn

theorem within_ifStatement : (ifStatement (α := α)).Within (n + 2) :=
  ⟨trivial, within_ifNext
    ⟨trivial, within_conditions, within_ifNext ⟨trivial, within_ifBlock trivial⟩
      ⟨trivial, within_ifBlock trivial⟩⟩
    ⟨trivial, within_ifBlock trivial⟩⟩

theorem within_setStatement : (setStatement (α := α)).Within (n + 2) :=
  ⟨trivial, within_ifNext ⟨trivial, within_value⟩ trivial, within_extraValues,
    within_ifNext trivial trivial⟩

theorem within_includeStatement : (includeStatement (α := α)).Within (n + 2) :=
  ⟨trivial, within_value, within_extraValues, within_ifNext trivial trivial⟩

theorem within_geoStatement : (geoStatement (α := α)).Within (n + 2) :=
  ⟨trivial, within_ifNext ⟨trivial, within_ifNext trivial trivial⟩ trivial, within_extraValues,
    within_ifBlock trivial⟩

theorem within_script : (script (α := α)).Within n := by
  refine fun brace => ⟨trivial, fun next => ?_⟩
  unfold scriptBody
  split
  · exact ⟨trivial, within_ifNext trivial trivial⟩
  · exact ⟨trivial, within_ifNext trivial trivial⟩
  · exact within_ifNext trivial trivial

theorem within_geoOperand {strict : Bool} {what : Missing} :
    (geoOperand (α := α) strict what).Within n := by
  cases strict with
  | true => exact within_value
  | false => exact within_ifNext trivial trivial

variable [Lexical α]

theorem within_luaStatement : (luaStatement (α := α)).Within (n + 2) := by
  refine fun keyword => ⟨trivial, ?_, within_extraValues,
    within_ifNext within_script ⟨trivial, within_ifNext trivial trivial⟩⟩
  split
  · exact within_value
  · trivial

theorem within_directive : (directive (α := α)).Within (n + 2) := by
  refine fun name => ⟨⟨trivial, trivial⟩, fun next => ?_⟩
  unfold directiveEnd
  split
  · trivial
  · exact Nat.succ_pos n
  · trivial

theorem within_geoEntry {strict : Bool} : (geoEntry (α := α) strict).Within (n + 1) := by
  intro first
  dsimp only
  repeat' split
  all_goals first | exact ⟨trivial, within_geoOperand⟩ | trivial

theorem within_wholeGeoItem : (wholeGeoItem (α := α)).Within (n + 3) :=
  ⟨within_geoEntry, within_ifNext (fun _ => ⟨within_geoEntry, trivial⟩) trivial,
    within_ifNext trivial trivial⟩

theorem within_statementFrom (first : α) : (statementFrom first).Within (n + 2) := by
  unfold statementFrom
  split
  · exact within_ifStatement
  · exact within_setStatement
  · exact within_includeStatement
  · exact within_geoStatement
  · exact within_luaStatement
  · exact within_directive
  · exact within_directive
  · exact within_directive
  · exact ⟨trivial, Nat.succ_pos n⟩
  · trivial
  · exact within_reject

/-- **A statement puts a block into one node, and anything else into two at most.** -/
theorem within_statement : (statement (α := α)).Within (n + 2) := within_statementFrom

/-- **An entry of a geo block puts a block into two nodes at most**, where a statement stands in its
place. -/
theorem within_geoItem : (geoItem (α := α)).Within (n + 3) := by
  intro first
  unfold geoItemFrom
  split
  · exact within_wholeGeoItem
  · exact within_wholeGeoItem
  · exact within_wholeGeoItem
  · exact within_wholeGeoItem
  · exact within_reject
  · trivial
  · exact ⟨trivial, within_statement⟩

theorem within_item : (shape : BlockShape) → (item (α := α) shape).Within (n + 3)
  | .plain => within_statement
  | .geo => within_geoItem

theorem within_braced (t : α) (shape : BlockShape) : (braced t shape).Within (n + 3) :=
  ⟨trivial, within_item shape, within_ifNext trivial trivial⟩

omit [Lexical α] in
theorem within_tooDeep : (tooDeep (α := α)).Within (n + 1) := fun _ => ⟨trivial, trivial⟩

theorem within_file : (file (α := α)).Within (n + 2) := within_ifNext within_reject within_statement

end Rule

/-! ## What is built -/

variable [Lexical α] {room : Nat} {known seen : List α} {rule : Rule α} {last : α} {rest : List α}
  {a : Outcome α}

/-- **There are no more blocks on a way down than there is room for.** -/
theorem Runs.forestMost_isBlock_le (h : Runs room known seen rule last rest a) :
    Tree.forestMost NodeKind.isBlock a.trees ≤ room := by
  induction h with
  | done | complain | complainSince | complainAt | atEnd | manyStop => exact Nat.zero_le _
  | advance | acceptAll | rawGroup =>
    rw [Outcome.reading, Tree.forestMost_leaves]
    exact Nat.zero_le _
  | andThen _ _ iha ihb | manyStep _ _ _ _ iha ihb =>
    rw [Outcome.join, Tree.forestMost_append]
    exact Nat.max_le.2 ⟨iha, ihb⟩
  | wrap hk _ ih => simpa [Outcome.wrapped, Tree.most, hk] using ih
  | wrapBy hk _ _ iha ihb =>
    have hboth := Nat.max_le.2 ⟨iha, ihb⟩
    simpa [Outcome.wrapped, Outcome.join, Tree.most, hk] using hboth
  | withNext _ _ ih | peek _ ih | tooDeep _ _ ih => exact ih
  | @block _ _ _ shape _ _ _ _ _ _ ih =>
    rw [Outcome.wrapped, Tree.forestMost_singleton, Tree.most, shape.isBlock_kind, if_pos rfl]
    exact Nat.succ_le_succ ih

/-- **What a rule builds is as deep as the rule says, and three nodes more for each block around.** -/
theorem Runs.forestDepth_le (h : Runs room known seen rule last rest a) {n : Nat}
    (hrule : rule.Within n) : Tree.forestDepth a.trees ≤ n + 3 * room := by
  have hjoin {a b : Outcome α} {n : Nat} (ha : Tree.forestDepth a.trees ≤ n)
      (hb : Tree.forestDepth b.trees ≤ n) : Tree.forestDepth (a.join b).trees ≤ n := by
    rw [← Tree.forestMost_true] at ha hb ⊢
    rw [Outcome.join, Tree.forestMost_append]
    exact Nat.max_le.2 ⟨ha, hb⟩
  have hwrapped {a : Outcome α} (kind : NodeKind) {n m : Nat}
      (ha : Tree.forestDepth a.trees ≤ n + m) :
      Tree.forestDepth (a.wrapped kind).trees ≤ n + 1 + m := by
    rw [Outcome.wrapped, Tree.forestDepth, Tree.forestDepth, Tree.depth]
    omega
  induction h generalizing n with
  | done | complain | complainSince | complainAt | atEnd | manyStop => exact Nat.zero_le _
  | advance | acceptAll | rawGroup =>
    rw [← Tree.forestMost_true, Outcome.reading, Tree.forestMost_leaves]
    exact Nat.zero_le _
  | andThen _ _ iha ihb => exact hjoin (iha hrule.1) (ihb hrule.2)
  | wrap _ _ ih =>
    cases n with
    | zero => exact hrule.elim
    | succ n => exact hwrapped _ (ih hrule)
  | withNext _ _ ih | peek _ ih => exact ih (hrule _)
  | wrapBy _ _ _ iha ihb =>
    cases n with
    | zero => exact hrule.elim
    | succ n => exact hwrapped _ (hjoin (iha hrule.1) (ihb (hrule.2 _)))
  | manyStep _ _ _ _ iha ihb => exact hjoin (iha hrule) (ihb hrule)
  | tooDeep _ _ ih =>
    have hdeep := ih (Rule.within_tooDeep (n := 0))
    have hpos : 0 < n := hrule
    omega
  | @block room _ _ shape _ _ _ _ _ _ ih =>
    have hblock := hwrapped shape.kind (ih (Rule.within_braced (n := 0) _ shape))
    have hpos : 0 < n := hrule
    omega

/-- What a `{` opens begins with the `{`. -/
theorem Runs.forestChain_braced {shape : BlockShape} {t : α} {ts : List α}
    (h : Runs room known seen (.braced t shape) last (t :: ts) a) :
    Tree.forestChain a.trees = 0 := by
  rw [← h.eq_run]
  rfl

/-- **A rule lets no more nodes begin at one place than it puts into each other**, and three at most
in blocks. -/
theorem Runs.chains (h : Runs room known seen rule last rest a) {n : Nat} (hn : n ≤ 3)
    (hrule : rule.Within n) : (∀ t ∈ a.trees, t.chain ≤ n) ∧ Tree.forestChained 3 a.trees := by
  have hjoin {a b : Outcome α} {n : Nat}
      (ha : (∀ t ∈ a.trees, t.chain ≤ n) ∧ Tree.forestChained 3 a.trees)
      (hb : (∀ t ∈ b.trees, t.chain ≤ n) ∧ Tree.forestChained 3 b.trees) :
      (∀ t ∈ (a.join b).trees, t.chain ≤ n) ∧ Tree.forestChained 3 (a.join b).trees :=
    ⟨List.forall_mem_append.2 ⟨ha.1, hb.1⟩, Tree.forestChained_append ha.2 hb.2⟩
  have hwrapped {a : Outcome α} (kind : NodeKind) {n : Nat} (hn : n < 3)
      (ha : (∀ t ∈ a.trees, t.chain ≤ n) ∧ Tree.forestChained 3 a.trees) :
      (∀ t ∈ (a.wrapped kind).trees, t.chain ≤ n + 1) ∧
        Tree.forestChained 3 (a.wrapped kind).trees := by
    have hfirst := Tree.forestChain_le ha.1
    exact ⟨List.forall_mem_singleton.2 (Nat.succ_le_succ hfirst),
      ⟨Nat.lt_of_le_of_lt hfirst hn, ha.2⟩, trivial⟩
  have hleaves (us : List α) (n : Nat) : (∀ t ∈ us.map Tree.leaf, t.chain ≤ n) ∧
      Tree.forestChained 3 (us.map Tree.leaf) := by
    refine ⟨fun t ht => ?_, Tree.forestChained_leaves us⟩
    obtain ⟨u, -, rfl⟩ := List.mem_map.1 ht
    exact Nat.zero_le n
  induction h generalizing n with
  | done | complain | complainSince | complainAt | atEnd | manyStop => exact hleaves [] n
  | advance | acceptAll | rawGroup => exact hleaves _ n
  | andThen _ _ iha ihb => exact hjoin (iha hn hrule.1) (ihb hn hrule.2)
  | wrap _ _ ih =>
    cases n with
    | zero => exact hrule.elim
    | succ n => exact hwrapped _ hn (ih (Nat.le_of_succ_le hn) hrule)
  | withNext _ _ ih | peek _ ih => exact ih hn (hrule _)
  | wrapBy _ _ _ iha ihb =>
    cases n with
    | zero => exact hrule.elim
    | succ n =>
      exact hwrapped _ hn (hjoin (iha (Nat.le_of_succ_le hn) hrule.1)
        (ihb (Nat.le_of_succ_le hn) (hrule.2 _)))
  | manyStep _ _ _ _ iha ihb => exact hjoin (iha hn hrule) (ihb hn hrule)
  | tooDeep _ _ ih =>
    obtain ⟨hfirst, hchained⟩ := ih (n := 1) (by decide) (Rule.within_tooDeep (n := 0))
    exact ⟨fun t ht => Nat.le_trans (hfirst t ht) hrule, hchained⟩
  | @block room _ _ shape _ _ _ _ _ ha ih =>
    obtain ⟨-, hchained⟩ := ih (Nat.le_refl 3) (Rule.within_braced (n := 0) _ shape)
    have hbrace := ha.forestChain_braced
    refine ⟨List.forall_mem_singleton.2 ?_, ⟨?_, hchained⟩, trivial⟩
    · rw [Tree.chain, hbrace]
      exact hrule
    · rw [hbrace]
      decide

end NginxConf
