import NginxConf.Proofs.Grammar.Sound
import NginxConf.Proofs.Grammar.Patterns

/-!
# Blocks, and whatever has blocks

The rules that can call the rule for blocks are gone through under the assumption that blocks yield
what their patterns say (`Rule.BlocksYield`). The rule for blocks runs its items with room for one
block less, so the assumption is discharged by induction on the room (`Rule.blocksYield`).
-/

namespace NginxConf

open RegularExpression

variable {α : Type} [Lexical α]

/-- A `}` that closes nothing, as an error node. -/
def Outcome.strayBrace (r : α) (rest : List α) : Outcome α :=
  ⟨[.node .error [.leaf r]], ⟨.unmatchedBrace, .across r r⟩ :: faultOf r, r, rest⟩

namespace Rule

variable {F : Outcome α → Prop} (hF : Outcome.Closed F) {room : Nat}

include hF

/-! ## Statements with blocks -/

/-- Blocks yield what their patterns say, wherever a `{` comes next. -/
def BlocksYield (F : Outcome α → Prop) (room : Nat) : Prop :=
  ∀ shape : BlockShape, Yields F room (Spot.any.before (α := α) (· == .leftBrace)) (block shape)
    (Pattern.blockOf shape.kind) Spot.calm

section Blocks

variable (hblocks : BlocksYield F room)

include hblocks

omit hF in
/-- A block, where there is one. -/
theorem ifBlock_yields {pre : Spot α} (shape : BlockShape) {no : Rule α}
    (hno : Yields F room (pre.notBefore (· == .leftBrace)) no 1 Spot.calm) :
    Yields F room pre (ifNext (· == .leftBrace) (block shape) no)
      (Pattern.optional (Pattern.blockOf shape.kind)) Spot.calm :=
  Yields.ifNext ((hblocks shape).of_pre fun _ h => ⟨trivial, h.2⟩) hno

theorem geoStatement_yields :
    Yields F room (Spot.calm.before (α := α) (· == .geoKeyword)) geoStatement
      (Pattern.oneOf [.node .geoStatement]) Spot.calm :=
  Yields.wrap hF rfl (by decide) (by decide) le_rfl
    (Yields.andThen hF (keyword_yields hF (by decide) ⟨rfl, rfl⟩)
      (Yields.andThen hF
        (Yields.ifNext (Yields.andThen hF (Yields.advance hF ⟨rfl, rfl⟩ Stage.keepsValues_isPlain)
          (acceptValue_yields hF Stage.keepsValues_isPlain))
          ((Yields.lacking hF).of_post fun _ h => h.1))
        (Yields.andThen hF (extraValues_yields hF Stage.keepsValues_isPlain)
          (ifBlock_yields hblocks .geo ((Yields.lacking hF).of_post
            fun hfits h => Spot.calm_of_isPlain hfits h.1)))))

/-- Where something is missing of the parentheses, the block may come all the same. -/
theorem withoutParen_yields {pre : Spot α} {what : Missing}
    (hcalm : ∀ {stage rest}, stage.Fits rest → pre stage rest → Spot.calm stage rest) :
    Yields F room pre (lacking what ++ ifNext (· == .leftBrace) (block .plain) done)
      (1 * Pattern.optional (.blockOf .block)) Spot.calm :=
  Yields.andThen hF (Yields.lacking hF) (ifBlock_yields hblocks .plain
    ((Yields.done hF).of_post fun hfits h => hcalm hfits h.1))

theorem ifStatement_yields :
    Yields F room (Spot.calm.before (α := α) (· == .ifKeyword)) ifStatement
      (Pattern.oneOf [.node .ifStatement]) Spot.calm := by
  refine Yields.wrap hF rfl (by decide) (by decide) ?_ (Yields.andThen hF (ifKeyword_yields hF)
    (Yields.ifNext (Yields.andThen hF (leftParen_yields hF) (Yields.andThen hF
      (conditions_yields hF) (Yields.ifNext
        (Yields.andThen hF (rightParen_yields hF) (ifBlock_yields hblocks .plain
          ((Yields.lacking hF).of_post fun hfits h => Spot.calm_of_isPlain hfits h.1)))
        (withoutParen_yields hF hblocks calm_condition))))
      (withoutParen_yields hF hblocks calm_afterIf)))
  simp only [NodeKind.pattern, Pattern.inOrder, Pattern.optional, matches'_mul, matches'_add,
    matches'_epsilon, mul_add, add_mul, mul_assoc, one_mul, mul_one, BlockShape.kind]
  exact le_of_eq (by ac_rfl)

/-! ### Directives -/

omit hF hblocks in
/-- The arguments of a directive are values. Only as the last token of a text a malformed one can be
among them. -/
theorem takeWhile_isArgument {stage : Stage} {rest : List α} (hfits : stage.Fits rest)
    (hplain : stage.IsPlain) :
    ((∀ t ∈ rest.takeWhile fun t => isArgument (Lexical.kind t), (Lexical.kind t).isValue = true) ∧
      ∃ stage' : Stage, stage'.Fits (rest.dropWhile fun t => isArgument (Lexical.kind t)) ∧
        stage'.IsPlain) ∨
    ∃ us m, rest = us ++ [m] ∧ (∀ t ∈ us, (Lexical.kind t).isValue = true) ∧
      Lexical.kind m = .malformed := by
  induction rest generalizing stage with
  | nil => exact .inl ⟨by simp, stage, hfits, hplain⟩
  | cons t ts ih =>
    obtain ⟨-, stage', hnext, hmore⟩ := id hfits
    by_cases hvalue : (Lexical.kind t).isValue = true
    · have harg : isArgument (Lexical.kind t) = true := by rw [isArgument, hvalue, Bool.true_or]
      rcases ih hmore (Stage.keepsValues_isPlain hplain hvalue hnext) with
        ⟨hvalues, hend⟩ | ⟨us, m, rfl, hvalues, hm⟩
      · rw [List.takeWhile_cons, List.dropWhile_cons, if_pos harg, if_pos harg]
        exact .inl ⟨List.forall_mem_cons.2 ⟨hvalue, hvalues⟩, hend⟩
      · exact .inr ⟨t :: us, m, rfl, List.forall_mem_cons.2 ⟨hvalue, hvalues⟩, hm⟩
    by_cases hm : Lexical.kind t = .malformed
    · rw [hm] at hnext
      rw [Stage.next_malformed hnext] at hmore
      exact .inr ⟨[], t, by rw [hmore.eq_nil_of_finished, List.nil_append], by simp, hm⟩
    · have harg : isArgument (Lexical.kind t) = false := by simp [isArgument, hvalue, hm]
      rw [List.takeWhile_cons, List.dropWhile_cons, harg]
      exact .inl ⟨by simp, stage, hfits, hplain⟩

omit hblocks in
/-- The arguments of a directive, the last of which may be cut off by the end of the text. -/
theorem arguments_ends (room : Nat) (last : α) {stage : Stage} {rest : List α} (hfits : stage.Fits rest)
    (hplain : stage.IsPlain) :
    Ends F ((acceptAll isArgument).run room last rest) (Pattern.repeated Pattern.value)
        (Spot.on Stage.IsPlain) ∨
      Ends F ((acceptAll isArgument).run room last rest)
        (Pattern.repeated Pattern.value * Pattern.token .malformed) (fun _ rest => rest = []) := by
  have hsymbols {ts : List α} (hfits : ∀ t ∈ ts, Lexical.kind t ≠ .endOfFile)
      (h : ∀ t ∈ ts, (Lexical.kind t).isValue = true) :
      (ts.map Tree.leaf).map Tree.symbol ∈ (Pattern.repeated Pattern.value).matches' :=
    mem_repeated_tokens fun t ht => ⟨h t ht, hfits t ht⟩
  have hfile := hfits.forall_ne_endOfFile
  rw [run_acceptAll]
  obtain ⟨htake, hdrop⟩ := take_length_takeWhile (fun t => isArgument (Lexical.kind t)) rest
  have harg : ∀ t ∈ rest.takeWhile fun t => isArgument (Lexical.kind t),
      isArgument (Lexical.kind t) = true :=
    fun t ht => List.mem_takeWhile_imp (p := fun t => isArgument (Lexical.kind t)) ht
  have hfact : F (.reading (rest.takeWhile fun t => isArgument (Lexical.kind t)).length last rest) :=
    hF.reading fun t ht => by
      rw [htake] at ht
      constructor <;> intro hkind <;> have := harg t ht <;> rw [hkind] at this <;> cases this
  rcases takeWhile_isArgument hfits hplain with ⟨hvalues, hend⟩ | ⟨us, m, rfl, hvalues, hm⟩
  · refine .inl ⟨hfact, ?_, ?_⟩
    · rw [Outcome.reading, htake]
      exact hsymbols (fun t ht => hfile t ((List.takeWhile_prefix _).subset ht)) hvalues
    · rw [Outcome.reading, hdrop]
      exact hend
  · have hall : ((us ++ [m]).takeWhile fun t => isArgument (Lexical.kind t)) = us ++ [m] := by
      refine List.takeWhile_eq_self_iff.2 fun t ht => ?_
      rcases List.mem_append.1 ht with hu | hu
      · rw [isArgument, hvalues t hu, Bool.true_or]
      · rw [List.mem_singleton.1 hu, hm]; rfl
    obtain ⟨stage', hfits'⟩ := hfits.drop (us ++ [m]).length
    refine .inr ⟨hfact, ?_, stage', ?_, ?_⟩
    · rw [Outcome.reading, htake, hall, List.map_append, List.map_append]
      refine Language.append_mem_mul
        (hsymbols (fun t ht => hfile t (List.mem_append_left _ ht)) hvalues) ?_
      exact Pattern.mem_oneOf.2 ⟨_, List.mem_cons_self, by simp [Tree.symbol, hm]⟩
    · rw [Outcome.reading, hall]
      exact hfits'
    · rw [Outcome.reading, hall]
      exact List.drop_length

omit hblocks in
/-- What is left of a directive that ends in neither `;` nor a block. -/
theorem unfinished_ends {a : Outcome α} {name : α} {P : Pattern} (ha : Ends F a P Spot.calm)
    (hP : P.matches' ≤ Pattern.misfit.matches') :
    Ends F ((a.followedBy ((complainSince name (.unfinishedDirective (Lexical.text name))).run
      room)).wrapped .error) (Pattern.oneOf (.node .directive :: Symbol.errors)) Spot.calm := by
  have hmisfit : (P * 1).matches' ≤ Pattern.misfit.matches' := by
    rwa [matches'_mul, matches'_epsilon, mul_one]
  refine (ha.followedBy hF (Yields.complainSince hF rfl)).wrapped hF rfl
    (hmisfit.trans Pattern.misfit_le_error) (fun _ => hmisfit) ?_
  · exact Pattern.oneOf_mono (List.subset_cons_self _ _) (Tree.symbol_error _)

/-- How a directive ends, after arguments that are not cut off. -/
theorem directiveEnd_ends {a : Outcome α} {name : α}
    (ha : Ends F a (Pattern.value * Pattern.repeated Pattern.value) (Spot.on Stage.IsPlain)) :
    Ends F ((a.followedBy ((directiveEnd name a.nextKind).run room)).wrapped
      (directiveKind a.nextKind)) (Pattern.oneOf (.node .directive :: Symbol.errors)) Spot.calm := by
  have hnode (children : List (Tree α)) : [(Tree.node .directive children).symbol]
      ∈ (Pattern.oneOf (.node .directive :: Symbol.errors)).matches' :=
    Pattern.oneOf_mono (by simp) (Tree.symbol_node (by decide) children)
  have hend {ss : List Symbol} (h : ss ⊆ [.token .semicolon, .node .block, .deep]) :
      ((Pattern.value * Pattern.repeated Pattern.value) * Pattern.oneOf ss).matches'
        ≤ (NodeKind.directive.pattern "").matches' := by
    rw [matches'_mul, matches'_mul, mul_assoc]
    exact mul_le_mul_right (mul_le_mul_right (Pattern.oneOf_mono h) _) _
  have hbefore {kind : TokenKind} (hnext : a.nextKind = some kind) :
      Ends F a (Pattern.value * Pattern.repeated Pattern.value)
        ((Spot.on Stage.IsPlain).before (· == kind)) := by
    obtain ⟨hfact, hmem, stage, hfits, hplain⟩ := ha
    obtain ⟨t, ht, hkind⟩ := Option.map_eq_some_iff.1 hnext
    obtain ⟨ts, hrest⟩ := List.head?_eq_some_iff.1 ht
    exact ⟨hfact, hmem, stage, hfits, hplain, t, ts, hrest, beq_iff_eq.2 hkind⟩
  generalize hnext : a.nextKind = next
  match next with
  | some .semicolon =>
    have hsemicolon : Yields F room ((Spot.on (α := α) Stage.IsPlain).before (· == .semicolon))
        advance (.token .semicolon) (Spot.on Stage.IsPlain) := by
      refine Yields.advance hF ⟨rfl, rfl⟩ fun hplain hkind hnext => ?_
      rw [beq_iff_eq.1 hkind] at hnext
      exact Stage.isPlain_of_next hnext (by decide) (by decide) fun h => absurd h hplain.2
    exact (((hbefore hnext).followedBy hF hsemicolon).mono le_rfl Spot.calm_of_isPlain).wrapped hF
      rfl (hend (by simp)) (by rintro ⟨⟩) (hnode _)
  | some .leftBrace =>
    have hblock : Yields F room ((Spot.on Stage.IsPlain).before (· == .leftBrace)) _ _ _ :=
      (hblocks .plain).of_pre fun _ h => ⟨trivial, h.2⟩
    exact ((hbefore hnext).followedBy hF hblock).wrapped hF rfl
      (hend (by simp [BlockShape.kind])) (by rintro ⟨⟩) (hnode _)
  | none | some .leftParen | some .rightParen | some .rightBrace | some .ifKeyword
  | some .setKeyword | some .includeKeyword | some .geoKeyword | some .luaKeyword | some .word
  | some .variableName | some .string | some .operator | some .luaCode | some .malformed
  | some .endOfFile =>
    exact unfinished_ends hF (ha.mono le_rfl Spot.calm_of_isPlain) values_le_misfit

/-- **A directive**, or the error node that is left of it. -/
theorem directive_yields :
    Yields F room (Spot.calm.before (α := α) TokenKind.isValue) directive
      (Pattern.oneOf (.node .directive :: Symbol.errors)) Spot.calm := by
  refine Yields.withNext fun name hname => ?_
  rintro last stage _ hfits ⟨hcalm, hhead⟩
  obtain ⟨ts, rfl⟩ := List.head?_eq_some_iff.1 hhead
  have hfirst := (firstValue_yields hF : Yields F room _ _ _ _) last stage (name :: ts) hfits
    ⟨hcalm, name, ts, rfl, hname⟩
  obtain ⟨stage', hfits', hplain⟩ := hfirst.2.2
  have hrest := (read_append_rest_run room (acceptAll isArgument)
    (advance.run room last (name :: ts)).last (advance.run room last (name :: ts)).rest).symm
  rcases arguments_ends hF room (advance.run room last (name :: ts)).last hfits' hplain with h | h
  · exact directiveEnd_ends hF hblocks (hfirst.join hF hrest h)
  · -- the text has ended in an argument that is cut off
    obtain ⟨-, -, hnone⟩ := h.2.2
    have hnext : ((advance ++ acceptAll isArgument).run room last (name :: ts)).nextKind = none := by
      rw [run_append, Outcome.nextKind, Outcome.followedBy, Outcome.rest_join, hnone]
      rfl
    rw [run_wrapBy, hnext]
    refine unfinished_ends hF ((hfirst.join hF hrest h).mono le_rfl ?_) ?_
    · rintro _ _ - rfl t ht
      cases ht
    · refine le_trans ?_ arguments_le_misfit
      exact mul_le_mul_right (mul_le_mul_right le_self_add _) _

/-! ### Statements -/

omit hblocks in
/-- A token that is out of place, as an error node. -/
theorem reject_yields (room : Nat) (problem : Problem) {kind : TokenKind}
    (hproblem : problem.isBrace = false) (hif : kind ≠ .ifKeyword)
    (hbraces : (kind == .leftBrace) = false ∧ (kind == .rightBrace) = false)
    (hP : (Pattern.tokens (· == kind)).matches' ≤ Pattern.misfit.matches') :
    Yields F room (Spot.calm.before (α := α) (· == kind)) (reject problem)
      (Pattern.oneOf Symbol.errors) Spot.calm := by
  refine Yields.withNext fun t ht => ?_
  have hkeyword : Yields F room (Spot.calm.before (· == kind)) _ _ _ :=
    keyword_yields hF hif hbraces
  have hrule := Yields.andThen hF (Yields.complainAt hF (t := t) hproblem) (hkeyword.of_head ht)
  refine (Yields.wrapError hF ?_ hrule).of_post Spot.calm_of_isPlain
  rw [matches'_mul, matches'_epsilon, one_mul]
  exact hP

omit hblocks in
/-- A token that is cut off by the end of the text. -/
theorem malformed_yields :
    Yields F room (Spot.calm.before (α := α) (· == .malformed)) (wrap .error advance)
      (Pattern.oneOf Symbol.errors) Spot.calm :=
  (Yields.wrapError hF (oneOf_le_misfit (by decide))
    (keyword_yields hF (by decide) ⟨rfl, rfl⟩)).of_post Spot.calm_of_isPlain

omit hF hblocks in
/-- A rule for one statement, where it is known which. -/
theorem Yields.toStatement {p : TokenKind → Bool} {rule : Rule α} {first : α} {ss : List Symbol}
    {post : Spot α} (hss : ss ⊆ Symbol.statements ++ Symbol.errors)
    (hpost : ∀ {stage rest}, stage.Fits rest → post stage rest → Spot.calm stage rest)
    (h : Yields F room (Spot.calm.before p) rule (Pattern.oneOf ss) post)
    (hp : p (Lexical.kind first) = true) :
    Yields F room (fun stage rest => Spot.calm stage rest ∧ rest.head? = some first) rule
      Pattern.statement Spot.calm :=
  (h.of_head hp).mono (Pattern.oneOf_mono hss) (fun _ => id) hpost

/-- **A statement**, or what stands in its place. -/
theorem statement_yields :
    Yields F room (Spot.calm.before (α := α) (· != .rightBrace)) statement Pattern.statement
      Spot.calm := by
  refine Yields.withNext fun first hfirst => ?_
  rw [bne_iff_ne] at hfirst
  have hplain {stage : Stage} {rest : List α} (hfits : stage.Fits rest)
      (h : Spot.on Stage.IsPlain stage rest) := Spot.calm_of_isPlain hfits h
  have rejected {kind : TokenKind} (hkind : Lexical.kind first = kind) (hif : kind ≠ .ifKeyword)
      (hbraces : (kind == .leftBrace) = false ∧ (kind == .rightBrace) = false)
      (hP : (Pattern.tokens (· == kind)).matches' ≤ Pattern.misfit.matches') :=
    (reject_yields hF room (.unexpected kind) rfl hif hbraces hP).toStatement
      (List.subset_append_right _ _) (fun _ => id) (beq_iff_eq.2 hkind)
  unfold statementFrom
  split
  · next hkind =>
    exact (ifStatement_yields hF hblocks).toStatement (by decide) (fun _ => id) (beq_iff_eq.2 hkind)
  · next hkind => exact (setStatement_yields hF).toStatement (by decide) hplain (beq_iff_eq.2 hkind)
  · next hkind =>
    exact (includeStatement_yields hF).toStatement (by decide) hplain (beq_iff_eq.2 hkind)
  · next hkind =>
    exact (geoStatement_yields hF hblocks).toStatement (by decide) (fun _ => id) (beq_iff_eq.2 hkind)
  · next hkind => exact (luaStatement_yields hF).toStatement (by decide) hplain (beq_iff_eq.2 hkind)
  · next hkind =>
    exact (directive_yields hF hblocks).toStatement (by decide) (fun _ => id) (by rw [hkind]; rfl)
  · next hkind =>
    exact (directive_yields hF hblocks).toStatement (by decide) (fun _ => id) (by rw [hkind]; rfl)
  · next hkind =>
    exact (directive_yields hF hblocks).toStatement (by decide) (fun _ => id) (by rw [hkind]; rfl)
  · next hkind =>
    have hblock : Yields F room (Spot.calm.before (· == .leftBrace)) _ _ _ :=
      (hblocks .plain).of_pre fun _ h => ⟨trivial, h.2⟩
    refine (Yields.wrapError hF ?_ (Yields.andThen hF (Yields.complainAt hF (t := first) rfl)
      (hblock.of_head (beq_iff_eq.2 hkind)))).of_le
      (Pattern.oneOf_mono (List.subset_append_right _ _))
    rw [matches'_mul, matches'_epsilon, one_mul]
    exact oneOf_le_misfit (by decide)
  · next hkind =>
    exact (malformed_yields hF).toStatement (by decide) (fun _ => id) (beq_iff_eq.2 hkind)
  · -- what else can come next is a semicolon, or the code of a script without its keyword
    generalize hkind : Lexical.kind first = kind at *
    cases kind with
    | semicolon => exact rejected rfl (by decide) ⟨rfl, rfl⟩ (oneOf_le_misfit (by decide))
    | luaCode => exact rejected rfl (by decide) ⟨rfl, rfl⟩ (oneOf_le_misfit (by decide))
    | leftParen | rightParen | operator =>
      rintro last stage _ - ⟨hcalm, hhead⟩
      refine absurd (hcalm first hhead).1 ?_
      rw [hkind]
      decide
    | endOfFile =>
      rintro last stage _ hfits ⟨-, hhead⟩
      obtain ⟨ts, rfl⟩ := List.head?_eq_some_iff.1 hhead
      exact absurd hkind hfits.kind_ne_endOfFile
    | _ => simp_all

/-- **An entry of a geo block**, or what stands in its place. -/
theorem geoItem_yields :
    Yields F room (Spot.calm.before (α := α) (· != .rightBrace)) geoItem
      (Pattern.oneOf (.node .geoItem :: Symbol.errors)) Spot.calm := by
  refine Yields.withNext fun first hfirst => ?_
  have herrors := Pattern.oneOf_mono (List.subset_cons_self (Symbol.node .geoItem) Symbol.errors)
  have hitem (hstarts : startsGeoEntry (Lexical.kind first) = true) :
      Yields F room (fun stage rest => Spot.calm stage rest ∧ rest.head? = some first) wholeGeoItem
        (Pattern.oneOf (.node .geoItem :: Symbol.errors)) Spot.calm :=
    ((wholeGeoItem_yields hF).of_head hstarts).mono (Pattern.oneOf_mono (by simp)) (fun _ => id)
      Spot.calm_of_isPlain
  unfold geoItemFrom
  split
  · next hkind => exact hitem (by rw [hkind]; rfl)
  · next hkind => exact hitem (by rw [hkind]; rfl)
  · next hkind => exact hitem (by rw [hkind]; rfl)
  · next hkind => exact hitem (by rw [hkind]; rfl)
  · next hkind =>
    exact ((reject_yields hF _ _ rfl (by decide) ⟨rfl, rfl⟩ (oneOf_le_misfit (by decide))).of_head
      (beq_iff_eq.2 hkind)).of_le herrors
  · next hkind => exact ((malformed_yields hF).of_head (beq_iff_eq.2 hkind)).of_le herrors
  · refine (Yields.wrapError hF ?_ (Yields.andThen hF (Yields.complainAt hF (t := first) rfl)
      ((statement_yields hF hblocks).of_head hfirst))).of_le herrors
    rw [matches'_mul, matches'_epsilon, one_mul]
    exact oneOf_le_misfit (by decide)

/-! ### Blocks -/

/-- What stands between the braces of a block. -/
theorem items_yields (shape : BlockShape) :
    ∃ P : Pattern, shape.kind.pattern "" = Pattern.braces P ∧
      Yields F room Spot.calm (items (α := α) shape) (Pattern.repeated P)
        (Spot.calm.notBefore (· != .rightBrace)) := by
  have hsound (t : α) (_ : (Lexical.kind t != .rightBrace) = true) : SoundAt room [] t (item shape) :=
    item_soundAt (blocksSound room) shape
  cases shape with
  | plain => exact ⟨_, rfl, Yields.many hF hsound (statement_yields hF hblocks)⟩
  | geo => exact ⟨_, rfl, Yields.many hF hsound (geoItem_yields hF hblocks)⟩

end Blocks

omit hF in
/-- What follows a group of raw tokens comes behind a `}`. -/
theorem calm_drop_groupLength {stage : Stage} {rest : List α} (hfits : stage.Fits rest)
    (opened : Nat) :
    ∃ stage' : Stage, stage'.Fits (rest.drop (groupLength opened rest)) ∧
      Spot.calm stage' (rest.drop (groupLength opened rest)) := by
  induction rest generalizing stage opened with
  | nil => exact ⟨stage, hfits, by rintro t ⟨⟩⟩
  | cons t ts ih =>
    obtain ⟨-, stage', hnext, hmore⟩ := hfits
    by_cases hl : Lexical.kind t = .leftBrace
    · rw [groupLength_leftBrace hl, List.drop_succ_cons]
      exact ih hmore _
    by_cases hr : Lexical.kind t = .rightBrace
    · rw [groupLength_rightBrace hr]
      split
      · rw [hr] at hnext
        obtain rfl := Stage.next_rightBrace hnext
        exact ⟨.normal, hmore, Spot.calm_of_isPlain hmore ⟨by decide, by decide⟩⟩
      · exact ih hmore _
    · rw [groupLength_other hl hr, List.drop_succ_cons]
      exact ih hmore _

/-- A block that is nested too deep is one error node of raw tokens. -/
theorem tooDeep_ends {shape : BlockShape} (last : α) {t : α} {ts : List α} {stage : Stage}
    (ht : Lexical.kind t = .leftBrace) (hfits : stage.Fits (t :: ts)) :
    Ends F (runBlock 0 shape last (t :: ts)) (Pattern.blockOf shape.kind) Spot.calm := by
  have hn := @groupLength_leftBrace α _ t ts 0 ht
  have hmem : ((((t :: ts).take (groupLength 0 (t :: ts))).map Tree.leaf).map Tree.symbol)
      ∈ Pattern.error.matches' := by
    rw [hn, List.take_succ_cons, List.map_cons, List.map_cons]
    refine raw_le_error (Language.append_mem_mul (a := [_])
      (Pattern.mem_oneOf.2 ⟨_, List.mem_cons_self, by rw [Tree.symbol, ht]⟩)
      (mem_repeated_tokens fun u hu => ⟨rfl, ?_⟩))
    exact hfits.forall_ne_endOfFile u (List.mem_cons_of_mem _ (List.mem_of_mem_take hu))
  refine ⟨hF.deep ht hmem, Pattern.mem_oneOf.2 ⟨.deep, by simp, ?_⟩, calm_drop_groupLength hfits 0⟩
  show [(Tree.node .error (((t :: ts).take (groupLength 0 (t :: ts))).map Tree.leaf)).symbol] = _
  rw [hn, List.take_succ_cons, Tree.symbol, if_pos ⟨rfl, Tree.areRaw_leaves ht _⟩]

/-- What stands behind the `{` of a block. -/
theorem items_ends (hblocks : BlocksYield F room) (shape : BlockShape) {t : α} {ts : List α}
    {stage : Stage} (ht : Lexical.kind t = .leftBrace) (hfits : stage.Fits (t :: ts)) :
    ∃ P : Pattern, shape.kind.pattern "" = Pattern.braces P ∧
      Ends F ((items shape).run room t ts) (Pattern.repeated P)
        (Spot.calm.notBefore (· != .rightBrace)) := by
  obtain ⟨-, stage', hnext, hmore⟩ := hfits
  have hplain : stage'.IsPlain :=
    Stage.isPlain_of_next hnext (by rw [ht]; decide) (by rw [ht]; decide) fun _ => by rw [ht]; rfl
  obtain ⟨P, hpattern, hitems⟩ := items_yields hF hblocks shape
  exact ⟨P, hpattern, hitems t stage' ts hmore (Spot.calm_of_isPlain hmore hplain)⟩

/-- A block that there is room for. -/
theorem block_ends (hblocks : BlocksYield F room) {shape : BlockShape} (last : α) {t : α}
    {ts : List α} {stage : Stage} (ht : Lexical.kind t = .leftBrace)
    (hfits : stage.Fits (t :: ts)) :
    Ends F (((braced t shape).run room last (t :: ts)).wrapped shape.kind)
      (Pattern.blockOf shape.kind) Spot.calm := by
  obtain ⟨P, hpattern, hfact, hmem, stage, hfits, hcalm, -⟩ := items_ends hF hblocks shape ht hfits
  have hadmits (closing : List α)
      (h : (closing.map Tree.leaf).map Tree.symbol ∈ (Pattern.optional (.token .rightBrace)).matches') :
      shape.kind.Admits
        (.leaf t :: ((items shape).run room t ts).trees ++ closing.map Tree.leaf) := by
    rw [NodeKind.Admits, show ∀ keyword, shape.kind.pattern keyword = Pattern.braces P from
      fun _ => by cases shape <;> exact hpattern, List.cons_append, List.map_cons, List.map_append]
    refine Language.append_mem_mul (a := [_]) ?_ (Language.append_mem_mul hmem h)
    exact Pattern.mem_oneOf.2 ⟨_, List.mem_cons_self, by rw [Tree.symbol, ht]⟩
  have hsymbol (children : List (Tree α)) :
      [(Tree.node shape.kind children).symbol] ∈ (Pattern.blockOf shape.kind).matches' :=
    Pattern.oneOf_mono (by simp) (Tree.symbol_node (by cases shape <;> decide) children)
  cases hrest : ((items shape).run room t ts).rest with
  | nil =>
    rw [run_braced_open hrest]
    refine ⟨hF.openBlock ht hfact (fun _ => isNode_items) hrest ?_, hsymbol _, stage,
      hrest ▸ hfits, by rintro t ⟨⟩⟩
    simpa using hadmits [] (.inr rfl)
  | cons r rest =>
    have hr := kind_of_rest_items hrest
    rw [run_braced_closed hrest]
    rw [hrest] at hfits
    obtain ⟨-, stage', hnext, hmore⟩ := hfits
    rw [hr] at hnext
    obtain rfl := Stage.next_rightBrace hnext
    refine ⟨hF.closedBlock ht hr hfact (fun _ => isNode_items) hrest
      (hadmits [r] (.inl ?_)), hsymbol _, .normal, hmore,
      Spot.calm_of_isPlain hmore ⟨by decide, by decide⟩⟩
    exact Pattern.mem_oneOf.2 ⟨_, List.mem_cons_self, by simp [Tree.symbol, hr]⟩

/-- **A block**, whatever there is room for inside it. -/
theorem blocksYield (room : Nat) : BlocksYield F room := by
  induction room with
  | zero =>
    rintro shape last stage _ hfits ⟨-, t, ts, rfl, ht⟩
    exact tooDeep_ends hF last (beq_iff_eq.1 ht) hfits
  | succ room ih =>
    rintro shape last stage _ hfits ⟨-, t, ts, rfl, ht⟩
    exact block_ends hF ih last (beq_iff_eq.1 ht) hfits

/-! ## Whole files -/

omit hF in
/-- A `}` that closes nothing. -/
theorem run_topStatement_rightBrace {last r : α} {rest : List α} (hr : Lexical.kind r = .rightBrace) :
    topStatement.run room last (r :: rest) = .strayBrace r rest := by
  simp [topStatement, run_ifNext_cons, reject, hr, Outcome.followedBy, Outcome.join,
    Outcome.reading, Outcome.wrapped, Outcome.strayBrace]

/-- What is read at the top of a file: a statement, or a `}` that closes nothing. -/
theorem topStatement_ends (last : α) {stage : Stage} {t : α} {ts : List α}
    (hfits : stage.Fits (t :: ts)) (hcalm : Spot.calm stage (t :: ts)) :
    Ends (fun a => F a ∨ ∃ r rest, Lexical.kind r = .rightBrace ∧ a = .strayBrace r rest)
      (topStatement.run maxDepth last (t :: ts)) Pattern.statement Spot.calm := by
  by_cases hr : Lexical.kind t = .rightBrace
  · rw [run_topStatement_rightBrace hr]
    obtain ⟨-, stage', hnext, hmore⟩ := hfits
    rw [hr] at hnext
    obtain rfl := Stage.next_rightBrace hnext
    refine ⟨.inr ⟨t, ts, hr, rfl⟩, ?_, .normal, hmore,
      Spot.calm_of_isPlain hmore ⟨by decide, by decide⟩⟩
    exact Pattern.oneOf_mono (List.subset_append_right _ _) (Tree.symbol_error _)
  · rw [topStatement, run_ifNext_cons, if_neg (by simpa using hr)]
    obtain ⟨hfact, hmem, hend⟩ := statement_yields hF (blocksYield hF maxDepth) last stage _ hfits
      ⟨hcalm, t, ts, rfl, bne_iff_ne.2 hr⟩
    exact ⟨.inl hfact, hmem, hend⟩

/-- **Whatever can be shown of the statements of a file one by one can be shown of the file**, and
what is built is a row of statements. -/
theorem file_ends {G : Outcome α → Prop} (hidle : ∀ last, G (.idle last []))
    (hstatement : ∀ {a b : Outcome α}, a.rest = b.read → F a → G b → G (a.join b))
    (hstray : ∀ {r : α} {rest : List α} {b : Outcome α}, Lexical.kind r = .rightBrace →
      rest = b.read → G b → G ((Outcome.strayBrace r rest).join b))
    {stage : Stage} {tokens : List α} (last : α) (hfits : stage.Fits tokens)
    (hcalm : Spot.calm stage tokens) :
    G (file.run maxDepth last tokens) ∧
      (file.run maxDepth last tokens).trees.map Tree.symbol
        ∈ (Pattern.repeated Pattern.statement).matches' := by
  induction hn : tokens.length using Nat.strongRecOn generalizing last stage tokens with
  | _ n ih =>
    cases tokens with
    | nil =>
      rw [file, run_many_stop (by rintro t ⟨⟩)]
      exact ⟨hidle last, Language.nil_mem_kstar _⟩
    | cons t ts =>
      have hsound : SoundAt maxDepth [] t topStatement := topStatement_soundAt (blocksSound maxDepth)
      obtain ⟨hruns, hread, -⟩ := hsound [] last ts (List.nil_subset _)
      have hlt := hruns.length_rest_lt hread
      obtain ⟨hfact, hmem, stage', hfits', hcalm'⟩ := topStatement_ends hF last hfits hcalm
      rw [file, run_many_step rfl hlt]
      generalize topStatement.run maxDepth last (t :: ts) = a at *
      obtain ⟨hrest, hsymbols⟩ := ih _ (hn ▸ hlt) a.last hfits' hcalm' rfl
      have hread := (read_file a.last a.rest).symm
      constructor
      · rcases hfact with hfact | ⟨r, rest, hr, rfl⟩
        · exact hstatement hread hfact hrest
        · exact hstray hr hread hrest
      · have hstar : (Pattern.statement * Pattern.repeated Pattern.statement).matches'
            ≤ (Pattern.repeated Pattern.statement).matches' := mul_kstar_le_kstar
        rw [Outcome.followedBy, Outcome.join, List.map_append]
        exact hstar (Language.append_mem_mul hmem hsymbols)

end Rule

end NginxConf
