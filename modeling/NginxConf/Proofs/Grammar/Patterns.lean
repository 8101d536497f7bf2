import Mathlib.Data.List.TakeWhile
import NginxConf.Proofs.Grammar.Yields

/-!
# Each rule builds what its pattern says

The grammar is gone through once with the triple of `Rule.Yields`. A statement begins where the
spot is calm: neither a parenthesis nor an operator comes next, nor a value in a condition. This is
so at the beginning of a text, and each statement, however broken, leaves the tokens at such a spot
again. The rules gone through here are those without blocks.
-/

namespace NginxConf

open RegularExpression

/-! ## Stages -/

namespace Stage

/-- Neither a parenthesis nor an operator can come at this stage. -/
def IsPlain (stage : Stage) : Prop := stage ≠ afterIf ∧ stage ≠ condition

/-- Values keep such a stage. -/
def KeepsValues (I : Stage → Prop) : Prop :=
  ∀ {stage stage' : Stage} {kind : TokenKind}, I stage → kind.isValue = true →
    stage.next kind = some stage' → I stage'

variable {stage stage' : Stage} {kind : TokenKind}

theorem isPlain_of_next (h : stage.next kind = some stage') (hif : kind ≠ .ifKeyword)
    (hparen : kind ≠ .leftParen) (hcondition : stage = .condition → kind.staysInCondition = false) :
    stage'.IsPlain := by
  cases stage <;> cases kind <;> first
    | cases h; done
    | exact absurd rfl hif
    | exact absurd rfl hparen
    | exact absurd (hcondition rfl) (by decide)
    | cases h; exact ⟨by decide, by decide⟩

theorem IsPlain.kind_not_mem (h : stage.IsPlain) (hnext : stage.next kind = some stage') :
    kind ∉ [.leftParen, .rightParen, .operator] := by
  intro hmem
  simp only [List.mem_cons, List.not_mem_nil, or_false] at hmem
  cases stage with
  | afterIf => exact h.1 rfl
  | condition => exact h.2 rfl
  | _ => rcases hmem with rfl | rfl | rfl <;> cases hnext

theorem keepsValues_isPlain : KeepsValues IsPlain := fun hstage hkind hnext =>
  isPlain_of_next hnext (by rintro rfl; cases hkind) (by rintro rfl; cases hkind)
    fun h => absurd h hstage.2

theorem keepsValues_condition : KeepsValues (· = condition) := by
  rintro _ stage' kind rfl hkind hnext
  cases kind <;> first | cases hkind; done | cases hnext; rfl

theorem keepsValues_afterLuaKeyword : KeepsValues (· = afterLuaKeyword) := by
  rintro _ stage' kind rfl hkind hnext
  cases kind <;> first | cases hkind; done | cases hnext; rfl

end Stage

variable {α : Type} [Lexical α]

/-- Any spot. -/
def Spot.any : Spot α := fun _ _ => True

/-- A statement can begin here: no parenthesis and no operator comes next, and where a condition has
not been finished, no value. -/
def Spot.calm : Spot α := fun stage rest => ∀ t ∈ rest.head?,
  Lexical.kind t ∉ [.leftParen, .rightParen, .operator] ∧
    (stage = .condition → (Lexical.kind t).isValue = false)

theorem Spot.calm_of_isPlain {stage : Stage} {rest : List α} (hfits : stage.Fits rest)
    (h : stage.IsPlain) : Spot.calm stage rest := by
  intro t ht
  obtain ⟨ts, rfl⟩ := List.head?_eq_some_iff.1 ht
  obtain ⟨-, stage', hnext, -⟩ := hfits
  exact ⟨h.kind_not_mem hnext, fun hstage => absurd hstage h.2⟩

/-- The first token of a statement, `if` apart, leads to a plain stage. -/
theorem Spot.calm.isPlain_of_next {stage stage' : Stage} {t : α} {ts : List α}
    (h : Spot.calm stage (t :: ts)) (hnext : stage.next (Lexical.kind t) = some stage')
    (hif : Lexical.kind t ≠ .ifKeyword) : stage'.IsPlain := by
  obtain ⟨hkind, hvalue⟩ := h t rfl
  simp only [List.mem_cons, List.not_mem_nil, or_false, not_or] at hkind
  refine Stage.isPlain_of_next hnext hif hkind.1 fun hstage => ?_
  rw [TokenKind.staysInCondition, hvalue hstage, Bool.false_or, beq_eq_false_iff_ne]
  exact hkind.2.2

namespace Rule

variable {F : Outcome α → Prop} (hF : Outcome.Closed F) {room : Nat} {I : Stage → Prop}

include hF

/-! ## Parts of statements -/

theorem value_yields (hI : Stage.KeepsValues I) {what : Missing} :
    Yields F room (Spot.on I) (value (α := α) what) (Pattern.optional Pattern.value) (Spot.on I) :=
  Yields.ifNext (Yields.advance hF ⟨rfl, rfl⟩ hI)
    ((Yields.lacking hF).of_post fun _ h => h.1)

theorem acceptValue_yields (hI : Stage.KeepsValues I) :
    Yields F room (Spot.on I) (accept (α := α) TokenKind.isValue)
      (Pattern.optional Pattern.value) (Spot.on I) :=
  Yields.ifNext (Yields.advance hF ⟨rfl, rfl⟩ hI)
    ((Yields.done hF).of_post fun _ h => h.1)

omit hF in
/-- Any number of tokens of the right kind. -/
theorem mem_repeated_tokens {p : TokenKind → Bool} {ts : List α}
    (h : ∀ t ∈ ts, p (Lexical.kind t) = true ∧ Lexical.kind t ≠ .endOfFile) :
    (ts.map Tree.leaf).map Tree.symbol ∈ (Pattern.repeated (Pattern.tokens p)).matches' := by
  induction ts with
  | nil => exact Language.nil_mem_kstar _
  | cons t ts ih =>
    have hturn : (Pattern.tokens p * Pattern.repeated (Pattern.tokens p)).matches'
        ≤ (Pattern.repeated (Pattern.tokens p)).matches' := mul_kstar_le_kstar
    obtain ⟨hp, hkind⟩ := h t List.mem_cons_self
    exact hturn (Language.append_mem_mul (Pattern.mem_tokens hp hkind)
      (ih fun u hu => h u (List.mem_cons_of_mem _ hu)))

omit hF in
/-- Behind the values that come next. -/
theorem exists_fits_dropWhile (hI : Stage.KeepsValues I) {stage : Stage} {rest : List α}
    (hfits : stage.Fits rest) (hstage : I stage) :
    ∃ stage' : Stage, stage'.Fits (rest.dropWhile fun t => (Lexical.kind t).isValue) ∧ I stage' := by
  induction rest generalizing stage with
  | nil => exact ⟨stage, hfits, hstage⟩
  | cons t ts ih =>
    by_cases ht : (Lexical.kind t).isValue = true
    · obtain ⟨-, stage', hnext, hmore⟩ := hfits
      rw [List.dropWhile_cons, if_pos ht]
      exact ih hmore (hI hstage ht hnext)
    · rw [List.dropWhile_cons, if_neg ht]
      exact ⟨stage, hfits, hstage⟩

theorem acceptValues_yields (hI : Stage.KeepsValues I) :
    Yields F room (Spot.on (α := α) I) (acceptAll TokenKind.isValue) (Pattern.repeated Pattern.value)
      (Spot.on I) := by
  intro last stage rest hfits hstage
  obtain ⟨htake, hdrop⟩ := take_length_takeWhile (fun t => (Lexical.kind t).isValue) rest
  have hvalue : ∀ t ∈ rest.takeWhile fun t => (Lexical.kind t).isValue,
      (Lexical.kind t).isValue = true :=
    fun t ht => List.mem_takeWhile_imp (p := fun t => (Lexical.kind t).isValue) ht
  rw [run_acceptAll]
  refine ⟨hF.reading fun t ht => ?_, ?_, ?_⟩
  · rw [htake] at ht
    have hvalue := hvalue t ht
    constructor <;> intro hkind <;> rw [hkind] at hvalue <;> cases hvalue
  · rw [Outcome.reading, htake]
    refine mem_repeated_tokens fun t ht => ⟨hvalue t ht, ?_⟩
    exact hfits.forall_ne_endOfFile t ((List.takeWhile_prefix _).subset ht)
  · rw [Outcome.reading, hdrop]
    exact exists_fits_dropWhile hI hfits hstage

theorem acceptValues_pos_yields (hI : Stage.KeepsValues I) :
    Yields F room ((Spot.on (α := α) I).before TokenKind.isValue) (acceptAll TokenKind.isValue)
      (Pattern.value * Pattern.repeated Pattern.value) (Spot.on I) := by
  rintro last stage _ hfits ⟨hstage, t, ts, rfl, ht⟩
  obtain ⟨hfact, hmem, hend⟩ := acceptValues_yields hF hI last stage _ hfits hstage
  refine ⟨hfact, ?_, hend⟩
  rw [matches'_star, ← Language.one_add_self_mul_kstar_eq_kstar] at hmem
  refine hmem.resolve_left fun h => ?_
  simp only [run_acceptAll, Outcome.reading, List.takeWhile_cons, ht, if_true, List.length_cons,
    List.take_succ_cons, List.map_cons] at h
  exact List.cons_ne_nil _ _ ((Language.mem_one _).1 h)

/-! ## Error nodes -/

section Error

omit hF

theorem oneOf_le_misfit {s : List Symbol}
    (h : s ⊆ [.token .semicolon, .token .rightBrace, .token .malformed, .token .luaCode,
      .node .block] ++ Symbol.statements ++ Symbol.errors) :
    (Pattern.oneOf s).matches' ≤ Pattern.misfit.matches' :=
  fun _ hw => .inl (.inl (Pattern.oneOf_mono h hw))

theorem raw_le_error :
    (Pattern.token .leftBrace * Pattern.repeated (Pattern.tokens fun _ => true)).matches'
      ≤ Pattern.error.matches' :=
  fun _ hw => .inl (.inl (.inr hw))

theorem arguments_le_misfit :
    (Pattern.value * (Pattern.repeated Pattern.value * Pattern.optional (.token .malformed))).matches'
      ≤ Pattern.misfit.matches' :=
  fun _ hw => .inl (.inr hw)

theorem values_le_misfit :
    (Pattern.value * Pattern.repeated Pattern.value).matches' ≤ Pattern.misfit.matches' := by
  refine le_trans ?_ arguments_le_misfit
  simp only [matches'_mul, ← mul_assoc, Pattern.optional, matches'_add, matches'_epsilon, mul_add,
    mul_one]
  exact le_add_self

theorem entries_le_misfit :
    (Pattern.oneOf Symbol.geoEntries * Pattern.repeated (Pattern.oneOf Symbol.geoEntries)).matches'
      ≤ Pattern.misfit.matches' :=
  fun _ hw => .inr hw

end Error

theorem extraValues_yields (hI : Stage.KeepsValues I) :
    Yields F room (Spot.on I) (extraValues (α := α)) Pattern.surplus (Spot.on I) :=
  Yields.ifNext
    (Yields.wrapError hF values_le_misfit
      (Yields.complainAcross hF rfl (acceptValues_pos_yields hF hI)))
    ((Yields.done hF).of_post fun _ h => h.1)

/-- The semicolon at the end of a statement, or what is done without one. -/
theorem acceptSemicolon_yields {no : Rule α}
    (hno : Yields F room (Spot.on Stage.IsPlain) no 1 (Spot.on Stage.IsPlain)) :
    Yields F room (Spot.on Stage.IsPlain) (ifNext (· == .semicolon) advance no)
      (Pattern.optional (.token .semicolon)) (Spot.on Stage.IsPlain) := by
  refine Yields.ifNext (Yields.advance hF ⟨rfl, rfl⟩ fun hplain hkind hnext => ?_)
    (hno.of_pre fun _ h => h.1)
  refine Stage.isPlain_of_next hnext ?_ ?_ fun h => absurd h hplain.2
  · intro h; rw [h] at hkind; cases hkind
  · intro h; rw [h] at hkind; cases hkind

theorem semicolon_yields :
    Yields F room (Spot.on Stage.IsPlain) (semicolon (α := α))
      (Pattern.surplus * Pattern.optional (.token .semicolon)) (Spot.on Stage.IsPlain) :=
  Yields.andThen hF (extraValues_yields hF Stage.keepsValues_isPlain)
    (acceptSemicolon_yields hF (Yields.lacking hF))

/-- The keyword of a statement. -/
theorem keyword_yields {kind : TokenKind} (hif : kind ≠ .ifKeyword)
    (hbraces : (kind == .leftBrace) = false ∧ (kind == .rightBrace) = false) :
    Yields F room (Spot.calm.before (α := α) (· == kind)) advance (.tokens (· == kind))
      (Spot.on Stage.IsPlain) :=
  Yields.advance hF (by simpa [Bool.beq_comm] using hbraces) fun hcalm hkind hnext =>
    hcalm.isPlain_of_next hnext (beq_iff_eq.1 hkind ▸ hif)

/-! ## Statements without blocks -/

theorem setStatement_yields :
    Yields F room (Spot.calm.before (α := α) (· == .setKeyword)) setStatement
      (.oneOf [.node .setStatement]) (Spot.on Stage.IsPlain) := by
  refine Yields.wrap hF rfl (by decide) (by decide) le_rfl
    (Yields.andThen hF (keyword_yields hF (by decide) ⟨rfl, rfl⟩) (Yields.andThen hF
      (Yields.ifNext (Yields.andThen hF ?_ (value_yields hF Stage.keepsValues_isPlain))
        ((Yields.lacking hF).of_post fun _ h => h.1)) (semicolon_yields hF)))
  refine Yields.advance hF ⟨rfl, rfl⟩ fun {_ _ t _} hplain hkind hnext => ?_
  refine Stage.keepsValues_isPlain hplain ?_ hnext
  cases h : Lexical.kind t <;> rw [h] at hkind <;> first | rfl | cases hkind

theorem includeStatement_yields :
    Yields F room (Spot.calm.before (α := α) (· == .includeKeyword)) includeStatement
      (.oneOf [.node .includeStatement]) (Spot.on Stage.IsPlain) :=
  Yields.wrap hF rfl (by decide) (by decide) le_rfl
    (Yields.andThen hF (keyword_yields hF (by decide) ⟨rfl, rfl⟩)
      (Yields.andThen hF (value_yields hF Stage.keepsValues_isPlain) (semicolon_yields hF)))

/-! ## Conditions -/

/-- An operator with what it is applied to. -/
theorem operation_yields :
    Yields F room ((Spot.on (α := α) (· = Stage.condition)).before (· == .operator))
      (advance ++ value .operand) Pattern.operation (Spot.on (· = Stage.condition)) := by
  refine Yields.andThen hF (Yields.advance hF ⟨rfl, rfl⟩ ?_)
    (value_yields hF Stage.keepsValues_condition)
  rintro _ stage' t ts rfl hkind hnext
  rw [beq_iff_eq.1 hkind] at hnext
  cases hnext
  rfl

theorem condition_yields :
    Yields F room ((Spot.on (α := α) (· = Stage.condition)).before startsCondition) condition
      (Pattern.oneOf [.node .condition]) (Spot.on (· = Stage.condition)) := by
  refine Yields.wrap hF rfl (by decide) (by decide) le_rfl (Yields.ifNext ?_ ?_)
  · exact (operation_yields hF).of_pre fun _ h => ⟨h.1.1, h.2⟩
  · have hvalue : Yields F room ((Spot.on (α := α) (· = Stage.condition)).before TokenKind.isValue)
        (advance ++ ifNext (· == .operator) (advance ++ value .operand) done)
        (.inOrder [.value, .optional .operation]) (Spot.on (· = Stage.condition)) :=
      Yields.andThen hF (Yields.advance hF ⟨rfl, rfl⟩ Stage.keepsValues_condition)
        (Yields.ifNext (operation_yields hF) ((Yields.done hF).of_post fun _ h => h.1))
    refine hvalue.of_pre ?_
    rintro stage _ - ⟨⟨hstage, t, ts, rfl, hstarts⟩, hoperator⟩
    have hoperator := hoperator t rfl
    rw [startsCondition, show (Lexical.kind t == .operator) = false from hoperator,
      Bool.or_false] at hstarts
    exact ⟨hstage, t, ts, rfl, hstarts⟩

theorem conditions_yields :
    Yields F room (Spot.on (α := α) (· = Stage.condition)) conditions
      (Pattern.repeated (Pattern.oneOf [.node .condition]))
      ((Spot.on (· = Stage.condition)).notBefore startsCondition) := by
  have hmany : Yields F room (Spot.on (α := α) (· = Stage.condition)) (many startsCondition condition)
      (Pattern.repeated (Pattern.oneOf [.node .condition]))
      ((Spot.on (· = Stage.condition)).notBefore startsCondition) :=
    Yields.many hF (fun _ _ => condition_soundAt) (condition_yields hF)
  refine (Yields.ifNext (Yields.andThen hF (condition_yields hF) (Yields.ifNext
    (Yields.complainAcross hF rfl (hmany.of_pre fun _ h => h.1)) (Yields.done hF)))
    (Yields.lacking hF)).of_le ?_
  simp only [matches'_add, matches'_mul, matches'_star, matches'_epsilon, mul_add, mul_one]
  exact add_le (add_le mul_kstar_le_kstar le_kstar) one_le_kstar

/-! ## Scripts -/

section Script

omit hF

variable {last t u r : α} {ts : List α}

theorem run_script_code (hu : Lexical.kind u = .luaCode) (hr : Lexical.kind r = .rightBrace) :
    script.run room last (t :: u :: r :: ts) = .reading 3 last (t :: u :: r :: ts) := by
  simp [script, scriptBody, closeScript, ifNext, hu, hr, Outcome.followedBy, Outcome.join,
    Outcome.reading]

theorem run_script_empty (hr : Lexical.kind r = .rightBrace) :
    script.run room last (t :: r :: ts) = .reading 2 last (t :: r :: ts) := by
  simp [script, scriptBody, closeScript, ifNext, hr, Outcome.followedBy, Outcome.join,
    Outcome.reading]

theorem run_script_cutOff (hu : Lexical.kind u = .malformed) :
    script.run room last [t, u] = .reading 2 last [t, u] := by
  simp [script, scriptBody, accept, ifNext, hu, Outcome.followedBy, Outcome.join, Outcome.reading,
    Outcome.idle]

end Script

theorem script_yields :
    Yields F room ((Spot.on (α := α) (· = Stage.afterLuaKeyword)).before (· == .leftBrace)) script
      (Pattern.inOrder [.token .leftBrace, .token .luaCode, .token .rightBrace]
        + Pattern.inOrder [.token .leftBrace, .token .rightBrace]
        + Pattern.inOrder [.token .leftBrace, .token .malformed])
      (Spot.on Stage.IsPlain) := by
  rintro last stage _ hfits ⟨hstage, t, ts, rfl, ht⟩
  obtain rfl : stage = .afterLuaKeyword := hstage
  obtain ⟨-, stage', hnext, hmore⟩ := hfits
  have ht : Lexical.kind t = .leftBrace := beq_iff_eq.1 ht
  rw [ht] at hnext
  cases hnext
  have hplain : Stage.normal.IsPlain := ⟨by decide, by decide⟩
  cases hmore.scriptBody with
  | @code u r ts hu hr hfits =>
    rw [run_script_code hu hr]
    refine ⟨hF.script (.code ht hu hr) ?_, .inl (.inl ?_), .normal, hfits, hplain⟩
    · constructor <;> simp [matchBraces, Braces.step, Braces.none, ht, hu, hr]
    · show [(Tree.leaf t).symbol, (Tree.leaf u).symbol, (Tree.leaf r).symbol] ∈ _
      rw [Tree.symbol, Tree.symbol, Tree.symbol, ht, hu, hr]
      exact (rmatch_iff_matches' _ _).1 (by decide)
  | @empty r ts hr hfits =>
    rw [run_script_empty hr]
    refine ⟨hF.script (.empty ht hr) ?_, .inl (.inr ?_), .normal, hfits, hplain⟩
    · constructor <;> simp [matchBraces, Braces.step, Braces.none, ht, hr]
    · show [(Tree.leaf t).symbol, (Tree.leaf r).symbol] ∈ _
      rw [Tree.symbol, Tree.symbol, ht, hr]
      exact (rmatch_iff_matches' _ _).1 (by decide)
  | @cutOff u hu hfault =>
    rw [run_script_cutOff hu]
    refine ⟨hF.script (.cutOff ht hu hfault) ?_, .inr ?_, .finished, rfl, ⟨by decide, by decide⟩⟩
    · constructor <;> simp [matchBraces, Braces.step, Braces.none, ht, hu]
    · show [(Tree.leaf t).symbol, (Tree.leaf u).symbol] ∈ _
      rw [Tree.symbol, Tree.symbol, ht, hu]
      exact (rmatch_iff_matches' _ _).1 (by decide)

/-- What follows the arguments of a script. -/
theorem scriptEnd_yields {problem : Problem} (hproblem : problem.isBrace = false) :
    Yields F room (Spot.on (α := α) (· = Stage.afterLuaKeyword))
      (ifNext (· == .leftBrace) script (complain problem ++ accept (· == .semicolon)))
      Pattern.script (Spot.on Stage.IsPlain) := by
  have haccept : Yields F room (Spot.on (α := α) (· = Stage.afterLuaKeyword))
      (complain problem ++ accept (· == .semicolon)) (1 * Pattern.optional (.token .semicolon))
      (Spot.on Stage.IsPlain) := by
    refine (Yields.andThen hF (Yields.complain hF hproblem)
      (acceptSemicolon_yields hF (Yields.done hF))).of_pre ?_
    rintro stage rest - rfl
    exact ⟨by decide, by decide⟩
  refine (Yields.ifNext (script_yields hF) (haccept.of_pre fun _ h => h.1)).of_le ?_
  simp only [Pattern.script, matches'_add, matches'_mul, matches'_epsilon, one_mul, le_refl]

/-- The keyword of a script. -/
theorem luaKeyword_yields :
    Yields F room (Spot.calm.before (α := α) (· == .luaKeyword)) advance
      (Pattern.token .luaKeyword) (Spot.on (· = Stage.afterLuaKeyword)) := by
  refine Yields.advance hF ⟨rfl, rfl⟩ fun {stage _ t _} hcalm hkind hnext => ?_
  rw [beq_iff_eq.1 hkind] at hnext
  cases stage <;> cases hnext <;> rfl

omit hF in
/-- The pattern of a script: only `set_by_lua_block` has an argument. -/
theorem pattern_of_isLua {kind : NodeKind} (h : kind.isLua = true) :
    kind.pattern "" = Pattern.inOrder (if kind = .setLua
      then [.token .luaKeyword, .optional .value, .surplus, .script]
      else [.token .luaKeyword, .surplus, .script]) := by
  cases kind <;> first | cases h; done | rfl

omit hF in
theorem mem_scripts_of_isLua {kind : NodeKind} (h : kind.isLua = true) :
    .node kind ∈ Symbol.scripts := by
  cases kind <;> first | cases h; done | decide

theorem luaStatement_yields :
    Yields F room (Spot.calm.before (α := α) (· == .luaKeyword)) luaStatement
      (Pattern.oneOf Symbol.scripts) (Spot.on Stage.IsPlain) := by
  refine Yields.withNext fun keyword hkeyword => ?_
  have hblock := isBlock_luaKind keyword
  have hlua : (luaKind keyword).isLua = true := NodeKind.isLua_ofLuaKeyword _
  have hadvance := (luaKeyword_yields hF : Yields F room _ _ _ _).of_head hkeyword
  have hscript : (Problem.scriptWithoutBlock (Lexical.text keyword)).isBrace = false := rfl
  have hrest := Yields.andThen hF
    (extraValues_yields hF Stage.keepsValues_afterLuaKeyword : Yields F room _ _ _ _)
    (scriptEnd_yields hF hscript)
  generalize luaKind keyword = kind at hlua hblock
  have hnode := Pattern.oneOf_mono (List.cons_subset.2 ⟨mem_scripts_of_isLua hlua, List.nil_subset _⟩)
  have herror : kind ≠ .error := by rintro rfl; cases hlua
  have hproxy : kind ≠ .geoProxy := by rintro rfl; cases hlua
  by_cases hset : kind = .setLua
  · refine (Yields.wrap hF hblock herror hproxy ?_ (Yields.andThen hF hadvance (Yields.andThen hF
      (?_ : Yields F room _ _ (Pattern.optional .value) _) hrest))).of_le hnode
    · rw [pattern_of_isLua hlua, if_pos hset]
      exact le_rfl
    · rw [if_pos hset]
      exact value_yields hF Stage.keepsValues_afterLuaKeyword
  · refine (Yields.wrap hF hblock herror hproxy ?_ (Yields.andThen hF hadvance (Yields.andThen hF
      (?_ : Yields F room _ _ 1 _) hrest))).of_le hnode
    · rw [pattern_of_isLua hlua, if_neg hset]
      simp only [Pattern.inOrder, matches'_mul, matches'_epsilon, one_mul, le_refl]
    · rw [if_neg hset]
      exact Yields.done hF

/-! ## Entries of geo blocks -/

theorem geoOperand_yields {strict : Bool} {what : Missing} :
    Yields F room (Spot.on (α := α) Stage.IsPlain) (geoOperand strict what)
      (Pattern.optional Pattern.value) (Spot.on Stage.IsPlain) := by
  cases strict with
  | true => exact value_yields hF Stage.keepsValues_isPlain
  | false => exact acceptValue_yields hF Stage.keepsValues_isPlain

/-- A value with which a statement begins. -/
theorem firstValue_yields :
    Yields F room (Spot.calm.before (α := α) TokenKind.isValue) advance Pattern.value
      (Spot.on Stage.IsPlain) :=
  Yields.advance hF ⟨rfl, rfl⟩ fun hcalm hkind hnext =>
    hcalm.isPlain_of_next hnext fun h => by rw [h] at hkind; cases hkind

section Entry

variable {first : α} {kind : NodeKind} {strict : Bool} {what : Missing}

omit hF in
theorem kind_of_geoKeyword {keyword : String} (h : geoKeyword first = keyword)
    (hne : keyword ≠ "") : Lexical.kind first = .word := by
  rw [geoKeyword] at h
  split at h
  · assumption
  · exact absurd h.symm hne

omit hF in
/-- What is read first tells the pattern of an entry. -/
theorem keyword_run {last : α} {rest : List α} (h : rest.head? = some first) :
    Tree.keyword (advance.run room last rest).trees = geoKeyword first ∧
      ∀ rule, Tree.keyword ((advance ++ rule).run room last rest).trees = geoKeyword first := by
  obtain ⟨ts, rfl⟩ := List.head?_eq_some_iff.1 h
  exact ⟨rfl, fun _ => rfl⟩

/-- The first token of an entry, of a kind that is known. -/
theorem entryKeyword_yields {k : TokenKind} (hfirst : Lexical.kind first = k)
    (hif : k ≠ .ifKeyword) (hbraces : (k == .leftBrace) = false ∧ (k == .rightBrace) = false) :
    Yields F room (fun stage rest => Spot.calm stage rest ∧ rest.head? = some first) advance
      (.tokens (· == k)) (Spot.on Stage.IsPlain) :=
  (keyword_yields hF hif hbraces).of_head (beq_iff_eq.2 hfirst)

/-- An entry that is a keyword with its operand. -/
theorem entryOf_yields {k : TokenKind} (hfirst : Lexical.kind first = k) (hif : k ≠ .ifKeyword)
    (hbraces : (k == .leftBrace) = false ∧ (k == .rightBrace) = false)
    (hkind : kind ∈ [.geoDefault, .geoDelete, .geoInclude])
    (hpattern : (Pattern.tokens (· == k) * Pattern.optional .value).matches'
      ≤ (kind.pattern "").matches') :
    Yields F room (fun stage rest => Spot.calm stage rest ∧ rest.head? = some first)
      (wrap kind (advance ++ geoOperand strict what)) (Pattern.oneOf Symbol.geoEntries)
      (Spot.on Stage.IsPlain) := by
  have hoperand : Yields F room (Spot.on Stage.IsPlain) (geoOperand strict what) _ _ :=
    geoOperand_yields hF
  have hrule := Yields.andThen hF (entryKeyword_yields hF hfirst hif hbraces) hoperand
  simp only [List.mem_cons, List.not_mem_nil, or_false] at hkind
  rcases hkind with rfl | rfl | rfl <;>
    exact (Yields.wrap hF rfl (by decide) (by decide) hpattern hrule).of_le
      (Pattern.oneOf_mono (by decide))

theorem geoEntry_yields :
    Yields F room (Spot.calm.before (α := α) startsGeoEntry) (geoEntry strict)
      (Pattern.oneOf Symbol.geoEntries) (Spot.on Stage.IsPlain) := by
  refine Yields.withNext fun first hfirst => ?_
  have proxy {rule : Rule α} {P : Pattern}
      (hkeyword : ∀ {last : α} {rest : List α}, rest.head? = some first →
        P.matches' ≤ (NodeKind.geoProxy.pattern
          (Tree.keyword (rule.run room last rest).trees)).matches')
      (h : Yields F room (fun stage rest => Spot.calm stage rest ∧ rest.head? = some first) rule P
        (Spot.on Stage.IsPlain)) :
      Yields F room (fun stage rest => Spot.calm stage rest ∧ rest.head? = some first)
        (wrap .geoProxy rule) (Pattern.oneOf Symbol.geoEntries) (Spot.on Stage.IsPlain) :=
    Yields.wrapped hF rfl (fun hpre => hkeyword hpre.2) (by rintro ⟨⟩)
      (fun ts => Pattern.mem_oneOf.2 ⟨_, by simp [Tree.symbol, Symbol.geoEntries], rfl⟩) h
  split
  · next hkind =>
    exact entryOf_yields hF hkind (by decide) ⟨rfl, rfl⟩ (by decide) le_rfl
  split
  · next hkeyword =>
    exact entryOf_yields hF (kind_of_geoKeyword hkeyword (by decide)) (by decide) ⟨rfl, rfl⟩
      (by decide) le_rfl
  split
  · next hkeyword =>
    exact entryOf_yields hF (kind_of_geoKeyword hkeyword (by decide)) (by decide) ⟨rfl, rfl⟩
      (by decide) le_rfl
  split
  · next hkeyword =>
    have hword := kind_of_geoKeyword hkeyword (by decide)
    refine proxy (fun hhead => ?_) (Yields.andThen hF
      (entryKeyword_yields hF hword (by decide) ⟨rfl, rfl⟩) (geoOperand_yields hF))
    rw [(keyword_run hhead).2, hkeyword, NodeKind.pattern, if_neg (by decide)]
    exact le_rfl
  split
  · next hkeyword =>
    have hword := kind_of_geoKeyword hkeyword (by decide)
    refine proxy (fun hhead => ?_) (entryKeyword_yields hF hword (by decide) ⟨rfl, rfl⟩)
    rw [(keyword_run hhead).1, hkeyword, NodeKind.pattern, if_pos rfl]
    exact le_rfl
  split
  · next hkeyword =>
    exact (Yields.wrap hF rfl (by decide) (by decide) le_rfl (entryKeyword_yields hF
      (kind_of_geoKeyword hkeyword (by decide)) (by decide) ⟨rfl, rfl⟩)).of_le
      (Pattern.oneOf_mono (by decide))
  · next hinclude _ _ _ _ _ =>
    have hvalue : (Lexical.kind first).isValue = true := by
      rw [startsGeoEntry, Bool.or_eq_true, beq_iff_eq] at hfirst
      exact hfirst.resolve_right hinclude
    exact (Yields.wrap hF rfl (by decide) (by decide) le_rfl (Yields.andThen hF
      ((firstValue_yields hF).of_head hvalue) (geoOperand_yields hF))).of_le
      (Pattern.oneOf_mono (by decide))

end Entry

theorem wholeGeoItem_yields :
    Yields F room (Spot.calm.before (α := α) startsGeoEntry) wholeGeoItem
      (Pattern.oneOf [.node .geoItem]) (Spot.on Stage.IsPlain) := by
  have hentries : Yields F room ((Spot.on (α := α) Stage.IsPlain).before startsGeoEntry)
      (many startsGeoEntry (geoEntry false))
      (Pattern.oneOf Symbol.geoEntries * Pattern.repeated (Pattern.oneOf Symbol.geoEntries))
      (Spot.on Stage.IsPlain) := by
    refine (Yields.many_pos hF (fun _ _ => geoEntry_soundAt) ?_).of_post fun _ h => h.1
    exact (geoEntry_yields hF).of_pre fun hfits h => ⟨Spot.calm_of_isPlain hfits h.1, h.2⟩
  exact Yields.wrap hF rfl (by decide) (by decide) le_rfl (Yields.andThen hF (geoEntry_yields hF)
    (Yields.andThen hF (Yields.ifNext
      (Yields.wrapError hF entries_le_misfit (Yields.complainAcross hF rfl hentries))
      ((Yields.done hF).of_post fun _ h => h.1))
      (acceptSemicolon_yields hF (Yields.lacking hF))))

/-! ## Parentheses -/

/-- The keyword of a condition. In the arguments of a script no condition follows it. -/
theorem ifKeyword_yields :
    Yields F room (Spot.calm.before (α := α) (· == .ifKeyword)) advance
      (Pattern.token .ifKeyword) (Spot.on fun stage => stage = .afterIf ∨ stage = .afterLuaKeyword) := by
  refine Yields.advance hF ⟨rfl, rfl⟩ fun {stage _ t _} hcalm hkind hnext => ?_
  rw [beq_iff_eq.1 hkind] at hnext
  cases stage <;> cases hnext <;> first | exact .inl rfl | exact .inr rfl

theorem leftParen_yields :
    Yields F room ((Spot.on (α := α) fun stage =>
        stage = .afterIf ∨ stage = .afterLuaKeyword).before (· == .leftParen)) advance
      (Pattern.token .leftParen) (Spot.on (· = Stage.condition)) := by
  refine Yields.advance hF ⟨rfl, rfl⟩ fun {stage _ t _} hstage hkind hnext => ?_
  rw [beq_iff_eq.1 hkind] at hnext
  rcases hstage with rfl | rfl <;> cases hnext
  rfl

theorem rightParen_yields :
    Yields F room (((Spot.on (α := α) (· = Stage.condition)).notBefore startsCondition).before
        (· == .rightParen)) advance
      (Pattern.token .rightParen) (Spot.on Stage.IsPlain) := by
  refine Yields.advance hF ⟨rfl, rfl⟩ fun {stage _ t _} hstage hkind hnext => ?_
  rw [beq_iff_eq.1 hkind] at hnext
  obtain ⟨rfl, -⟩ := hstage
  cases hnext
  exact ⟨by decide, by decide⟩

omit hF in
/-- After `if` without a parenthesis. -/
theorem calm_afterIf {stage : Stage} {rest : List α} (hfits : stage.Fits rest)
    (h : (Spot.on fun stage => stage = .afterIf ∨ stage = .afterLuaKeyword).notBefore
      (· == .leftParen) stage rest) : Spot.calm stage rest := by
  intro t ht
  obtain ⟨hstage, hnext⟩ := h
  have hparen : (Lexical.kind t == .leftParen) = false := hnext t ht
  clear hnext
  obtain ⟨ts, rfl⟩ := List.head?_eq_some_iff.1 ht
  obtain ⟨-, stage', hnext, -⟩ := hfits
  cases hkind : Lexical.kind t <;> rw [hkind] at hnext hparen <;> rcases hstage with rfl | rfl <;>
    first | cases hnext; done | cases hparen; done | exact ⟨by decide, by decide⟩

omit hF in
/-- In a condition, where it does not go on and is not closed. -/
theorem calm_condition {stage : Stage} {rest : List α} (hfits : stage.Fits rest)
    (h : ((Spot.on (· = Stage.condition)).notBefore startsCondition).notBefore
      (· == .rightParen) stage rest) : Spot.calm stage rest := by
  intro t ht
  obtain ⟨⟨hstage, hnext⟩, hnext'⟩ := h
  have hstarts := hnext t ht
  have hparen : (Lexical.kind t == .rightParen) = false := hnext' t ht
  clear hnext hnext'
  obtain ⟨ts, rfl⟩ := List.head?_eq_some_iff.1 ht
  obtain ⟨-, stage', hnext, -⟩ := hfits
  obtain rfl : stage = .condition := hstage
  cases hkind : Lexical.kind t <;> rw [hkind] at hnext hparen hstarts <;>
    first | cases hnext; done | cases hparen; done | cases hstarts; done | exact ⟨by decide, by decide⟩

end Rule

end NginxConf
