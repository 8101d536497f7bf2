import NginxConf.Proofs.Grammar.Lookahead
import NginxConf.Proofs.Grammar.Origin
import NginxConf.Proofs.Grammar.Recognize
import NginxConf.Proofs.Tree.Whole

/-!
# What is built without errors is whole

Where a rule finds no error, what it builds matches a pattern with nothing missing and nothing too
much (`Rule.Forms`), and so do the children of each node in it. A part of a rule that always reports
an error forms whatever is asked for, so only the paths without errors have to be followed. All nodes
of a file without errors are whole (`Outcome.forms_file`).
-/

namespace NginxConf

open RegularExpression Pattern

variable {α : Type} [Lexical α]

/-! ## Outcomes -/

namespace Outcome

/-- Where no error is found, what is built matches the pattern, and the nodes in it are whole. -/
def Forms (P : Pattern) (a : Outcome α) : Prop :=
  a.Clean → a.trees.map Tree.symbol ∈ P.matches' ∧ ∀ m ∈ Tree.forestSubnodes a.trees, m.IsWhole

variable {P Q : Pattern} {a b : Outcome α}

theorem Forms.mono (h : a.Forms P) (hle : P.matches' ≤ Q.matches') : a.Forms Q :=
  fun hclean => ⟨hle (h hclean).1, (h hclean).2⟩

theorem Forms.join (ha : a.Forms P) (hb : b.Forms Q) : (a.join b).Forms (P * Q) := by
  intro hclean
  obtain ⟨hfirst, hsecond⟩ := clean_join.1 hclean
  rw [Outcome.join, List.map_append, Tree.forestSubnodes_append]
  exact ⟨Language.append_mem_mul (ha hfirst).1 (hb hsecond).1,
    List.forall_mem_append.2 ⟨(ha hfirst).2, (hb hsecond).2⟩⟩

/-- A node that is built without errors is whole. -/
theorem Forms.wrapped {kind : NodeKind} (hkind : kind ≠ .error)
    (ha : a.Forms (kind.wholePattern (Tree.keyword a.trees))) :
    (a.wrapped kind).Forms (oneOf [.node kind]) := by
  intro hclean
  obtain ⟨hmatch, hnodes⟩ := ha (clean_wrapped.1 hclean)
  rw [Outcome.wrapped, Tree.forestSubnodes_node]
  exact ⟨Tree.symbol_node hkind _, List.forall_mem_cons.2 ⟨hmatch, hnodes⟩⟩

/-- Where only tokens have been read. -/
theorem forms_reading {n : Nat} {last : α} {rest : List α}
    (h : (reading n last rest).Clean →
      ((rest.take n).map Tree.leaf).map Tree.symbol ∈ P.matches') :
    (reading n last rest).Forms P := by
  refine fun hclean => ⟨h hclean, ?_⟩
  rw [reading, Tree.forestSubnodes_leaves]
  exact fun _ hm => absurd hm List.not_mem_nil

theorem forms_idle (last : α) (rest : List α) : (idle last rest).Forms 1 :=
  forms_reading (n := 0) fun _ => rfl

theorem forms_issue {i : Issue α} {last : α} {rest : List α} : Forms 1 ⟨[], [i], last, rest⟩ :=
  fun _ => ⟨rfl, fun _ hm => absurd hm List.not_mem_nil⟩

end Outcome

/-! ## Ways to combine rules -/

namespace Rule

/-- Where the rule finds no error, what it builds matches the pattern. -/
def Forms (room : Nat) (rule : Rule α) (P : Pattern) : Prop :=
  ∀ last rest, (rule.run room last rest).Forms P

/-- The same where the token comes next. -/
def FormsAt (room : Nat) (t : α) (rule : Rule α) (P : Pattern) : Prop :=
  ∀ last ts, (rule.run room last (t :: ts)).Forms P

/-- The rule always finds an error. -/
def Fails (room : Nat) (rule : Rule α) : Prop := ∀ last rest, ¬ (rule.run room last rest).Clean

/-- The same where the token comes next. -/
def FailsAt (room : Nat) (t : α) (rule : Rule α) : Prop :=
  ∀ last ts, ¬ (rule.run room last (t :: ts)).Clean

variable {room : Nat} {t : α} {first second rule yes no : Rule α} {P Q : Pattern}
variable {problem : Problem} {p : TokenKind → Bool}

theorem Fails.forms (h : Fails room rule) : Forms room rule P :=
  fun last rest hclean => absurd hclean (h last rest)

theorem FailsAt.forms (h : FailsAt room t rule) : FormsAt room t rule P :=
  fun last ts hclean => absurd hclean (h last ts)

theorem FailsAt.wrap {kind : NodeKind} (h : FailsAt room t rule) : FailsAt room t (.wrap kind rule) := h

theorem Fails.append_left (h : Fails room first) : Fails room (first ++ second) :=
  fun last rest hclean => h last rest (Outcome.clean_join.1 hclean).1

theorem Fails.append_right (h : Fails room second) : Fails room (first ++ second) :=
  fun _ _ hclean => h _ _ (Outcome.clean_join.1 hclean).2

section Issues

variable (h : problem.isWarning = false)

include h

omit [Lexical α] in
theorem not_clean_issue {place : Place α} {last : α} {rest : List α} :
    ¬ Outcome.Clean ⟨[], [⟨problem, place⟩], last, rest⟩ :=
  fun hclean => Bool.false_ne_true (h.symm.trans (hclean _ List.mem_cons_self))

theorem complain_fails : Fails (α := α) room (.complain problem) := fun _ _ => not_clean_issue h

theorem complainSince_fails : Fails room (.complainSince t problem) := fun _ _ => not_clean_issue h

theorem complainAt_fails : Fails room (.complainAt t problem) := fun _ _ => not_clean_issue h

theorem complainAcross_failsAt : FailsAt room t (complainAcross problem rule) :=
  fun last ts => (complainSince_fails h).append_right last (t :: ts)

theorem rejected_failsAt {u : α} {kind : NodeKind} :
    FailsAt room t (.wrap kind (.complainAt u problem ++ rule)) :=
  fun last ts => (complainAt_fails h).append_left last (t :: ts)

theorem reject_failsAt : FailsAt room t (reject problem) := rejected_failsAt h

end Issues

theorem lacking_fails {what : Missing} : Fails (α := α) room (lacking what) := complain_fails rfl

namespace Forms

theorem mono (h : Forms room rule P) (hle : P.matches' ≤ Q.matches') : Forms room rule Q :=
  fun last rest => (h last rest).mono hle

theorem done : Forms (α := α) room .done 1 := Outcome.forms_idle

theorem andThen (ha : Forms room first P) (hb : Forms room second Q) :
    Forms room (first ++ second) (P * Q) :=
  fun last rest => (ha last rest).join (hb _ _)

/-- A rule after one that reads nothing. -/
theorem skip (ha : Forms room first 1) (hb : Forms room second P) :
    Forms room (first ++ second) P :=
  (ha.andThen hb).mono (one_mul P.matches').le

theorem ifNextAt (hy : ∀ t, p (Lexical.kind t) = true → FormsAt room t yes P)
    (hn : Forms room no P) : Forms room (ifNext p yes no) P :=
  forall_ifNext (fun t last ts hp => hy t hp last ts) hn

theorem many (h : ∀ t, p (Lexical.kind t) = true → FormsAt room t rule P) :
    Forms room (.many p rule) (repeated P) := by
  refine forall_many (fun last rest => (Outcome.forms_idle last rest).mono ?_)
    (fun a b ha hb => (ha.join hb).mono ?_) fun t last ts hp => (h t hp last ts).mono ?_
  · exact one_le_kstar
  · exact (kstar_mul_kstar P.matches').le
  · exact le_kstar

end Forms

namespace FormsAt

theorem mono (h : FormsAt room t rule P) (hle : P.matches' ≤ Q.matches') : FormsAt room t rule Q :=
  fun last ts => (h last ts).mono hle

theorem andThen (ha : FormsAt room t first P) (hb : Forms room second Q) :
    FormsAt room t (first ++ second) (P * Q) :=
  fun last ts => (ha last ts).join (hb _ _)

theorem wrap {kind : NodeKind} (hkind : kind ≠ .error)
    (h : ∀ keyword, FormsAt room t rule (kind.wholePattern keyword)) :
    FormsAt room t (.wrap kind rule) (oneOf [.node kind]) :=
  fun last ts => Outcome.Forms.wrapped hkind (h _ last ts)

end FormsAt

/-! ## Tokens -/

theorem advance_formsAt (h : [.token (Lexical.kind t)] ∈ P.matches') : FormsAt room t .advance P :=
  fun _ _ => Outcome.forms_reading fun _ => h

/-- A token of the kind that is needed. -/
theorem advance_formsAt_token {kind : TokenKind} (h : Lexical.kind t = kind) :
    FormsAt room t .advance (token kind) :=
  advance_formsAt (mem_token.2 (by rw [h]))

theorem advance_formsAt_value (h : (Lexical.kind t).isValue = true) :
    FormsAt room t .advance Pattern.value :=
  advance_formsAt (mem_value.2 ⟨_, h, rfl⟩)

/-- A token that must be there. -/
theorem demand_forms {kind : TokenKind} (hn : Fails room no) :
    Forms room (ifNext (· == kind) advance no) (token kind) :=
  Forms.ifNextAt (fun _ hp => advance_formsAt_token (beq_iff_eq.1 hp)) hn.forms

theorem value_forms {what : Missing} : Forms (α := α) room (value what) Pattern.value :=
  Forms.ifNextAt (fun _ hp => advance_formsAt_value hp) lacking_fails.forms

/-- A rule that is followed only where it can be. -/
theorem Forms.optional (hy : ∀ t, p (Lexical.kind t) = true → FormsAt room t yes P) :
    Forms room (ifNext p yes .done) (optional P) :=
  Forms.ifNextAt (fun t hp => (hy t hp).mono fun _ hw => mem_optional.2 (.inl hw))
    (Forms.done.mono fun _ hw => mem_optional.2 (.inr hw))

theorem extraValues_forms : Forms (α := α) room extraValues 1 :=
  Forms.ifNextAt (fun _ _ => FailsAt.forms (complainAcross_failsAt rfl)) Forms.done

theorem semicolon_forms : Forms (α := α) room semicolon (token .semicolon) :=
  extraValues_forms.skip (demand_forms lacking_fails)

/-! ## Statements without blocks -/

theorem setStatement_formsAt (h : Lexical.kind t = .setKeyword) :
    FormsAt room t setStatement (oneOf [.node .setStatement]) := by
  refine FormsAt.wrap (by decide) fun _ => (advance_formsAt_token h).andThen
    (Forms.andThen ?_ semicolon_forms)
  refine Forms.ifNextAt (fun t hp => (advance_formsAt ?_).andThen value_forms) lacking_fails.forms
  exact mem_tokens hp fun hend => by rw [hend] at hp; cases hp

theorem includeStatement_formsAt (h : Lexical.kind t = .includeKeyword) :
    FormsAt room t includeStatement (oneOf [.node .includeStatement]) :=
  FormsAt.wrap (by decide) fun _ => (advance_formsAt_token h).andThen
    (value_forms.andThen semicolon_forms)

theorem operation_formsAt (h : Lexical.kind t = .operator) :
    FormsAt room t (advance ++ Rule.value .operand) wholeOperation :=
  (advance_formsAt_token h).andThen value_forms

theorem condition_formsAt (h : startsCondition (Lexical.kind t) = true) :
    FormsAt room t condition (oneOf [.node .condition]) := by
  refine FormsAt.wrap (by decide) fun _ last ts => ?_
  rw [run_ifNext_cons]
  by_cases hoperator : Lexical.kind t = .operator
  · rw [if_pos (beq_iff_eq.2 hoperator)]
    exact (operation_formsAt hoperator last ts).mono fun _ hw => .inl hw
  · rw [if_neg (by simpa using hoperator)]
    rw [startsCondition, beq_false_of_ne hoperator, Bool.or_false] at h
    refine Outcome.Forms.mono (FormsAt.andThen (advance_formsAt_value h) (Forms.optional fun _ hp =>
      operation_formsAt (beq_iff_eq.1 hp)) last ts) fun _ hw => .inr hw

/-- Conditions after the first one are reported, but that is no error. -/
theorem conditions_forms : Forms (α := α) room conditions
    (inOrder [oneOf [.node .condition], repeated (oneOf [.node .condition])]) := by
  refine Forms.ifNextAt (fun t hp => (condition_formsAt hp).andThen ?_) lacking_fails.forms
  refine Forms.ifNextAt (fun t hp last ts => ?_) (Forms.done.mono one_le_kstar)
  -- the report of too many conditions is a warning, and builds nothing
  have hmore : Forms room (.many startsCondition condition) (repeated (oneOf [.node .condition])) :=
    Forms.many fun _ hp => condition_formsAt (α := α) hp
  exact ((hmore last (t :: ts)).join Outcome.forms_issue).mono (mul_one (matches' _)).le

/-! ## Scripts -/

theorem closeScript_forms (brace : α) : Forms room (closeScript brace) (token .rightBrace) :=
  demand_forms (complainAt_fails rfl)

section Faults

variable [LawfulLexical α]

/-- Reading a malformed token is an error. -/
theorem advance_failsAt (h : Lexical.kind t = .malformed) : FailsAt room t .advance :=
  fun last _ hclean => (clean_reading 1 last).1 hclean t List.mem_cons_self h

theorem scriptBody_forms (brace last : α) (rest : List α) :
    ((scriptBody brace (rest.head?.map Lexical.kind)).run room last rest).Forms
      (inOrder [optional (token .luaCode), token .rightBrace]) := by
  have hempty : ((closeScript brace).run room last rest).Forms
      (inOrder [optional (token .luaCode), token .rightBrace]) :=
    (closeScript_forms brace last rest).mono fun w hw =>
      Language.mem_mul.2 ⟨[], mem_optional.2 (.inr rfl), w, hw, rfl⟩
  cases rest with
  | nil => exact hempty
  | cons t ts =>
    rw [List.head?_cons, Option.map_some]
    unfold scriptBody
    split
    · next hk =>
      exact fun hclean => absurd (Outcome.clean_join.1 hclean).1
        (advance_failsAt (Option.some.inj hk) last ts)
    · next hk =>
      refine FormsAt.andThen ?_ (closeScript_forms brace) last ts
      exact (advance_formsAt_token (Option.some.inj hk)).mono fun _ hw => mem_optional.2 (.inl hw)
    · exact hempty

theorem script_formsAt (h : Lexical.kind t = .leftBrace) : FormsAt room t script wholeScript :=
  FormsAt.andThen (advance_formsAt_token h) (scriptBody_forms t)

theorem wholePattern_of_isLua {kind : NodeKind} (h : kind.isLua = true) (keyword : String) :
    kind.wholePattern keyword = inOrder (if kind = .setLua
      then [token .luaKeyword, .value, wholeScript] else [token .luaKeyword, wholeScript]) := by
  cases kind <;> first | cases h; done | rfl

theorem luaFrom_formsAt (h : Lexical.kind t = .luaKeyword) :
    FormsAt room t (luaFrom t) (oneOf Symbol.scripts) := by
  have hlua : (luaKind t).isLua = true := NodeKind.isLua_ofLuaKeyword _
  have hscript : Forms room (ifNext (· == .leftBrace) script
      (complain (.scriptWithoutBlock (Lexical.text t)) ++ accept (· == .semicolon))) wholeScript :=
    Forms.ifNextAt (fun _ hp => script_formsAt (beq_iff_eq.1 hp))
      (Fails.forms (Fails.append_left (complain_fails (α := α) rfl)))
  have hkeyword : FormsAt room t .advance (token .luaKeyword) := advance_formsAt_token h
  unfold luaFrom
  generalize luaKind t = kind at hlua
  refine (FormsAt.wrap (by rintro rfl; cases hlua) fun keyword => ?_).mono
    (oneOf_mono (List.cons_subset.2 ⟨mem_scripts_of_isLua hlua, List.nil_subset _⟩))
  rw [wholePattern_of_isLua hlua]
  split
  · exact hkeyword.andThen (value_forms.andThen (extraValues_forms.skip hscript))
  · exact hkeyword.andThen (Forms.skip Forms.done (extraValues_forms.skip hscript))

end Faults

/-! ## Entries of a geo block -/

/-- An entry of a geo block says what its first word tells. -/
theorem entry_formsAt {kind : NodeKind} (hkind : .node kind ∈ Symbol.geoEntries)
    (hfirst : ∀ last ts, Tree.keyword (rule.run room last (t :: ts)).trees = geoKeyword t)
    (h : FormsAt room t rule (kind.wholePattern (geoKeyword t))) :
    FormsAt room t (.wrap kind rule) (oneOf Symbol.geoEntries) := by
  intro last ts
  rw [run_wrap]
  refine (Outcome.Forms.wrapped ?_ ?_).mono
    (oneOf_mono (List.cons_subset.2 ⟨hkind, List.nil_subset _⟩))
  · rintro rfl
    exact absurd hkind (by decide)
  · rw [hfirst]
    exact h last ts

theorem operand_formsAt {kind : TokenKind} {what : Missing} (h : Lexical.kind t = kind) :
    FormsAt room t (advance ++ geoOperand true what) (wholeOperand kind) :=
  (advance_formsAt_token h).andThen value_forms

theorem geoEntryFrom_formsAt (h : startsGeoEntry (Lexical.kind t) = true) :
    FormsAt room t (geoEntryFrom true t) (oneOf Symbol.geoEntries) := by
  have hword {word : String} (hkeyword : geoKeyword t = word) (hne : word ≠ "") :
      Lexical.kind t = .word := ((geoKeyword_eq hne).1 hkeyword).1
  unfold geoEntryFrom
  split
  · next hinclude => exact entry_formsAt (by decide) (fun _ _ => rfl) (operand_formsAt hinclude)
  next hinclude =>
  split
  · next hk =>
    exact entry_formsAt (by decide) (fun _ _ => rfl) (operand_formsAt (hword hk (by decide)))
  split
  · next hk =>
    exact entry_formsAt (by decide) (fun _ _ => rfl) (operand_formsAt (hword hk (by decide)))
  split
  · next hk =>
    refine entry_formsAt (by decide) (fun _ _ => rfl) ?_
    rw [hk]
    exact operand_formsAt (hword hk (by decide))
  split
  · next hk =>
    refine entry_formsAt (by decide) (fun _ _ => rfl) ?_
    rw [hk]
    exact advance_formsAt_token (hword hk (by decide))
  split
  · next hk =>
    exact entry_formsAt (by decide) (fun _ _ => rfl) (advance_formsAt_token (hword hk (by decide)))
  · rw [startsGeoEntry, beq_false_of_ne hinclude, Bool.or_false] at h
    exact entry_formsAt (by decide) (fun _ _ => rfl) ((advance_formsAt_value h).andThen value_forms)

theorem wholeGeoItem_formsAt (h : startsGeoEntry (Lexical.kind t) = true) :
    FormsAt room t wholeGeoItem (oneOf [.node .geoItem]) := by
  have hentry : FormsAt room t (geoEntry true) (oneOf Symbol.geoEntries) := geoEntryFrom_formsAt h
  have hmore : Forms (α := α) room (ifNext startsGeoEntry
      (.wrap .error (complainAcross .extraGeoEntries (many startsGeoEntry (geoEntry false))))
      done) 1 :=
    Forms.ifNextAt (fun _ _ => FailsAt.forms (complainAcross_failsAt rfl)) Forms.done
  exact FormsAt.wrap (by decide) fun _ => hentry.andThen (hmore.skip (demand_forms lacking_fails))

/-! ## Statements with blocks -/

/-- Where no error is found, a block is a node of its own. -/
def BlocksForm (α : Type) [Lexical α] (room : Nat) : Prop :=
  ∀ (t : α) (shape : BlockShape), Lexical.kind t = .leftBrace →
    FormsAt room t (.block shape) (oneOf [.node shape.kind])

section Blocks

variable (hblocks : BlocksForm α room)

include hblocks

/-- A block that must be there. -/
theorem demandBlock_forms (shape : BlockShape) (hn : Fails room no) :
    Forms room (ifNext (· == .leftBrace) (block shape) no) (oneOf [.node shape.kind]) :=
  Forms.ifNextAt (fun _ hp => hblocks _ _ (beq_iff_eq.1 hp)) hn.forms

theorem ifStatement_formsAt (h : Lexical.kind t = .ifKeyword) :
    FormsAt room t ifStatement (oneOf [.node .ifStatement]) := by
  refine FormsAt.wrap (by decide) fun _ => (advance_formsAt_token h).andThen ?_
  refine Forms.ifNextAt (fun t hp => ?_) lacking_fails.append_left.forms
  refine (advance_formsAt_token (beq_iff_eq.1 hp)).andThen (conditions_forms.andThen ?_)
  refine Forms.ifNextAt (fun t hp => ?_) lacking_fails.append_left.forms
  exact (advance_formsAt_token (beq_iff_eq.1 hp)).andThen
    (demandBlock_forms hblocks .plain lacking_fails)

theorem geoStatement_formsAt (h : Lexical.kind t = .geoKeyword) :
    FormsAt room t geoStatement (oneOf [.node .geoStatement]) := by
  refine FormsAt.wrap (by decide) fun _ => (advance_formsAt_token h).andThen
    (Forms.andThen ?_ (extraValues_forms.skip (demandBlock_forms hblocks .geo lacking_fails)))
  exact Forms.ifNextAt (fun t hp => (advance_formsAt_value hp).andThen
    (Forms.optional fun _ hp => advance_formsAt_value hp)) lacking_fails.forms

variable [LawfulLexical α]

omit hblocks in
/-- The name of a directive and its arguments. -/
theorem arguments_formsAt (h : (Lexical.kind t).isValue = true) :
    FormsAt room t (advance ++ acceptAll isArgument) (inOrder [.value, repeated .value]) := by
  refine (advance_formsAt_value h).andThen fun last rest => Outcome.forms_reading fun hclean => ?_
  refine mem_repeated_tokens fun u hu => ?_
  -- what can be an argument is a value, or it is malformed
  have hsound := (clean_reading _ last).1 hclean u hu
  rw [(take_length_takeWhile _ _).1] at hu
  have hargument := List.all_eq_true.1 List.all_takeWhile u hu
  rw [isArgument, beq_false_of_ne hsound, Bool.or_false] at hargument
  exact ⟨hargument, fun hend => by rw [hend] at hargument; cases hargument⟩

theorem directiveFrom_formsAt (h : (Lexical.kind t).isValue = true) :
    FormsAt room t (directiveFrom t) (oneOf [.node .directive]) := by
  intro last ts
  have harguments : ((advance ++ acceptAll isArgument).run room last (t :: ts)).Forms _ :=
    arguments_formsAt h last ts
  rw [directiveFrom, run_wrapBy]
  generalize (advance ++ acceptAll isArgument).run room last (t :: ts) = a at harguments
  -- an unfinished directive is reported
  have hunfinished {kind : NodeKind} {text : Text} : ((a.followedBy
      ((complainSince t (.unfinishedDirective text)).run room)).wrapped kind).Forms
        (oneOf [.node .directive]) :=
    fun hclean => absurd (Outcome.clean_join.1 hclean).2 (complainSince_fails rfl _ _)
  have hwhole {finish : Rule α} (hend : (finish.run room a.last a.rest).Forms
      (oneOf [.token .semicolon, .node .block])) :
      ((a.followedBy (finish.run room)).wrapped .directive).Forms (oneOf [.node .directive]) :=
    Outcome.Forms.wrapped (by decide) (harguments.join hend)
  rw [Outcome.nextKind]
  cases hrest : a.rest with
  | nil => exact hunfinished
  | cons u us =>
    rw [hrest] at hwhole
    rw [List.head?_cons, Option.map_some]
    unfold directiveKind directiveEnd
    split
    · next hk =>
      refine hwhole (advance_formsAt ?_ a.last us)
      exact mem_oneOf.2 ⟨_, List.mem_cons_self, by rw [Option.some.inj hk]⟩
    · next hk =>
      refine hwhole ((hblocks u .plain (Option.some.inj hk) a.last us).mono ?_)
      exact oneOf_mono (List.subset_cons_self _ _)
    · exact hunfinished

theorem statement_formsAt : FormsAt room t statement (oneOf Symbol.statements) := by
  have hnode {kind : NodeKind} {rule : Rule α} (hmem : .node kind ∈ Symbol.statements)
      (hforms : FormsAt room t rule (oneOf [.node kind])) :
      FormsAt room t rule (oneOf Symbol.statements) :=
    hforms.mono (oneOf_mono (List.cons_subset.2 ⟨hmem, List.nil_subset _⟩))
  show FormsAt room t (statementFrom t) _
  unfold statementFrom
  split
  · next hk => exact hnode (by decide) (ifStatement_formsAt hblocks hk)
  · next hk => exact hnode (by decide) (setStatement_formsAt hk)
  · next hk => exact hnode (by decide) (includeStatement_formsAt hk)
  · next hk => exact hnode (by decide) (geoStatement_formsAt hblocks hk)
  · next hk => exact (luaFrom_formsAt hk).mono (oneOf_mono (List.subset_append_right _ _))
  · next hk => exact hnode (by decide) (directiveFrom_formsAt hblocks (by rw [hk]; rfl))
  · next hk => exact hnode (by decide) (directiveFrom_formsAt hblocks (by rw [hk]; rfl))
  · next hk => exact hnode (by decide) (directiveFrom_formsAt hblocks (by rw [hk]; rfl))
  · exact FailsAt.forms (rejected_failsAt rfl)
  · next hk => exact FailsAt.forms (FailsAt.wrap (advance_failsAt hk))
  · exact FailsAt.forms (reject_failsAt rfl)

omit hblocks in
theorem geoItem_formsAt : FormsAt room t geoItem (oneOf [.node .geoItem]) := by
  show FormsAt room t (geoItemFrom t) _
  unfold geoItemFrom
  split
  · next hk => exact wholeGeoItem_formsAt (by rw [hk]; rfl)
  · next hk => exact wholeGeoItem_formsAt (by rw [hk]; rfl)
  · next hk => exact wholeGeoItem_formsAt (by rw [hk]; rfl)
  · next hk => exact wholeGeoItem_formsAt (by rw [hk]; rfl)
  · exact FailsAt.forms (reject_failsAt rfl)
  · next hk => exact FailsAt.forms (FailsAt.wrap (advance_failsAt hk))
  · exact FailsAt.forms (rejected_failsAt rfl)

theorem braced_formsAt (shape : BlockShape) (brace : α) (h : Lexical.kind t = .leftBrace)
    (keyword : String) : FormsAt room t (braced brace shape) (shape.kind.wholePattern keyword) := by
  have hclose : Forms room (ifNext (· == .rightBrace) advance (complainAt brace .unclosedBrace))
      (token .rightBrace) := demand_forms (complainAt_fails rfl)
  cases shape with
  | plain =>
    exact (advance_formsAt_token h).andThen
      ((Forms.many fun _ _ => statement_formsAt hblocks).andThen hclose)
  | geo =>
    exact (advance_formsAt_token h).andThen
      ((Forms.many fun _ _ => geoItem_formsAt).andThen hclose)

end Blocks

/-- **Blocks, however much room there is.** -/
theorem blocksForm [LawfulLexical α] (room : Nat) : BlocksForm α room := by
  induction room with
  | zero =>
    intro t shape _
    exact FailsAt.forms fun last ts hclean => not_clean_issue rfl (Outcome.clean_join.1 hclean).1
  | succ room ih =>
    intro t shape ht last ts
    have hkind : shape.kind ≠ .error := by cases shape <;> decide
    exact Outcome.Forms.wrapped hkind (braced_formsAt ih shape t ht _ last ts)

end Rule

/-- **All nodes of a file without errors are whole**, and the trees of the file are statements. -/
theorem Outcome.forms_file [LawfulLexical α] (last : α) (tokens : List α) :
    (Rule.file.run maxDepth last tokens).Forms (repeated (oneOf Symbol.statements)) := by
  refine Rule.Forms.many (fun t _ last ts => ?_) last tokens
  rw [Rule.topStatement, Rule.run_ifNext_cons]
  split
  · exact Rule.FailsAt.forms (Rule.reject_failsAt rfl) last ts
  · exact Rule.statement_formsAt (Rule.blocksForm maxDepth) last ts

end NginxConf
