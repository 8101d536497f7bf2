import NginxConf.Proofs.Grammar.Sound
import NginxConf.Proofs.Tree.Subnodes

/-!
# How problems are reported

`Reported` is a derivation of an outcome that keeps an eye on its reports. An error node comes with
the report that is made for it: at its first token before anything is read, from its first token to
its last one when it has been read, or by the lexer where it is a malformed token. All other reports
are about tokens that have been read before, or about what is missing after the last one.

What every rule of the grammar returns has such a derivation (`reported_file`). So whatever is to be
shown of the reports of a file is shown by one induction, without going through the grammar again.
-/

namespace NginxConf

variable {α : Type} [Lexical α]

/-- An outcome with how its reports come about, where the tokens in `seen` have been read before. -/
inductive Reported : (seen : List α) → (last : α) → Outcome α → Prop
  | idle {seen last rest} : Reported seen last (.idle last rest)
  | missing {seen problem last rest} (hp : problem.isLexical = false) :
    Reported seen last ⟨[], [⟨problem, .after last⟩], last, rest⟩
  | since {seen first problem last rest} (hf : first ∈ seen) (hp : problem.isLexical = false) :
    Reported seen last ⟨[], [⟨problem, .across first last⟩], last, rest⟩
  | back {seen token problem last rest} (ht : token ∈ seen) (hp : problem.isLexical = false) :
    Reported seen last ⟨[], [⟨problem, .across token token⟩], last, rest⟩
  | reading {seen n last rest} : Reported seen last (.reading n last rest)
  | join {seen last a b} (ha : Reported seen last a) (hb : Reported (seen ++ a.read) a.last b) :
    Reported seen last (a.join b)
  | wrapped {seen kind last a} (hk : kind ≠ .error) (ha : Reported seen last a) :
    Reported seen last (a.wrapped kind)
  /-- What has been read is given up. -/
  | rejected {seen first problem last a} (hp : problem.isLexical = false)
    (hw : problem.isWarning = false) (hf : a.read.head? = some first) (ha : Reported seen last a) :
    Reported seen last
      ((a.join ⟨[], [⟨problem, .across first a.last⟩], a.last, a.rest⟩).wrapped .error)
  /-- What comes next is given up, and nothing in it asks for the token before. -/
  | refused {seen first problem last rest a} (hp : problem.isLexical = false)
    (hw : problem.isWarning = false) (hf : a.read.head? = some first)
    (ha : ∀ last, Reported seen last a) :
    Reported seen last
      ((Outcome.join ⟨[], [⟨problem, .across first first⟩], last, rest⟩ a).wrapped .error)
  /-- A malformed token has been reported by the lexer. -/
  | malformed {seen last t ts} (hk : Lexical.kind t = .malformed) :
    Reported seen last ((Outcome.reading 1 last (t :: ts)).wrapped .error)

namespace Rule

/-- What the rule returns has a derivation with its reports, if the tokens that it knows have been
read. -/
def Reports (room : Nat) (known : List α) (rule : Rule α) : Prop :=
  ∀ seen last rest, known ⊆ seen → Reported seen last (rule.run room last rest)

/-- The same where the token comes next. -/
def ReportsAt (room : Nat) (known : List α) (t : α) (rule : Rule α) : Prop :=
  ∀ seen last ts, known ⊆ seen → Reported seen last (rule.run room last (t :: ts))

variable {room : Nat} {known : List α} {t : α} {first second rule yes no : Rule α}
variable {problem : Problem} {p : TokenKind → Bool}

/-- A rule that reads the next token reads it first. -/
theorem SoundAt.head?_read (h : SoundAt room [] t rule) (last : α) (ts : List α) :
    (rule.run room last (t :: ts)).read.head? = some t := by
  obtain ⟨hruns, hread, -⟩ := h [] last ts (List.nil_subset _)
  obtain ⟨us, hus⟩ := hruns.exists_read_eq_cons hread
  rw [hus]
  rfl

/-! ## Ways to combine rules -/

namespace Reports

theorem done : Reports room known .done := fun _ _ _ _ => .idle

theorem complain (hp : problem.isLexical = false) : Reports room known (.complain problem) :=
  fun _ _ _ _ => .missing hp

theorem lacking {what : Missing} : Reports room known (Rule.lacking what) := complain rfl

theorem complainSince (hp : problem.isLexical = false) (ht : t ∈ known) :
    Reports room known (.complainSince t problem) :=
  fun _ _ _ hseen => .since (hseen ht) hp

theorem complainAt (hp : problem.isLexical = false) (ht : t ∈ known) :
    Reports room known (.complainAt t problem) :=
  fun _ _ _ hseen => .back (hseen ht) hp

theorem advance : Reports room known .advance := fun _ _ _ _ => .reading

theorem acceptAll : Reports room known (.acceptAll p) := fun _ _ _ _ => .reading

theorem andThen (ha : Reports room known first) (hb : Reports room known second) :
    Reports room known (first ++ second) := by
  intro seen last rest hseen
  have hfirst := ha seen last rest hseen
  exact .join hfirst (hb _ _ _ (List.subset_append_of_subset_left _ hseen))

theorem wrap {kind : NodeKind} (hk : kind ≠ .error) (h : Reports room known rule) :
    Reports room known (.wrap kind rule) :=
  fun seen last rest hseen => .wrapped hk (h seen last rest hseen)

theorem peek {rule : Option TokenKind → Rule α} (h : ∀ next, Reports room known (rule next)) :
    Reports room known (.peek rule) :=
  fun seen last rest hseen => h _ seen last rest hseen

/-- A choice by the next token, where the first rule need only report at its tokens. -/
theorem ifNextAt (hy : ∀ t, p (Lexical.kind t) = true → ReportsAt room known t yes)
    (hn : Reports room known no) : Reports room known (ifNext p yes no) := by
  intro seen last rest hseen
  cases rest with
  | nil =>
    rw [run_ifNext_nil]
    exact hn seen last [] hseen
  | cons t ts =>
    rw [run_ifNext_cons]
    split
    · next hp => exact hy t hp seen last ts hseen
    · exact hn seen last (t :: ts) hseen

/-- Wherever a rule reports, it reports at a token. -/
theorem reportsAt (h : Reports room known rule) : ReportsAt room known t rule :=
  fun seen last ts hseen => h seen last (t :: ts) hseen

theorem ifNext (hy : Reports room known yes) (hn : Reports room known no) :
    Reports room known (ifNext p yes no) :=
  ifNextAt (fun _ _ => hy.reportsAt) hn

theorem accept : Reports room known (accept p) := ifNext advance done

end Reports

namespace ReportsAt

theorem andThen (ha : ReportsAt room known t first) (hb : Reports room known second) :
    ReportsAt room known t (first ++ second) := by
  intro seen last ts hseen
  have hfirst := ha seen last ts hseen
  exact .join hfirst (hb _ _ _ (List.subset_append_of_subset_left _ hseen))

/-- Once the next token has been read, it is known. -/
theorem advance_andThen (hb : Reports room (t :: known) second) :
    ReportsAt room known t (advance ++ second) := by
  intro seen last ts hseen
  have ht : t ∈ (Outcome.reading 1 last (t :: ts)).read := by simp
  refine .join .reading (hb _ _ _ (List.cons_subset.2 ⟨?_, ?_⟩))
  · exact List.mem_append_right _ ht
  · exact List.subset_append_of_subset_left _ hseen

theorem wrap {kind : NodeKind} (hk : kind ≠ .error) (h : ReportsAt room known t rule) :
    ReportsAt room known t (.wrap kind rule) :=
  fun seen last ts hseen => .wrapped hk (h seen last ts hseen)

theorem withNext {rule : α → Rule α} (h : ReportsAt room known t (rule t)) :
    ReportsAt room known t (.withNext rule) := h

theorem ifNext (hy : p (Lexical.kind t) = true → ReportsAt room known t yes)
    (hn : p (Lexical.kind t) = false → ReportsAt room known t no) :
    ReportsAt room known t (ifNext p yes no) := by
  intro seen last ts hseen
  rw [run_ifNext_cons]
  split
  · next hp => exact hy hp seen last ts hseen
  · next hp => exact hn (Bool.eq_false_iff.2 hp) seen last ts hseen

/-- A report across what a rule reads, which stays as it is. -/
theorem complainAcross (hp : problem.isLexical = false) (hs : SoundAt room [] t rule)
    (h : ReportsAt room known t rule) :
    ReportsAt room known t (Rule.complainAcross problem rule) := by
  intro seen last ts hseen
  have ht : t ∈ (rule.run room last (t :: ts)).read := List.mem_of_head? (hs.head?_read last ts)
  exact .join (h seen last ts hseen) (.since (List.mem_append_right _ ht) hp)

/-- An error node of what a rule reads, with a report across all of it. -/
theorem rejectAll (hp : problem.isLexical = false) (hw : problem.isWarning = false)
    (hs : SoundAt room [] t rule) (h : ReportsAt room known t rule) :
    ReportsAt room known t (.wrap .error (Rule.complainAcross problem rule)) := by
  intro seen last ts hseen
  have hhead : (rule.run room last (t :: ts)).read.head? = some t := hs.head?_read last ts
  exact .rejected hp hw hhead (h seen last ts hseen)

/-- An error node of what a rule reads, with a report at the first token of it. -/
theorem refuse (hp : problem.isLexical = false) (hw : problem.isWarning = false)
    (hs : SoundAt room [] t rule) (h : ReportsAt room known t rule) :
    ReportsAt room known t (.wrap .error (Rule.complainAt t problem ++ rule)) := by
  intro seen last ts hseen
  obtain ⟨-, -, hlast⟩ := hs [] last ts (List.nil_subset _)
  have hhead : (rule.run room last (t :: ts)).read.head? = some t := hs.head?_read last ts
  refine .refused hp hw hhead fun last' => ?_
  show Reported seen last' (rule.run room last (t :: ts))
  rw [← hlast last']
  exact h seen last' ts hseen

theorem reject (hp : problem.isLexical = false) (hw : problem.isWarning = false) :
    ReportsAt room known t (Rule.reject problem) :=
  withNext (refuse hp hw SoundAt.advance Reports.advance.reportsAt)

theorem malformed (hk : Lexical.kind t = .malformed) :
    ReportsAt room known t (.wrap .error .advance) :=
  fun _ _ _ _ => .malformed hk

end ReportsAt

/-- A loop reports what its turns do. -/
theorem Reports.many (h : ∀ t, p (Lexical.kind t) = true → ReportsAt room known t rule) :
    Reports room known (.many p rule) := by
  intro seen last rest hseen
  induction hn : rest.length using Nat.strongRecOn generalizing seen last rest with
  | _ n ih =>
    rw [run_many]
    cases rest with
    | nil =>
      rw [manyFrom]
      exact .idle
    | cons t ts =>
      rw [manyFrom]
      split
      · next hp =>
        have hturn := h t hp seen last ts hseen
        dsimp only
        split
        · next hlt =>
          have hseen' := List.subset_append_of_subset_left
            (rule.run room last (t :: ts)).read hseen
          exact .join hturn (ih _ (hn ▸ hlt) _ _ _ hseen' rfl)
        · exact hturn
      · exact .idle

/-! ## Parts of statements -/

theorem value_reports {what : Missing} : Reports room known (value what) :=
  Reports.ifNext Reports.advance Reports.lacking

theorem extraValues_reports : Reports room known extraValues :=
  Reports.ifNextAt
    (fun _ hp => ReportsAt.rejectAll rfl rfl (SoundAt.acceptAll hp) Reports.acceptAll.reportsAt)
    Reports.done

theorem semicolon_reports : Reports room known semicolon :=
  Reports.andThen extraValues_reports (Reports.ifNext Reports.advance Reports.lacking)

theorem geoOperand_reports {strict : Bool} {what : Missing} :
    Reports room known (geoOperand strict what) := by
  cases strict with
  | true => exact value_reports
  | false => exact Reports.accept

theorem condition_reports : Reports room known condition :=
  Reports.wrap (by decide) <| Reports.ifNext
    (Reports.andThen Reports.advance value_reports)
    (Reports.andThen Reports.advance
      (Reports.ifNext (Reports.andThen Reports.advance value_reports) Reports.done))

theorem conditions_reports : Reports room known conditions := by
  have hmore : Reports room known
      (ifNext startsCondition
        (complainAcross .extraConditions (many startsCondition condition)) done) := by
    refine Reports.ifNextAt (fun t hp => ?_) Reports.done
    exact ReportsAt.complainAcross rfl (SoundAt.many hp fun _ _ => condition_soundAt)
      (Reports.many fun _ _ => condition_reports.reportsAt).reportsAt
  exact Reports.ifNext (Reports.andThen condition_reports hmore) Reports.lacking

theorem closeScript_reports (ht : t ∈ known) : Reports room known (closeScript t) :=
  Reports.ifNext Reports.advance (Reports.complainAt rfl ht)

theorem scriptBody_reports (ht : t ∈ known) (next : Option TokenKind) :
    Reports room known (scriptBody t next) := by
  unfold scriptBody
  split
  · exact Reports.andThen Reports.advance Reports.accept
  · exact Reports.andThen Reports.advance (closeScript_reports ht)
  · exact closeScript_reports ht

theorem script_reportsAt : ReportsAt room known t script :=
  ReportsAt.withNext <| ReportsAt.advance_andThen <|
    Reports.peek (scriptBody_reports List.mem_cons_self)

theorem geoEntry_reportsAt {strict : Bool} : ReportsAt room known t (geoEntry strict) := by
  have hentry : ∀ {what : Missing} {kind : NodeKind}, kind ≠ .error →
      Reports room known (.wrap kind (advance ++ geoOperand strict what)) :=
    fun hk => Reports.wrap hk (Reports.andThen Reports.advance geoOperand_reports)
  have hword : ∀ {kind : NodeKind}, kind ≠ .error → Reports room known (.wrap kind advance) :=
    fun hk => Reports.wrap hk Reports.advance
  refine ReportsAt.withNext (Reports.reportsAt ?_)
  split
  · exact hentry (by decide)
  · split
    · exact hentry (by decide)
    · split
      · exact hentry (by decide)
      · split
        · exact hentry (by decide)
        · split
          · exact hword (by decide)
          · split
            · exact hword (by decide)
            · exact hentry (by decide)

/-! ## Statements without blocks -/

theorem setStatement_reports : Reports room known setStatement :=
  Reports.wrap (by decide) <| Reports.andThen Reports.advance <| Reports.andThen
    (Reports.ifNext (Reports.andThen Reports.advance value_reports) Reports.lacking)
    semicolon_reports

theorem includeStatement_reports : Reports room known includeStatement :=
  Reports.wrap (by decide) <| Reports.andThen Reports.advance <|
    Reports.andThen value_reports semicolon_reports

theorem luaKind_ne_error (keyword : α) : luaKind keyword ≠ .error := by
  have hlua := NodeKind.isLua_ofLuaKeyword (String.ofList (Lexical.text keyword))
  intro herror
  rw [luaKind] at herror
  rw [herror] at hlua
  cases hlua

theorem luaStatement_reportsAt : ReportsAt room known t luaStatement := by
  refine ReportsAt.withNext (Reports.reportsAt ?_)
  refine Reports.wrap (luaKind_ne_error t) (Reports.andThen Reports.advance ?_)
  refine Reports.andThen ?_ (Reports.andThen extraValues_reports (Reports.ifNextAt
    (fun _ _ => script_reportsAt) (Reports.andThen (Reports.complain rfl) Reports.accept)))
  split
  · exact value_reports
  · exact Reports.done

theorem wholeGeoItem_reportsAt : ReportsAt room known t wholeGeoItem := by
  have hmore : Reports room known (ifNext startsGeoEntry
      (.wrap .error (complainAcross .extraGeoEntries (many startsGeoEntry (geoEntry false))))
      done) := by
    refine Reports.ifNextAt (fun t hp => ?_) Reports.done
    exact ReportsAt.rejectAll rfl rfl (SoundAt.many hp fun _ _ => geoEntry_soundAt)
      (Reports.many fun _ _ => geoEntry_reportsAt).reportsAt
  exact ReportsAt.wrap (by decide) <| ReportsAt.andThen geoEntry_reportsAt <|
    Reports.andThen hmore (Reports.ifNext Reports.advance Reports.lacking)

/-! ## Statements with blocks -/

section Blocks

variable (hblocks : ∀ (known : List α) (t : α) (shape : BlockShape),
  Lexical.kind t = .leftBrace → ReportsAt room known t (block shape))

include hblocks

/-- Where a block may stand but need not, it reports at a `{`. -/
theorem ifBlock_reports {shape : BlockShape} (hn : Reports room known no) :
    Reports room known (ifNext (· == .leftBrace) (block shape) no) :=
  Reports.ifNextAt (fun t hp => hblocks known t shape (by simpa using hp)) hn

/-- A directive that does not end as it should is given up. -/
theorem directive_reportsAt : ReportsAt room known t directive := by
  intro seen last ts hseen
  have hs : SoundAt room [] t (advance ++ acceptAll isArgument) :=
    SoundAt.andThen SoundAt.advance Sound.acceptAll
  have hhead := hs.head?_read last ts
  have hstart : Reported seen last ((advance ++ acceptAll isArgument).run room last (t :: ts)) :=
    Reports.andThen Reports.advance Reports.acceptAll seen last (t :: ts) hseen
  unfold directive
  rw [run_withNext_cons, run_wrapBy]
  generalize (advance ++ acceptAll isArgument).run room last (t :: ts) = a at hhead hstart ⊢
  have hseen' : known ⊆ seen ++ a.read := List.subset_append_of_subset_left _ hseen
  unfold directiveKind directiveEnd
  cases hnext : a.nextKind with
  | none => exact .rejected rfl rfl hhead hstart
  | some kind =>
    cases kind with
    | semicolon => exact .wrapped (by decide) (.join hstart .reading)
    | leftBrace =>
      obtain ⟨u, hu, hkind⟩ := Option.map_eq_some_iff.1 hnext
      obtain ⟨us, hrest⟩ := List.head?_eq_some_iff.1 hu
      refine .wrapped (by decide) (.join hstart ?_)
      rw [hrest]
      exact hblocks known u .plain hkind _ _ us hseen'
    | _ => exact .rejected rfl rfl hhead hstart

theorem ifStatement_reports : Reports room known ifStatement := by
  refine Reports.wrap (by decide) (Reports.andThen Reports.advance (Reports.ifNext ?_ ?_))
  · refine Reports.andThen Reports.advance (Reports.andThen conditions_reports ?_)
    refine Reports.ifNext ?_ ?_
    · exact Reports.andThen Reports.advance (ifBlock_reports hblocks Reports.lacking)
    · exact Reports.andThen Reports.lacking (ifBlock_reports hblocks Reports.done)
  · exact Reports.andThen Reports.lacking (ifBlock_reports hblocks Reports.done)

theorem geoStatement_reports : Reports room known geoStatement :=
  Reports.wrap (by decide) <| Reports.andThen Reports.advance <| Reports.andThen
    (Reports.ifNext (Reports.andThen Reports.advance Reports.accept) Reports.lacking)
    (Reports.andThen extraValues_reports (ifBlock_reports hblocks Reports.lacking))

/-- **A statement comes with its reports.** -/
theorem statement_reportsAt : ReportsAt room known t statement := by
  refine ReportsAt.withNext ?_
  unfold statementFrom
  split
  · exact (ifStatement_reports hblocks).reportsAt
  · exact setStatement_reports.reportsAt
  · exact includeStatement_reports.reportsAt
  · exact (geoStatement_reports hblocks).reportsAt
  · exact luaStatement_reportsAt
  · exact directive_reportsAt hblocks
  · exact directive_reportsAt hblocks
  · exact directive_reportsAt hblocks
  · next hk =>
    exact ReportsAt.refuse rfl rfl (blocksSound room [] t .plain hk) (hblocks known t .plain hk)
  · next hk => exact ReportsAt.malformed hk
  · exact ReportsAt.reject rfl rfl

/-- **An entry of a geo block, or what stands in its place, comes with its reports.** -/
theorem geoItem_reportsAt : ReportsAt room known t geoItem := by
  refine ReportsAt.withNext ?_
  unfold geoItemFrom
  split
  · exact wholeGeoItem_reportsAt
  · exact wholeGeoItem_reportsAt
  · exact wholeGeoItem_reportsAt
  · exact wholeGeoItem_reportsAt
  · exact ReportsAt.reject rfl rfl
  · next hk => exact ReportsAt.malformed hk
  · exact ReportsAt.refuse rfl rfl (statement_soundAt (blocksSound room))
      (statement_reportsAt hblocks)

theorem item_reportsAt (shape : BlockShape) : ReportsAt room known t (item shape) :=
  match shape with
  | .plain => statement_reportsAt hblocks
  | .geo => geoItem_reportsAt hblocks

theorem braced_reportsAt (shape : BlockShape) : ReportsAt room known t (braced t shape) :=
  ReportsAt.advance_andThen <| Reports.andThen
    (Reports.many fun _ _ => item_reportsAt hblocks shape)
    (Reports.ifNext Reports.advance (Reports.complainAt rfl List.mem_cons_self))

theorem topStatement_reportsAt : ReportsAt room known t topStatement :=
  ReportsAt.ifNext (fun _ => ReportsAt.reject rfl rfl) (fun _ => statement_reportsAt hblocks)

end Blocks

/-! ## Blocks and files -/

theorem tooDeep_reportsAt (hb : Lexical.kind t = .leftBrace) : ReportsAt room known t tooDeep :=
  ReportsAt.withNext <| ReportsAt.refuse rfl rfl (SoundAt.rawGroup hb) fun _ _ _ _ => .reading

/-- **Blocks come with their reports**, however much room there is. -/
theorem block_reportsAt (shape : BlockShape) (hb : Lexical.kind t = .leftBrace) :
    ReportsAt room known t (block shape) := by
  induction room generalizing known t shape with
  | zero =>
    intro seen last ts hseen
    have hdeep : ReportsAt 0 known t tooDeep := tooDeep_reportsAt hb
    exact hdeep seen last ts hseen
  | succ room ih =>
    intro seen last ts hseen
    have hbraced : ReportsAt room known t (braced t shape) :=
      braced_reportsAt (fun known t shape hb => ih shape hb) shape
    refine .wrapped ?_ (hbraced seen last ts hseen)
    cases shape <;> decide

/-- **What the rule for a file returns comes with its reports.** -/
theorem reported_file (last : α) (tokens : List α) :
    Reported [] last (file.run maxDepth last tokens) := by
  have hfile : Reports maxDepth ([] : List α) file :=
    Reports.many fun _ _ => topStatement_reportsAt fun _ _ shape hb => block_reportsAt shape hb
  exact hfile [] last tokens (List.nil_subset _)

end Rule

/-! ## What is reported -/

/-- The issue is why a node is an error: it begins where the node does, and ends inside of it. -/
def Issue.Explains (i : Issue α) (n : Node α) : Prop :=
  i.problem.isWarning = false ∧
    ∃ first last, i.place = .across first last ∧ n.leaves.head? = some first ∧ last ∈ n.leaves

namespace Outcome

theorem isLexical_faultOf {t : α} : ∀ i ∈ faultOf t, i.problem.isLexical = true := by
  intro i hi
  unfold faultOf at hi
  split at hi
  · rw [List.mem_singleton.1 hi]
    rfl
  · cases hi

end Outcome

namespace Reported

variable {seen : List α} {last : α} {a : Outcome α}

theorem last_eq (h : Reported seen last a) : a.last = a.read.getLast?.getD last := by
  induction h with
  | idle | missing | since | back => rfl
  | reading =>
    rw [Outcome.read_reading]
    rfl
  | malformed =>
    rw [Outcome.last_wrapped, Outcome.read_wrapped, Outcome.read_reading]
    rfl
  | join _ _ iha ihb =>
    rw [Outcome.last_join, Outcome.read_join, List.getLast?_append, ihb, iha]
    cases List.getLast? _ <;> rfl
  | wrapped _ _ ih => rwa [Outcome.last_wrapped, Outcome.read_wrapped]
  | @rejected _ _ _ last a _ _ _ _ ih =>
    rw [Outcome.last_wrapped, Outcome.last_join, Outcome.read_wrapped, Outcome.read_join]
    show a.last = (a.read ++ []).getLast?.getD last
    rw [List.append_nil, ih]
  | refused _ _ _ _ ih =>
    rw [Outcome.last_wrapped, Outcome.last_join, Outcome.read_wrapped, Outcome.read_join]
    exact ih _

/-- Where something is read, the last token is one of what is read. -/
theorem last_mem_read (h : Reported seen last a) (hne : a.read ≠ []) : a.last ∈ a.read := by
  rw [h.last_eq]
  cases hlast : a.read.getLast? with
  | none => exact absurd (List.getLast?_eq_none_iff.1 hlast) hne
  | some t => exact List.mem_of_getLast? hlast

/-- **Each error node has a report that is not a mere warning**, from its first token on. -/
theorem exists_explains (h : Reported seen last a)
    (hfault : ∀ t ∈ a.read, Lexical.kind t = .malformed → (Lexical.fault t).isSome) :
    ∀ n ∈ Tree.forestSubnodes a.trees, n.kind = .error → ∃ i ∈ a.issues, i.Explains n := by
  induction h with
  | idle | missing | since | back => exact fun n hn => absurd hn List.not_mem_nil
  | reading =>
    intro n hn
    rw [Outcome.reading, Tree.forestSubnodes_leaves] at hn
    cases hn
  | join _ _ iha ihb =>
    rw [Outcome.read_join, List.forall_mem_append] at hfault
    intro n hn hkind
    rw [Outcome.join, Tree.forestSubnodes_append, List.mem_append] at hn
    rcases hn with hn | hn
    · obtain ⟨i, hi, hexplains⟩ := iha hfault.1 n hn hkind
      exact ⟨i, List.mem_append_left _ hi, hexplains⟩
    · obtain ⟨i, hi, hexplains⟩ := ihb hfault.2 n hn hkind
      exact ⟨i, List.mem_append_right _ hi, hexplains⟩
  | wrapped hk _ ih =>
    rw [Outcome.read_wrapped] at hfault
    intro n hn hkind
    rw [Outcome.wrapped, Tree.forestSubnodes_node, List.mem_cons] at hn
    rcases hn with rfl | hn
    · exact absurd hkind hk
    · exact ih hfault n hn hkind
  | @rejected _ first problem _ a hp hw hf ha ih =>
    rw [Outcome.read_wrapped, Outcome.read_join, List.forall_mem_append] at hfault
    intro n hn hkind
    rw [Outcome.wrapped, Tree.forestSubnodes_node, Outcome.join, List.append_nil,
      List.mem_cons] at hn
    rcases hn with rfl | hn
    · have hne : a.read ≠ [] := List.ne_nil_of_mem (List.mem_of_head? hf)
      exact ⟨⟨problem, .across first a.last⟩, List.mem_append_right _ List.mem_cons_self, hw,
        first, a.last, rfl, hf, ha.last_mem_read hne⟩
    · obtain ⟨i, hi, hexplains⟩ := ih hfault.1 n hn hkind
      exact ⟨i, List.mem_append_left _ hi, hexplains⟩
  | @refused _ first problem last _ a hp hw hf _ ih =>
    rw [Outcome.read_wrapped, Outcome.read_join, List.forall_mem_append] at hfault
    intro n hn hkind
    rw [Outcome.wrapped, Tree.forestSubnodes_node, Outcome.join, List.nil_append,
      List.mem_cons] at hn
    rcases hn with rfl | hn
    · exact ⟨⟨problem, .across first first⟩, List.mem_append_left _ List.mem_cons_self, hw,
        first, first, rfl, hf, List.mem_of_head? hf⟩
    · obtain ⟨i, hi, hexplains⟩ := ih last hfault.2 n hn hkind
      exact ⟨i, List.mem_append_right _ hi, hexplains⟩
  | @malformed _ last t ts hk =>
    have ht : (Lexical.fault t).isSome := hfault t List.mem_cons_self hk
    obtain ⟨fault, hfault⟩ := Option.isSome_iff_exists.1 ht
    intro n hn hkind
    obtain rfl : n = ⟨.error, [.leaf t]⟩ := List.mem_singleton.1 hn
    refine ⟨⟨.malformed fault, .across t t⟩, ?_, rfl, t, t, rfl, rfl, List.mem_cons_self⟩
    have hissues : (Outcome.reading 1 last (t :: ts)).issues = Outcome.faultOf t :=
      List.append_nil _
    rw [Outcome.issues_wrapped, hissues, Outcome.faultOf, hfault]
    exact List.mem_cons_self

/-- **The reports of the lexer are those about the tokens that have been read**, in their order. -/
theorem filter_isLexical (h : Reported seen last a) :
    a.issues.filter (·.problem.isLexical) = a.read.flatMap Outcome.faultOf := by
  have hreading : ∀ (n : Nat) (last : α) (rest : List α),
      (Outcome.reading n last rest).issues.filter (·.problem.isLexical)
        = (Outcome.reading n last rest).read.flatMap Outcome.faultOf := by
    intro n last rest
    rw [Outcome.read_reading]
    refine List.filter_eq_self.2 fun i hi => ?_
    obtain ⟨t, -, hi⟩ := List.mem_flatMap.1 hi
    exact Outcome.isLexical_faultOf i hi
  induction h with
  | idle => rfl
  | missing hp | since _ hp | back _ hp => exact List.filter_eq_nil_iff.2 (by simpa using hp)
  | reading => exact hreading _ _ _
  | malformed =>
    rw [Outcome.issues_wrapped, Outcome.read_wrapped]
    exact hreading _ _ _
  | join _ _ iha ihb =>
    rw [Outcome.read_join, List.flatMap_append, ← iha, ← ihb]
    exact List.filter_append _ _
  | wrapped _ _ ih => rwa [Outcome.issues_wrapped, Outcome.read_wrapped]
  | rejected hp _ _ _ ih =>
    rw [Outcome.issues_wrapped, Outcome.read_wrapped, Outcome.read_join, List.flatMap_append, ← ih]
    refine (List.filter_append _ _).trans (congrArg _ ?_)
    exact List.filter_eq_nil_iff.2 (by simpa using hp)
  | @refused _ _ _ last _ _ hp _ _ _ ih =>
    rw [Outcome.issues_wrapped, Outcome.read_wrapped, Outcome.read_join, List.flatMap_append,
      ← ih last]
    exact List.filter_cons_of_neg (by simpa using hp)

end Reported

end NginxConf
