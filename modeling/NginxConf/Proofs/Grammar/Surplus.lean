import NginxConf.Proofs.Grammar.Lookahead
import NginxConf.Proofs.Grammar.Origin
import NginxConf.Proofs.Grammar.Reported

/-!
# Surplus values, conditions and entries

A statement that has no room for more values keeps them in an error node, and so does an entry of a
geo block with the entries that follow it before its `;`. All conditions of an `if` are kept, but
only the first one counts. Each of them is reported once, from its first token to its last one, and
nothing else is reported in these words: what is reported of a file can be read off its nodes
(`Outcome.tells_file`).
-/

namespace NginxConf

variable {α : Type}

/-- Something is there more often than it can be. -/
def Problem.isSurplus : Problem → Bool
  | extraValues | extraConditions | extraGeoEntries => true
  | _ => false

/-- Whether a statement has room for some values only. -/
def NodeKind.limitsValues : NodeKind → Bool
  | setStatement | includeStatement | geoStatement => true
  | kind => kind.isLua

/-- Whether an error node in a node of the kind can be a surplus. -/
def NodeKind.hasSurplus (kind : NodeKind) : Bool := kind == .geoItem || kind.limitsValues

/-- The report of a problem from the first to the last of some tokens. -/
def Issue.spanning (problem : Problem) (ts : List α) : List (Issue α) :=
  match ts.head?, ts.getLast? with
  | some first, some last => [⟨problem, .across first last⟩]
  | _, _ => []

theorem Issue.spanning_eq {problem : Problem} {ts : List α} {first last : α}
    (hfirst : ts.head? = some first) (hlast : ts.getLast? = some last) :
    spanning problem ts = [⟨problem, .across first last⟩] := by
  rw [spanning, hfirst, hlast]

/-- Whether the tree is a condition. -/
def Tree.isCondition : Tree α → Bool
  | leaf _ => false
  | node kind _ => kind == .condition

variable [Lexical α]

namespace Tree

/-- Whether the tree is a value. -/
def isValue : Tree α → Bool
  | leaf t => (Lexical.kind t).isValue
  | node _ _ => false

/-- What is reported of a child of a node of some kind. -/
def surplusIn (parent : NodeKind) : Tree α → List (Issue α)
  | leaf _ => []
  | node kind children =>
    if kind = .error then
      if parent = .geoItem then Issue.spanning .extraGeoEntries (forestLeaves children)
      else if parent.limitsValues && children.all isValue then
        Issue.spanning .extraValues (forestLeaves children)
      else []
    else []

omit [Lexical α] in
/-- What is reported of the conditions of an `if`. -/
def extraConditions (ts : List (Tree α)) : List (Issue α) :=
  Issue.spanning .extraConditions ((ts.filter isCondition).tail.flatMap leaves)

end Tree

omit [Lexical α] in
theorem Tree.extraConditions_cons {children ts : List (Tree α)}
    (hall : ∀ t ∈ ts, t.isCondition = true) :
    extraConditions (node .condition children :: ts)
      = Issue.spanning .extraConditions (ts.flatMap leaves) := by
  rw [extraConditions, List.filter_cons_of_pos rfl, List.filter_eq_self.2 hall, List.tail_cons]

/-- What is reported of a node. -/
def Node.surplus (n : Node α) : List (Issue α) :=
  if n.kind = .ifStatement then Tree.extraConditions n.children
  else n.children.flatMap (Tree.surplusIn n.kind)

namespace Tree

variable {parent kind : NodeKind} {ts : List (Tree α)}

theorem surplusIn_eq_nil (h : parent.hasSurplus = false) (t : Tree α) : t.surplusIn parent = [] := by
  rw [NodeKind.hasSurplus, Bool.or_eq_false_iff, beq_eq_false_iff_ne] at h
  cases t with
  | leaf => rfl
  | node kind children =>
    rw [surplusIn, if_neg h.1, h.2, Bool.false_and, if_neg Bool.false_ne_true, ite_self]

theorem surplusIn_node (h : kind ≠ .error) (children : List (Tree α)) :
    (node kind children).surplusIn parent = [] :=
  if_neg h

theorem flatMap_surplusIn_leaves (us : List α) : (us.map leaf).flatMap (surplusIn parent) = [] := by
  simp [List.flatMap_map, surplusIn]

theorem surplus_node (h : kind ≠ .ifStatement) :
    Node.surplus ⟨kind, ts⟩ = ts.flatMap (surplusIn kind) := if_neg h

theorem surplus_eq_nil (h : kind ≠ .ifStatement) (hkind : kind.hasSurplus = false) :
    Node.surplus ⟨kind, ts⟩ = [] := by
  rw [surplus_node h, List.flatMap_eq_nil_iff]
  exact fun t _ => surplusIn_eq_nil hkind t

end Tree

/-! ## Outcomes -/

namespace Outcome

/-- What is reported of a surplus is that of the nodes that have been built, and `own` of the trees
themselves. -/
def Tells (own : List (Tree α) → List (Issue α)) (a : Outcome α) : Prop :=
  (a.issues.filter (·.problem.isSurplus)).Perm
    (own a.trees ++ (Tree.forestSubnodes a.trees).flatMap Node.surplus)

/-- The same for the children of a node of some kind. -/
abbrev TellsIn (parent : NodeKind) (a : Outcome α) : Prop :=
  a.Tells fun ts => ts.flatMap (Tree.surplusIn parent)

variable {own : List (Tree α) → List (Issue α)} {parent kind : NodeKind} {a b : Outcome α}

theorem filter_faultOf (ts : List α) :
    (ts.flatMap faultOf).filter (·.problem.isSurplus) = [] := by
  refine List.filter_eq_nil_iff.2 fun i hi => ?_
  obtain ⟨t, -, hi⟩ := List.mem_flatMap.1 hi
  unfold faultOf at hi
  split at hi
  · rw [List.mem_singleton.1 hi]
    exact Bool.false_ne_true
  · cases hi

omit [Lexical α] in
theorem join_assoc (a b c : Outcome α) : (a.join b).join c = a.join (b.join c) := by simp [join]

theorem Tells.join (hown : own (a.trees ++ b.trees) = own a.trees ++ own b.trees) (ha : a.Tells own)
    (hb : b.Tells own) : (a.join b).Tells own := by
  rw [Tells, Outcome.join, List.filter_append, hown, Tree.forestSubnodes_append, List.flatMap_append]
  refine (ha.append hb).trans ?_
  simp only [List.append_assoc]
  refine .append (.refl _) ?_
  rw [← List.append_assoc, ← List.append_assoc]
  exact List.perm_append_comm.append_right _

theorem TellsIn.join (ha : a.TellsIn parent) (hb : b.TellsIn parent) : (a.join b).TellsIn parent :=
  Tells.join List.flatMap_append ha hb

/-- Where only tokens have been read, and nothing is reported that is too much. -/
theorem tells_leaves (us : List α) (htrees : a.trees = us.map .leaf)
    (hown : own (us.map .leaf) = []) (hissues : a.issues.filter (·.problem.isSurplus) = []) :
    a.Tells own := by
  rw [Tells, htrees, Tree.forestSubnodes_leaves, hown, hissues]
  exact .refl _

theorem tellsIn_reading (n : Nat) (last : α) (rest : List α) :
    (reading n last rest).TellsIn parent :=
  tells_leaves _ rfl (Tree.flatMap_surplusIn_leaves _) (filter_faultOf _)

theorem tellsIn_idle (last : α) (rest : List α) : (idle last rest).TellsIn parent :=
  tellsIn_reading 0 last rest

theorem tellsIn_wrapped_iff : (a.wrapped kind).TellsIn parent ↔
    (a.issues.filter (·.problem.isSurplus)).Perm ((Tree.node kind a.trees).surplusIn parent
      ++ (Node.surplus ⟨kind, a.trees⟩ ++ (Tree.forestSubnodes a.trees).flatMap Node.surplus)) := by
  rw [TellsIn, Tells, Outcome.wrapped, Tree.forestSubnodes_node, List.flatMap_singleton,
    List.flatMap_cons]

theorem TellsIn.wrapped (ha : a.TellsIn kind) (hif : kind ≠ .ifStatement) (hkind : kind ≠ .error) :
    (a.wrapped kind).TellsIn parent := by
  rw [tellsIn_wrapped_iff, Tree.surplusIn_node hkind, Tree.surplus_node hif]
  exact ha

/-- In an error node that is no surplus. -/
theorem TellsIn.rejected (ha : a.TellsIn .error)
    (hown : (Tree.node .error a.trees).surplusIn parent = []) :
    (a.wrapped .error).TellsIn parent := by
  rw [tellsIn_wrapped_iff, hown, Tree.surplus_node (by decide)]
  exact ha

/-- In an error node that is a surplus. -/
theorem TellsIn.surplus {i : Issue α} (ha : a.TellsIn .error) (hi : i.problem.isSurplus = true)
    (hown : (Tree.node .error a.trees).surplusIn parent = [i]) :
    ((a.join ⟨[], [i], a.last, a.rest⟩).wrapped .error).TellsIn parent := by
  have htrees : (a.join ⟨[], [i], a.last, a.rest⟩).trees = a.trees := List.append_nil _
  have hissues : (a.join ⟨[], [i], a.last, a.rest⟩).issues = a.issues ++ [i] := rfl
  have hone : [i].filter (·.problem.isSurplus) = [i] := List.filter_cons_of_pos hi
  rw [tellsIn_wrapped_iff, htrees, hissues, hown, Tree.surplus_node (by decide),
    List.filter_append, hone]
  exact List.perm_append_comm.trans (ha.append_left [i])

theorem TellsIn.calm (ha : a.TellsIn kind) (hkind : kind.hasSurplus = false)
    (hparent : parent.hasSurplus = false) : a.TellsIn parent := by
  have hnone {k : NodeKind} (hk : k.hasSurplus = false) :
      a.trees.flatMap (Tree.surplusIn k) = [] :=
    List.flatMap_eq_nil_iff.2 fun t _ => Tree.surplusIn_eq_nil hk t
  have h := ha
  rw [TellsIn, Tells, hnone hkind] at h
  rwa [TellsIn, Tells, hnone hparent]

end Outcome

/-! ## Ways to combine rules -/

namespace Rule

/-- What the rule reports of a surplus is that of the nodes that it builds, where they are children
of a node of some kind. -/
def Tells (room : Nat) (parent : NodeKind) (rule : Rule α) : Prop :=
  ∀ last rest, (rule.run room last rest).TellsIn parent

/-- The same where the token comes next. -/
def TellsAt (room : Nat) (parent : NodeKind) (t : α) (rule : Rule α) : Prop :=
  ∀ last ts, (rule.run room last (t :: ts)).TellsIn parent

variable {room : Nat} {parent kind : NodeKind} {t : α} {first second rule yes no : Rule α}
variable {problem : Problem} {p : TokenKind → Bool}

/-- A report across what a rule reads names the tokens at its ends. -/
theorem SoundAt.spanning_read (h : SoundAt room [] t rule) (problem : Problem) (last : α) (ts : List α) :
    Issue.spanning problem (rule.run room last (t :: ts)).read
      = [⟨problem, .across t (rule.run room last (t :: ts)).last⟩] := by
  obtain ⟨hruns, hread, -⟩ := h [] last ts (List.nil_subset _)
  have hlast := hruns.last_eq
  rw [List.getLast?_eq_some_getLast (List.ne_nil_of_mem hread), Option.getD_some] at hlast
  rw [hlast]
  exact Issue.spanning_eq (h.head?_read last ts) (List.getLast?_eq_some_getLast _)

namespace Tells

theorem done : Tells (α := α) room parent .done :=
  Outcome.tellsIn_idle

/-- A report of another sort. -/
theorem report {last : α} {rest : List α} {place : Place α} (h : problem.isSurplus = false) :
    Outcome.TellsIn parent ⟨[], [⟨problem, place⟩], last, rest⟩ :=
  Outcome.tells_leaves [] rfl rfl (List.filter_cons_of_neg (by simp [h]))

theorem complain (h : problem.isSurplus = false) : Tells (α := α) room parent (.complain problem) :=
  fun _ _ => report h

theorem lacking {what : Missing} : Tells (α := α) room parent (Rule.lacking what) := complain rfl

theorem complainAt (h : problem.isSurplus = false) : Tells room parent (.complainAt t problem) :=
  fun _ _ => report h

theorem complainSince (h : problem.isSurplus = false) :
    Tells room parent (.complainSince t problem) :=
  fun _ _ => report h

theorem advance : Tells (α := α) room parent .advance :=
  fun last rest => Outcome.tellsIn_reading 1 last rest

theorem acceptAll : Tells (α := α) room parent (.acceptAll p) :=
  fun last rest => Outcome.tellsIn_reading _ last rest

theorem andThen (ha : Tells room parent first) (hb : Tells room parent second) :
    Tells room parent (first ++ second) :=
  fun last rest => (ha last rest).join (hb _ _)

theorem wrap (h : Tells room kind rule) (hif : kind ≠ .ifStatement) (hkind : kind ≠ .error) :
    Tells room parent (.wrap kind rule) :=
  fun last rest => (h last rest).wrapped hif hkind

theorem tellsAt (h : Tells room parent rule) : TellsAt room parent t rule :=
  fun last ts => h last (t :: ts)

theorem ifNextAt (hy : ∀ t, p (Lexical.kind t) = true → TellsAt room parent t yes)
    (hn : Tells room parent no) : Tells room parent (ifNext p yes no) :=
  forall_ifNext (fun t last ts hp => hy t hp last ts) hn

theorem ifNext (hy : Tells room parent yes) (hn : Tells room parent no) :
    Tells room parent (ifNext p yes no) :=
  ifNextAt (fun _ _ => hy.tellsAt) hn

theorem accept : Tells (α := α) room parent (accept p) := ifNext advance done

theorem withNext {rule : α → Rule α} (h : ∀ t, TellsAt room parent t (rule t)) :
    Tells room parent (.withNext rule) := by
  intro last rest
  cases rest with
  | nil => exact Outcome.tellsIn_idle last []
  | cons t ts => exact h t last ts

theorem many (h : ∀ t, p (Lexical.kind t) = true → TellsAt room parent t rule) :
    Tells room parent (.many p rule) :=
  forall_many Outcome.tellsIn_idle (fun _ _ ha hb => ha.join hb)
    fun t last ts hp => h t hp last ts

theorem calm (h : Tells room kind rule) (hkind : kind.hasSurplus = false)
    (hparent : parent.hasSurplus = false) : Tells room parent rule :=
  fun last rest => (h last rest).calm hkind hparent

/-- In an error node that is no surplus. -/
theorem rejected (h : Tells room .error rule) (hparent : parent.hasSurplus = false) :
    Tells room parent (.wrap .error rule) :=
  fun last rest => (h last rest).rejected (Tree.surplusIn_eq_nil hparent _)

end Tells

/-! ## Parts of statements -/

theorem value_tells {what : Missing} : Tells (α := α) room parent (value what) :=
  Tells.ifNext Tells.advance Tells.lacking

theorem extraValues_tells (hparent : parent.limitsValues = true) :
    Tells (α := α) room parent extraValues := by
  refine Tells.ifNextAt (fun t hp last ts => ?_) Tells.done
  have htells : ((acceptAll TokenKind.isValue).run room last (t :: ts)).TellsIn .error :=
    Tells.acceptAll last (t :: ts)
  refine htells.surplus rfl ?_
  -- all that is read is values
  have hvalues : ((acceptAll TokenKind.isValue).run room last (t :: ts)).trees.all Tree.isValue
      = true := by
    rw [run_acceptAll, Outcome.reading, (take_length_takeWhile _ _).1, List.all_map]
    exact List.all_takeWhile
  have hgeo : parent ≠ .geoItem := by
    rintro rfl
    cases hparent
  rw [Tree.surplusIn, if_pos rfl, if_neg hgeo, hparent, hvalues, Tree.forestLeaves_eq]
  exact SoundAt.spanning_read (SoundAt.acceptAll hp) _ last ts

theorem semicolon_tells (hparent : parent.limitsValues = true) :
    Tells (α := α) room parent semicolon :=
  Tells.andThen (extraValues_tells hparent) (Tells.ifNext Tells.advance Tells.lacking)

theorem geoOperand_tells {strict : Bool} {what : Missing} :
    Tells (α := α) room parent (geoOperand strict what) := by
  cases strict with
  | true => exact value_tells
  | false => exact Tells.accept

theorem geoEntry_tells {strict : Bool} : Tells (α := α) room parent (geoEntry strict) := by
  refine Tells.withNext fun first => Tells.tellsAt ?_
  show Tells room parent (geoEntryFrom strict first)
  obtain ⟨kind, hkind, heq⟩ := geoEntryFrom_eq strict first
  have hif : kind ≠ .ifStatement := fun h => by rw [h] at hkind; cases hkind
  have herror : kind ≠ .error := fun h => by rw [h] at hkind; cases hkind
  rcases heq with heq | ⟨what, heq⟩ <;> rw [heq]
  · exact Tells.wrap Tells.advance hif herror
  · exact Tells.wrap (Tells.andThen Tells.advance geoOperand_tells) hif herror

/-! ## Conditions -/

/-- A condition says nothing of a surplus. -/
theorem condition_tells : Tells (α := α) room parent condition :=
  Tells.wrap
    (Tells.ifNext (Tells.andThen Tells.advance value_tells)
      (Tells.andThen Tells.advance
        (Tells.ifNext (Tells.andThen Tells.advance value_tells) Tells.done)))
    (by decide) (by decide)

end Rule

/-- What is built has no conditions, so it has no surplus of them. -/
structure Outcome.Mute (a : Outcome α) : Prop where
  tells : a.TellsIn .ifStatement
  none : a.trees.filter Tree.isCondition = []

namespace Outcome

variable {a b : Outcome α}

/-- Where there are no conditions too many. -/
theorem TellsIn.tells_extraConditions (ha : a.TellsIn .ifStatement)
    (hown : Tree.extraConditions a.trees = []) : a.Tells Tree.extraConditions := by
  have hnone : a.trees.flatMap (Tree.surplusIn .ifStatement) = [] :=
    List.flatMap_eq_nil_iff.2 fun t _ => Tree.surplusIn_eq_nil rfl t
  rw [TellsIn, Tells, hnone] at ha
  rwa [Tells, hown]

/-- Where all conditions but the first are reported. -/
theorem TellsIn.report_extraConditions {i : Issue α} {last : α} {rest : List α}
    (ha : a.TellsIn .ifStatement) (hi : i.problem.isSurplus = true)
    (hown : Tree.extraConditions a.trees = [i]) :
    (a.join ⟨[], [i], last, rest⟩).Tells Tree.extraConditions := by
  have htrees : (a.join ⟨[], [i], last, rest⟩).trees = a.trees := List.append_nil _
  have hissues : (a.join ⟨[], [i], last, rest⟩).issues = a.issues ++ [i] := rfl
  have hone : [i].filter (·.problem.isSurplus) = [i] := List.filter_cons_of_pos hi
  have hnone : a.trees.flatMap (Tree.surplusIn .ifStatement) = [] :=
    List.flatMap_eq_nil_iff.2 fun t _ => Tree.surplusIn_eq_nil rfl t
  rw [TellsIn, Tells, hnone] at ha
  rw [Tells, htrees, hissues, hown, List.filter_append, hone]
  exact List.perm_append_comm.trans (ha.append_left [i])

theorem Mute.tells_extraConditions (h : a.Mute) : a.Tells Tree.extraConditions := by
  refine h.tells.tells_extraConditions ?_
  rw [Tree.extraConditions, h.none]
  rfl

theorem Mute.join (ha : a.Mute) (hb : b.Mute) : (a.join b).Mute where
  tells := ha.tells.join hb.tells
  none := by rw [Outcome.join, List.filter_append, ha.none, hb.none, List.append_nil]

theorem Mute.join_tells (ha : a.Mute) (hb : b.Tells Tree.extraConditions) :
    (a.join b).Tells Tree.extraConditions := by
  refine Tells.join ?_ ha.tells_extraConditions hb
  rw [Tree.extraConditions, Tree.extraConditions, Tree.extraConditions, List.filter_append, ha.none]
  rfl

theorem Tells.join_mute (ha : a.Tells Tree.extraConditions) (hb : b.Mute) :
    (a.join b).Tells Tree.extraConditions := by
  refine Tells.join ?_ ha hb.tells_extraConditions
  rw [Tree.extraConditions, Tree.extraConditions, Tree.extraConditions, List.filter_append, hb.none,
    List.append_nil]
  exact (List.append_nil _).symm

theorem mute_reading (n : Nat) (last : α) (rest : List α) : (reading n last rest).Mute where
  tells := tellsIn_reading n last rest
  none := by
    refine List.filter_eq_nil_iff.2 fun t ht => ?_
    obtain ⟨u, -, rfl⟩ := List.mem_map.1 ht
    exact Bool.false_ne_true

theorem mute_report {problem : Problem} {place : Place α} {last : α} {rest : List α}
    (h : problem.isSurplus = false) : Mute ⟨[], [⟨problem, place⟩], last, rest⟩ where
  tells := Rule.Tells.report h
  none := rfl

theorem Tells.wrapped_if {parent : NodeKind} (ha : a.Tells Tree.extraConditions) :
    (a.wrapped .ifStatement).TellsIn parent := by
  rw [tellsIn_wrapped_iff, Tree.surplusIn_node (by decide), Node.surplus, if_pos rfl]
  exact ha

end Outcome

namespace Rule

variable {room : Nat} {parent : NodeKind} {t : α} {problem : Problem}

/-- What is built is conditions. -/
theorem isCondition_many (last : α) (rest : List α) :
    ∀ u ∈ ((many startsCondition condition).run room last rest).trees, u.isCondition = true := by
  refine forall_many (P := fun a => ∀ u ∈ a.trees, u.isCondition = true)
    (fun _ _ => by simp [Outcome.idle]) (fun a b ha hb u hu => ?_) (fun t last ts _ u hu => ?_)
    last rest
  · exact (List.mem_append.1 hu).elim (ha u) (hb u)
  · rw [condition, run_wrap, Outcome.wrapped, List.mem_singleton] at hu
    rw [hu]
    rfl

/-- **The conditions between parentheses**: all but the first are reported together. -/
theorem conditions_tells (last : α) (rest : List α) :
    (conditions.run room last rest).Tells Tree.extraConditions := by
  refine forall_ifNext (fun t last ts _ => ?_)
    (fun last rest => (Outcome.mute_report rfl).tells_extraConditions) last rest
  have hfirst : (condition.run room last (t :: ts)).TellsIn .ifStatement := condition_tells _ _
  obtain ⟨children, htree⟩ : ∃ children,
      (condition.run room last (t :: ts)).trees = [.node .condition children] := ⟨_, rfl⟩
  rw [run_append, Outcome.followedBy]
  generalize condition.run room last (t :: ts) = a at hfirst htree
  refine forall_ifNext (P := fun b => (a.join b).Tells Tree.extraConditions)
    (fun u last us hp => ?_) (fun last rest => ?_) _ _
  · have hmore : ((many startsCondition condition).run room last (u :: us)).TellsIn .ifStatement :=
      Tells.many (fun _ _ => condition_tells.tellsAt) last (u :: us)
    have hsound : SoundAt room [] u (many startsCondition condition) :=
      SoundAt.many hp fun _ _ => condition_soundAt
    have hspan := hsound.spanning_read .extraConditions last us
    have hall : ∀ v ∈ ((many startsCondition condition).run room last (u :: us)).trees,
        v.isCondition = true := isCondition_many last (u :: us)
    show (a.join (((many startsCondition condition).run room last (u :: us)).followedBy
      ((complainSince u .extraConditions).run room))).Tells _
    generalize (many startsCondition condition).run room last (u :: us) = b at hmore hspan hall
    rw [Outcome.followedBy, ← Outcome.join_assoc]
    refine (hfirst.join hmore).report_extraConditions rfl ?_
    rw [Outcome.join, htree, List.singleton_append, Tree.extraConditions_cons hall]
    exact hspan
  · refine Outcome.Tells.join_mute (hfirst.tells_extraConditions ?_) (Outcome.mute_reading 0 last rest)
    rw [htree]
    rfl

/-! ## Statements -/

theorem setStatement_tells : Tells (α := α) room parent setStatement :=
  Tells.wrap
    (Tells.andThen Tells.advance <| Tells.andThen
      (Tells.ifNext (Tells.andThen Tells.advance value_tells) Tells.lacking)
      (semicolon_tells rfl))
    (by decide) (by decide)

theorem includeStatement_tells : Tells (α := α) room parent includeStatement :=
  Tells.wrap
    (Tells.andThen Tells.advance <| Tells.andThen value_tells (semicolon_tells rfl))
    (by decide) (by decide)

theorem scriptBody_tells (brace : α) (next : Option TokenKind) :
    Tells room parent (scriptBody brace next) := by
  have hclose : Tells room parent (closeScript brace) :=
    Tells.ifNext Tells.advance (Tells.complainAt rfl)
  unfold scriptBody
  split
  · exact Tells.andThen Tells.advance Tells.accept
  · exact Tells.andThen Tells.advance hclose
  · exact hclose

theorem luaStatement_tells : Tells (α := α) room parent luaStatement := by
  refine Tells.withNext fun keyword => Tells.tellsAt ?_
  have hlua : (luaKind keyword).isLua = true := NodeKind.isLua_ofLuaKeyword _
  have hlimits : (luaKind keyword).limitsValues = true := by
    generalize luaKind keyword = kind at hlua
    cases kind <;> first | rfl | cases hlua
  have hif : luaKind keyword ≠ .ifStatement := fun h => by rw [h] at hlua; cases hlua
  refine Tells.wrap (Tells.andThen Tells.advance (Tells.andThen ?_ (Tells.andThen
    (extraValues_tells hlimits) (Tells.ifNext ?_ ?_)))) hif (luaKind_ne_error keyword)
  · split
    · exact value_tells
    · exact Tells.done
  · exact Tells.withNext fun brace => Tells.tellsAt (Tells.andThen Tells.advance
      fun last rest => scriptBody_tells brace _ last rest)
  · exact Tells.andThen (Tells.complain rfl) Tells.accept

theorem wholeGeoItem_tells : Tells (α := α) room parent wholeGeoItem := by
  have hmore : Tells (α := α) room .geoItem (ifNext startsGeoEntry
      (.wrap .error (complainAcross .extraGeoEntries (many startsGeoEntry (geoEntry false))))
      done) := by
    refine Tells.ifNextAt (fun t hp last ts => ?_) Tells.done
    have htells : ((many startsGeoEntry (geoEntry false)).run room last (t :: ts)).TellsIn .error :=
      Tells.many (fun _ _ => geoEntry_tells.tellsAt) last (t :: ts)
    have hsound : SoundAt room [] t (many startsGeoEntry (geoEntry false)) :=
      SoundAt.many hp fun _ _ => geoEntry_soundAt
    refine htells.surplus rfl ?_
    rw [Tree.surplusIn, if_pos rfl, if_pos rfl, Tree.forestLeaves_eq]
    exact hsound.spanning_read _ last ts
  exact Tells.wrap
    (Tells.andThen geoEntry_tells (Tells.andThen hmore (Tells.ifNext Tells.advance Tells.lacking)))
    (by decide) (by decide)

theorem reject_tells (h : problem.isSurplus = false) (hparent : parent.hasSurplus = false) :
    Tells (α := α) room parent (reject problem) :=
  Tells.withNext fun _ => Tells.tellsAt <| Tells.rejected
    (Tells.andThen (Tells.complainAt h) Tells.advance) hparent

/-! ## Statements with blocks -/

/-- What the rule for blocks reports of a surplus is that of the nodes that it builds, and no block is
a surplus itself. -/
def BlocksTell (α : Type) [Lexical α] (room : Nat) : Prop :=
  ∀ (parent : NodeKind) (t : α) (shape : BlockShape), Lexical.kind t = .leftBrace →
    parent ≠ .geoItem → TellsAt room parent t (.block shape)

section Blocks

variable (hblocks : BlocksTell α room)

include hblocks

/-- Where a block may stand. -/
theorem ifBlock_tells {no : Rule α} {shape : BlockShape} (hparent : parent ≠ .geoItem)
    (hn : Tells room parent no) : Tells room parent (ifNext (· == .leftBrace) (block shape) no) :=
  Tells.ifNextAt (fun _ hp => hblocks _ _ _ (beq_iff_eq.1 hp) hparent) hn

/-- A block that may stand there is no condition. -/
theorem ifBlock_mute {no : Rule α} {shape : BlockShape}
    (hn : ∀ last rest, (no.run room last rest).Mute) (last : α) (rest : List α) :
    ((ifNext (· == .leftBrace) (block shape) no).run room last rest).Mute := by
  refine forall_ifNext (fun t last ts hp => ⟨?_, ?_⟩) hn last rest
  · exact hblocks _ _ _ (beq_iff_eq.1 hp) (by decide) last ts
  · cases room with
    | zero => rfl
    | succ room => cases shape <;> rfl

/-- **An `if`**: the conditions after the first one are reported. -/
theorem ifStatement_tells : Tells (α := α) room parent ifStatement := by
  have hlacking {what : Missing} (last : α) (rest : List α) :
      ((lacking what).run room last rest).Mute := Outcome.mute_report rfl
  have hdone (last : α) (rest : List α) : (Rule.done.run room last rest).Mute :=
    Outcome.mute_reading 0 last rest
  have hadvance (last : α) (rest : List α) : (Rule.advance.run room last rest).Mute :=
    Outcome.mute_reading 1 last rest
  intro last rest
  refine Outcome.Tells.wrapped_if ((hadvance last rest).join_tells ?_)
  refine forall_ifNext (fun t last ts _ => ?_) (fun last rest => ?_) _ _
  · refine (hadvance last _).join_tells (Outcome.Tells.join_mute (conditions_tells _ _) ?_)
    refine forall_ifNext (fun t last ts _ => ?_) (fun last rest => ?_) _ _
    · exact (hadvance last _).join (ifBlock_mute hblocks hlacking _ _)
    · exact (hlacking last rest).join (ifBlock_mute hblocks hdone _ _)
  · exact ((hlacking last rest).join (ifBlock_mute hblocks hdone _ _)).tells_extraConditions

theorem geoStatement_tells : Tells (α := α) room parent geoStatement :=
  Tells.wrap
    (Tells.andThen Tells.advance <| Tells.andThen
      (Tells.ifNext (Tells.andThen Tells.advance Tells.accept) Tells.lacking)
      (Tells.andThen (extraValues_tells rfl) (ifBlock_tells hblocks (by decide) Tells.lacking)))
    (by decide) (by decide)

theorem directive_tells (hparent : parent.hasSurplus = false) :
    Tells (α := α) room parent directive := by
  refine Tells.withNext fun name last ts => ?_
  have hbody : ((advance ++ acceptAll isArgument).run room last (name :: ts)).TellsIn .error :=
    Tells.andThen Tells.advance Tells.acceptAll last (name :: ts)
  rw [run_wrapBy]
  generalize (advance ++ acceptAll isArgument).run room last (name :: ts) = a at hbody
  have hwhole : (a.followedBy ((directiveEnd name a.nextKind).run room)).TellsIn .error := by
    refine hbody.join ?_
    rw [Outcome.nextKind]
    cases hrest : a.rest with
    | nil => exact Tells.complainSince rfl _ _
    | cons t ts =>
      rw [List.head?_cons, Option.map_some]
      unfold directiveEnd
      split
      · exact Tells.advance _ _
      · next hk => exact hblocks _ _ _ (Option.some.inj hk) (by decide) _ _
      · exact Tells.complainSince rfl _ _
  unfold directiveKind
  split
  · exact (hwhole.calm rfl rfl).wrapped (by decide) (by decide)
  · exact (hwhole.calm rfl rfl).wrapped (by decide) (by decide)
  · exact hwhole.rejected (Tree.surplusIn_eq_nil hparent _)

theorem statement_tells (hparent : parent.hasSurplus = false) :
    Tells (α := α) room parent statement := by
  refine Tells.withNext fun first => ?_
  unfold statementFrom
  split
  · exact (ifStatement_tells hblocks).tellsAt
  · exact setStatement_tells.tellsAt
  · exact includeStatement_tells.tellsAt
  · exact (geoStatement_tells hblocks).tellsAt
  · exact luaStatement_tells.tellsAt
  · exact (directive_tells hblocks hparent).tellsAt
  · exact (directive_tells hblocks hparent).tellsAt
  · exact (directive_tells hblocks hparent).tellsAt
  · next hk =>
    intro last ts
    have hblock : ((block .plain).run room last (first :: ts)).TellsIn .error :=
      hblocks _ _ _ hk (by decide) last ts
    exact Outcome.TellsIn.rejected ((Tells.report rfl).join hblock)
      (Tree.surplusIn_eq_nil hparent _)
  · exact (Tells.rejected Tells.advance hparent).tellsAt
  · exact (reject_tells rfl hparent).tellsAt

theorem geoItem_tells (hparent : parent.hasSurplus = false) :
    Tells (α := α) room parent geoItem := by
  refine Tells.withNext fun first => Tells.tellsAt ?_
  unfold geoItemFrom
  split
  · exact wholeGeoItem_tells
  · exact wholeGeoItem_tells
  · exact wholeGeoItem_tells
  · exact wholeGeoItem_tells
  · exact reject_tells rfl hparent
  · exact Tells.rejected Tells.advance hparent
  · exact Tells.rejected (Tells.andThen (Tells.complainAt rfl) (statement_tells hblocks rfl)) hparent

theorem braced_tells (brace : α) (shape : BlockShape) :
    Tells room shape.kind (braced brace shape) := by
  have hitem : Tells (α := α) room shape.kind (item shape) := by
    cases shape with
    | plain => exact statement_tells hblocks rfl
    | geo => exact geoItem_tells hblocks rfl
  exact Tells.andThen Tells.advance (Tells.andThen (Tells.many fun _ _ => hitem.tellsAt)
    (Tells.ifNext Tells.advance (Tells.complainAt rfl)))

end Blocks

/-- **Blocks, however much room there is.** -/
theorem blocksTell (room : Nat) : BlocksTell α room := by
  induction room with
  | zero =>
    intro parent t shape ht hparent last ts
    refine Outcome.TellsIn.rejected ((Tells.report rfl).join (Outcome.tellsIn_reading _ _ _)) ?_
    have hbrace : ((List.take (groupLength 0 (t :: ts)) (t :: ts)).map Tree.leaf).all Tree.isValue
        = false := by
      rw [groupLength_leftBrace ht, List.take_succ_cons, List.map_cons, List.all_cons, Tree.isValue,
        ht]
      rfl
    rw [Tree.surplusIn, if_pos rfl, if_neg hparent]
    refine if_neg fun hall => ?_
    exact Bool.false_ne_true (hbrace.symm.trans (Bool.and_eq_true_iff.1 hall).2)
  | succ room ih =>
    intro parent t shape _ _ last ts
    have hkind : shape.kind ≠ .ifStatement ∧ shape.kind ≠ .error := by cases shape <;> decide
    exact Outcome.TellsIn.wrapped (braced_tells ih t shape last (t :: ts)) hkind.1 hkind.2

end Rule

/-- **What is reported of a surplus in a file can be read off its nodes.** -/
theorem Outcome.tells_file (last : α) (tokens : List α) :
    ((Rule.file.run maxDepth last tokens).issues.filter (·.problem.isSurplus)).Perm
      ((Tree.forestSubnodes (Rule.file.run maxDepth last tokens).trees).flatMap Node.surplus) := by
  have hitem : Rule.Tells (α := α) maxDepth .sourceFile .topStatement :=
    Rule.Tells.ifNext (Rule.reject_tells rfl rfl) (Rule.statement_tells (Rule.blocksTell _) rfl)
  have htells : (Rule.file.run maxDepth last tokens).TellsIn .sourceFile :=
    Rule.Tells.many (fun _ _ => hitem.tellsAt) last tokens
  have hnone : (Rule.file.run maxDepth last tokens).trees.flatMap (Tree.surplusIn .sourceFile) = [] :=
    List.flatMap_eq_nil_iff.2 fun t _ => Tree.surplusIn_eq_nil rfl t
  rw [Outcome.TellsIn, Outcome.Tells, hnone] at htells
  exact htells

end NginxConf
