import NginxConf.Proofs.Grammar.Blocks
import NginxConf.Proofs.Grammar.Sound

/-!
# Which rule has built a node

A node is built in one step of a run: by one of the rules in `Rule.MakesNode`, which also says what
is known of the token that comes next. So whatever is to be shown of the nodes of one kind is shown
of the runs of one rule (`Runs.exists_origin`). The reports that are made elsewhere do not begin at a
token of the node, its first one apart.
-/

namespace NginxConf

variable {α : Type}

/-- What is built as one node, where a place in it is looked for. -/
theorem Tree.eq_of_singleton_eq_fill {kind kind' : NodeKind} {trees children before after : List (Tree α)}
    {frames : List (Frame α)}
    (h : [.node kind trees] = before ++ fill frames (.node kind' children) :: after) :
    before = [] ∧ after = [] ∧ ((frames = [] ∧ kind = kind' ∧ trees = children) ∨
      ∃ before after more, frames = ⟨kind, before, after⟩ :: more ∧
        trees = before ++ fill more (.node kind' children) :: after) := by
  obtain ⟨hbefore, hnode, hafter⟩ := singleton_eq_append_cons h
  refine ⟨hbefore, hafter, ?_⟩
  cases frames with
  | nil => exact .inl ⟨rfl, Tree.node.inj hnode⟩
  | cons frame frames =>
    obtain ⟨rfl, htrees⟩ := Tree.node.inj hnode
    exact .inr ⟨frame.before, frame.after, frames, rfl, htrees⟩

/-- There is no node among tokens. -/
theorem Tree.leaves_ne_fill {kind : NodeKind} {us : List α} {children before after : List (Tree α)}
    {frames : List (Frame α)} :
    us.map leaf ≠ before ++ fill frames (.node kind children) :: after := by
  intro h
  have hmem : fill frames (.node kind children) ∈ us.map leaf :=
    h ▸ List.mem_append_right _ List.mem_cons_self
  obtain ⟨x, -, hx⟩ := List.mem_map.1 hmem
  exact fill_ne_leaf _ _ _ _ hx.symm

/-- The leaves before a hole in one of some trees. -/
def Tree.lead (before : List (Tree α)) (frames : List (Frame α)) : List α :=
  before.flatMap leaves ++ leavesBefore frames

/-- The leaves after a hole in one of some trees. -/
def Tree.tail (frames : List (Frame α)) (after : List (Tree α)) : List α :=
  leavesAfter frames ++ after.flatMap leaves

@[simp]
theorem Tree.lead_nil : lead ([] : List (Tree α)) [] = [] := rfl

variable [Lexical α]

namespace Rule

/-! ## The rules that build nodes -/

/-- The statement that a keyword with a script begins. -/
def luaFrom (keyword : α) : Rule α :=
  wrap (luaKind keyword) (seq
    [advance,
      if luaKind keyword = .setLua then value .luaVariable else done,
      extraValues,
      ifNext (· == .leftBrace)
        script
        (complain (.scriptWithoutBlock (Lexical.text keyword)) ++ accept (· == .semicolon))])

/-- The directive of a name. -/
def directiveFrom (name : α) : Rule α :=
  wrapBy (advance ++ acceptAll isArgument) directiveKind (directiveEnd name)

/-- What an entry of a geo block says that begins with a token. -/
def geoEntryFrom (strict : Bool) (first : α) : Rule α :=
  if Lexical.kind first = .includeKeyword then
    wrap .geoInclude (advance ++ geoOperand strict .pathToInclude)
  else if geoKeyword first = "default" then
    wrap .geoDefault (advance ++ geoOperand strict .geoDefault)
  else if geoKeyword first = "delete" then
    wrap .geoDelete (advance ++ geoOperand strict .geoNetwork)
  else if geoKeyword first = "proxy" then
    wrap .geoProxy (advance ++ geoOperand strict .geoProxy)
  else if geoKeyword first = "proxy_recursive" then wrap .geoProxy advance
  else if geoKeyword first = "ranges" then wrap .geoRanges advance
  else wrap .geoValue (advance ++ geoOperand strict .geoValue)

theorem geoEntry_eq (strict : Bool) : geoEntry (α := α) strict = withNext (geoEntryFrom strict) :=
  rfl

/-- What an entry of a geo block says is one word, or one word with an operand. -/
theorem geoEntryFrom_eq (strict : Bool) (first : α) : ∃ kind : NodeKind, kind.isGeoEntry = true ∧
    (geoEntryFrom strict first = wrap kind advance ∨
      ∃ what, geoEntryFrom strict first = wrap kind (advance ++ geoOperand strict what)) := by
  unfold geoEntryFrom
  split
  · exact ⟨_, rfl, .inr ⟨_, rfl⟩⟩
  split
  · exact ⟨_, rfl, .inr ⟨_, rfl⟩⟩
  split
  · exact ⟨_, rfl, .inr ⟨_, rfl⟩⟩
  split
  · exact ⟨_, rfl, .inr ⟨_, rfl⟩⟩
  split
  · exact ⟨_, rfl, .inl rfl⟩
  split
  · exact ⟨_, rfl, .inl rfl⟩
  · exact ⟨_, rfl, .inr ⟨_, rfl⟩⟩

/-- The rule builds one node, where the next token is this one. -/
inductive MakesNode : Option α → Rule α → Prop
  | directive {t} (h : (Lexical.kind t).isValue = true) : MakesNode (some t) (directiveFrom t)
  | ifStatement {t} (h : Lexical.kind t = .ifKeyword) : MakesNode (some t) ifStatement
  | condition {t} (h : startsCondition (Lexical.kind t) = true) : MakesNode (some t) condition
  | setStatement {t} (h : Lexical.kind t = .setKeyword) : MakesNode (some t) setStatement
  | includeStatement {t} (h : Lexical.kind t = .includeKeyword) :
    MakesNode (some t) includeStatement
  | luaStatement {t} (h : Lexical.kind t = .luaKeyword) : MakesNode (some t) (luaFrom t)
  | geoStatement {t} (h : Lexical.kind t = .geoKeyword) : MakesNode (some t) geoStatement
  | geoItem {t} (h : startsGeoEntry (Lexical.kind t) = true) : MakesNode (some t) wholeGeoItem
  | geoEntry {t strict} (h : startsGeoEntry (Lexical.kind t) = true) :
    MakesNode (some t) (geoEntryFrom strict t)
  /-- A block, or the error node that it becomes where there is no room for it. -/
  | block {t shape} (h : Lexical.kind t = .leftBrace) : MakesNode (some t) (.block shape)
  /-- Values that a statement has no room for. -/
  | extraValues {t} (h : (Lexical.kind t).isValue = true) : MakesNode (some t)
    (.wrap .error (complainAcross .extraValues (acceptAll TokenKind.isValue)))
  /-- Entries of a geo block before the `;` of another one. -/
  | extraGeoEntries {t} (h : startsGeoEntry (Lexical.kind t) = true) : MakesNode (some t)
    (.wrap .error (complainAcross .extraGeoEntries (many startsGeoEntry (.geoEntry false))))
  /-- A token out of place. -/
  | reject {t problem} (h : Lexical.kind t ≠ .leftBrace) :
    MakesNode (some t) (.wrap .error (complainAt t problem ++ advance))
  | malformed {t} (h : Lexical.kind t = .malformed) : MakesNode (some t) (.wrap .error advance)
  | namelessBlock {t} (h : Lexical.kind t = .leftBrace) :
    MakesNode (some t) (.wrap .error (complainAt t .namelessBlock ++ .block .plain))
  | notAGeoItem {t} : MakesNode (some t) (.wrap .error (complainAt t .notAGeoItem ++ statement))

/-- What rule builds a node of some kind, where the next token is this one. -/
def Makes (t : α) (rule : Rule α) : NodeKind → Prop
  | .directive => (Lexical.kind t).isValue = true ∧ rule = directiveFrom t
  | .ifStatement => Lexical.kind t = .ifKeyword ∧ rule = ifStatement
  | .condition => startsCondition (Lexical.kind t) = true ∧ rule = condition
  | .setStatement => Lexical.kind t = .setKeyword ∧ rule = setStatement
  | .includeStatement => Lexical.kind t = .includeKeyword ∧ rule = includeStatement
  | .geoStatement => Lexical.kind t = .geoKeyword ∧ rule = geoStatement
  | .geoItem => startsGeoEntry (Lexical.kind t) = true ∧ rule = wholeGeoItem
  | .geoDefault | .geoDelete | .geoInclude | .geoProxy | .geoRanges | .geoValue =>
    startsGeoEntry (Lexical.kind t) = true ∧ ∃ strict, rule = geoEntryFrom strict t
  | .accessLua | .contentLua | .uriLua | .setLua | .sslCertificateLua | .otherLua =>
    Lexical.kind t = .luaKeyword ∧ rule = luaFrom t
  | .block => Lexical.kind t = .leftBrace ∧ rule = .block .plain
  | .geoBlock => Lexical.kind t = .leftBrace ∧ rule = .block .geo
  | .error => True
  | .sourceFile | .tombstone => False

theorem makes_of_isLua {t : α} {kind : NodeKind} (hkind : kind.isLua = true)
    (h : Lexical.kind t = .luaKeyword) : (luaFrom t).Makes t kind := by
  cases kind <;> first | exact ⟨h, rfl⟩ | cases hkind

theorem makes_of_isGeoEntry {t : α} {strict : Bool} {kind : NodeKind}
    (hkind : kind.isGeoEntry = true) (h : startsGeoEntry (Lexical.kind t) = true) :
    (geoEntryFrom strict t).Makes t kind := by
  cases kind <;> first | exact ⟨h, strict, rfl⟩ | cases hkind

/-- **The kind of a node tells which rule has built it.** -/
theorem MakesNode.makes {next : Option α} {rule : Rule α} (h : MakesNode next rule) {room : Nat}
    {last : α} {here : List α} {kind : NodeKind} {children : List (Tree α)}
    (hnext : here.head? = next) (ht : (rule.run room last here).trees = [.node kind children]) :
    ∃ t ts, here = t :: ts ∧ rule.Makes t kind := by
  have hkind {k : NodeKind} {ts : List (Tree α)} (h : [Tree.node k ts] = [.node kind children]) :
      kind = k := (Tree.node.inj (List.singleton_inj.1 h)).1.symm
  cases h with
  | @directive t h =>
    obtain ⟨ts, rfl⟩ := List.head?_eq_some_iff.1 hnext
    refine ⟨t, ts, rfl, ?_⟩
    rw [hkind ht]
    unfold directiveKind
    split
    · exact ⟨h, rfl⟩
    · exact ⟨h, rfl⟩
    · trivial
  | @luaStatement t h =>
    obtain ⟨ts, rfl⟩ := List.head?_eq_some_iff.1 hnext
    refine ⟨t, ts, rfl, ?_⟩
    rw [hkind ht]
    exact makes_of_isLua (NodeKind.isLua_ofLuaKeyword _) h
  | @geoEntry t strict h =>
    obtain ⟨ts, rfl⟩ := List.head?_eq_some_iff.1 hnext
    obtain ⟨k, hk, heq⟩ := geoEntryFrom_eq strict t
    have hentry : kind = k := by
      rcases heq with heq | ⟨what, heq⟩ <;> rw [heq] at ht <;> exact hkind ht
    exact ⟨t, ts, rfl, makes_of_isGeoEntry (hentry ▸ hk) h⟩
  | @block t shape h =>
    obtain ⟨ts, rfl⟩ := List.head?_eq_some_iff.1 hnext
    refine ⟨t, ts, rfl, ?_⟩
    cases room with
    | zero => rw [hkind ht]; trivial
    | succ room =>
      rw [hkind ht]
      cases shape <;> exact ⟨h, rfl⟩
  | @ifStatement t h | @condition t h | @setStatement t h | @includeStatement t h
  | @geoStatement t h | @geoItem t h =>
    obtain ⟨ts, rfl⟩ := List.head?_eq_some_iff.1 hnext
    refine ⟨t, ts, rfl, ?_⟩
    rw [hkind ht]
    exact ⟨h, rfl⟩
  | @extraValues t | @extraGeoEntries t | @reject t | @malformed t | @namelessBlock t
  | @notAGeoItem t =>
    obtain ⟨ts, rfl⟩ := List.head?_eq_some_iff.1 hnext
    refine ⟨t, ts, rfl, ?_⟩
    rw [hkind ht]
    trivial

/-- All nodes that the rule builds are built by such rules, where the next token is this one. -/
def NodesIn : Rule α → Option α → Prop
  | andThen first second, next => first.NodesIn next ∧ ∀ next, second.NodesIn next
  | wrap kind rule, next => MakesNode next (.wrap kind rule) ∧ rule.NodesIn next
  | withNext rule, next => ∀ t, next = some t → (rule t).NodesIn (some t)
  | peek rule, next => (rule (next.map Lexical.kind)).NodesIn next
  | wrapBy start kind finish, next => MakesNode next (.wrapBy start kind finish) ∧
    start.NodesIn next ∧ ∀ kind next, (finish kind).NodesIn next
  | many p item, _ => ∀ t, p (Lexical.kind t) = true → item.NodesIn (some t)
  | _, _ => True

/-! ## The rules of the grammar -/

variable {next : Option α} {t : α} {yes no : Rule α} {p : TokenKind → Bool}

theorem nodesIn_ifNext (hy : ∀ t, next = some t → p (Lexical.kind t) = true → yes.NodesIn (some t))
    (hn : no.NodesIn next) : (ifNext p yes no).NodesIn next := by
  show NodesIn (if (next.map Lexical.kind).any p then yes else no) next
  split
  · next h =>
    obtain ⟨t, rfl⟩ := Option.ne_none_iff_exists'.1 (show next ≠ none by rintro rfl; cases h)
    exact hy t rfl h
  · exact hn

theorem nodesIn_withNext {rule : α → Rule α} (h : (rule t).NodesIn (some t)) :
    (Rule.withNext rule).NodesIn (some t) := by
  intro u hu
  cases hu
  exact h

theorem nodesIn_accept : (accept p).NodesIn next := nodesIn_ifNext (fun _ _ _ => trivial) trivial

theorem nodesIn_value {what : Missing} : (value what).NodesIn next :=
  nodesIn_ifNext (fun _ _ _ => trivial) trivial

theorem nodesIn_reject {problem : Problem} (h : Lexical.kind t ≠ .leftBrace) :
    (Rule.reject problem).NodesIn (some t) :=
  nodesIn_withNext ⟨.reject h, trivial, fun _ => trivial⟩

theorem nodesIn_extraValues : (extraValues (α := α)).NodesIn next :=
  nodesIn_ifNext
    (fun _ _ hp => ⟨.extraValues hp, fun _ _ => ⟨trivial, fun _ => trivial⟩⟩) trivial

theorem nodesIn_semicolon : (semicolon (α := α)).NodesIn next :=
  ⟨nodesIn_extraValues, fun _ => nodesIn_ifNext (fun _ _ _ => trivial) trivial⟩

/-- Where a block may stand. -/
theorem nodesIn_ifBlock {shape : BlockShape} (hn : no.NodesIn next) :
    (ifNext (· == .leftBrace) (.block shape) no).NodesIn next :=
  nodesIn_ifNext (fun _ _ _ => trivial) hn

theorem nodesIn_setStatement (h : Lexical.kind t = .setKeyword) :
    setStatement.NodesIn (some t) :=
  ⟨.setStatement h, trivial, fun _ => ⟨nodesIn_ifNext
    (fun _ _ _ => ⟨trivial, fun _ => nodesIn_value⟩) trivial, fun _ => nodesIn_semicolon⟩⟩

theorem nodesIn_includeStatement (h : Lexical.kind t = .includeKeyword) :
    includeStatement.NodesIn (some t) :=
  ⟨.includeStatement h, trivial, fun _ => ⟨nodesIn_value, fun _ => nodesIn_semicolon⟩⟩

theorem nodesIn_condition (h : startsCondition (Lexical.kind t) = true) :
    condition.NodesIn (some t) :=
  ⟨.condition h, nodesIn_ifNext (fun _ _ _ => ⟨trivial, fun _ => nodesIn_value⟩)
    ⟨trivial, fun _ => nodesIn_ifNext (fun _ _ _ => ⟨trivial, fun _ => nodesIn_value⟩) trivial⟩⟩

theorem nodesIn_conditions : (conditions (α := α)).NodesIn next :=
  nodesIn_ifNext (fun _ _ hp => ⟨nodesIn_condition hp, fun _ => nodesIn_ifNext
    (fun _ _ _ _ _ => ⟨fun _ hp => nodesIn_condition hp, fun _ => trivial⟩) trivial⟩) trivial

theorem nodesIn_ifStatement (h : Lexical.kind t = .ifKeyword) : ifStatement.NodesIn (some t) := by
  refine ⟨.ifStatement h, trivial, fun _ => nodesIn_ifNext (fun _ _ _ => ?_) ?_⟩
  · refine ⟨trivial, fun _ => ⟨nodesIn_conditions, fun _ => nodesIn_ifNext (fun _ _ _ => ?_) ?_⟩⟩
    · exact ⟨trivial, fun _ => nodesIn_ifBlock trivial⟩
    · exact ⟨trivial, fun _ => nodesIn_ifBlock trivial⟩
  · exact ⟨trivial, fun _ => nodesIn_ifBlock trivial⟩

theorem nodesIn_script : (script (α := α)).NodesIn next := by
  refine fun brace _ => ⟨trivial, fun next => ?_⟩
  show NodesIn (scriptBody brace (next.map Lexical.kind)) next
  unfold scriptBody
  split
  · exact ⟨trivial, fun _ => nodesIn_accept⟩
  · exact ⟨trivial, fun _ => nodesIn_ifNext (fun _ _ _ => trivial) trivial⟩
  · exact nodesIn_ifNext (fun _ _ _ => trivial) trivial

theorem nodesIn_luaStatement (h : Lexical.kind t = .luaKeyword) :
    luaStatement.NodesIn (some t) := by
  refine nodesIn_withNext ⟨.luaStatement h, trivial, fun _ => ⟨?_, fun _ => ⟨nodesIn_extraValues, fun _ =>
    nodesIn_ifNext (fun _ _ _ => nodesIn_script) ⟨trivial, fun _ => nodesIn_accept⟩⟩⟩⟩
  split
  · exact nodesIn_value
  · trivial

theorem nodesIn_geoStatement (h : Lexical.kind t = .geoKeyword) : geoStatement.NodesIn (some t) :=
  ⟨.geoStatement h, trivial, fun _ => ⟨nodesIn_ifNext
    (fun _ _ _ => ⟨trivial, fun _ => nodesIn_accept⟩) trivial, fun _ =>
      ⟨nodesIn_extraValues, fun _ => nodesIn_ifBlock trivial⟩⟩⟩

theorem nodesIn_directive (h : (Lexical.kind t).isValue = true) : directive.NodesIn (some t) := by
  refine nodesIn_withNext ⟨.directive h, ⟨trivial, fun _ => trivial⟩, fun kind next => ?_⟩
  unfold directiveEnd
  split <;> trivial

theorem nodesIn_geoOperand {strict : Bool} {what : Missing} :
    (geoOperand strict what).NodesIn next := by
  cases strict with
  | true => exact nodesIn_value
  | false => exact nodesIn_accept

theorem nodesIn_geoEntry {strict : Bool} (h : startsGeoEntry (Lexical.kind t) = true) :
    (Rule.geoEntry strict).NodesIn (some t) := by
  have hbuilds : MakesNode (some t) (geoEntryFrom strict t) := .geoEntry h
  refine nodesIn_withNext ?_
  show (geoEntryFrom strict t).NodesIn (some t)
  obtain ⟨kind, -, heq | ⟨what, heq⟩⟩ := geoEntryFrom_eq strict t
  · rw [heq] at hbuilds ⊢
    exact ⟨hbuilds, trivial⟩
  · rw [heq] at hbuilds ⊢
    exact ⟨hbuilds, trivial, fun _ => nodesIn_geoOperand⟩

theorem nodesIn_wholeGeoItem (h : startsGeoEntry (Lexical.kind t) = true) :
    wholeGeoItem.NodesIn (some t) := by
  refine ⟨.geoItem h, nodesIn_geoEntry h, fun _ => ⟨nodesIn_ifNext (fun _ _ hp => ?_) trivial,
    fun _ => nodesIn_ifNext (fun _ _ _ => trivial) trivial⟩⟩
  exact ⟨.extraGeoEntries hp, fun _ _ => ⟨fun _ hp => nodesIn_geoEntry hp, fun _ => trivial⟩⟩

theorem nodesIn_statement : statement.NodesIn (some t) := by
  refine nodesIn_withNext ?_
  unfold statementFrom
  split
  · next h => exact nodesIn_ifStatement h
  · next h => exact nodesIn_setStatement h
  · next h => exact nodesIn_includeStatement h
  · next h => exact nodesIn_geoStatement h
  · next h => exact nodesIn_luaStatement h
  · next h => exact nodesIn_directive (by rw [h]; rfl)
  · next h => exact nodesIn_directive (by rw [h]; rfl)
  · next h => exact nodesIn_directive (by rw [h]; rfl)
  · next h => exact ⟨.namelessBlock h, trivial, fun _ => trivial⟩
  · next h => exact ⟨.malformed h, trivial⟩
  · next h _ => exact nodesIn_reject h

theorem nodesIn_geoItem : Rule.geoItem.NodesIn (some t) := by
  refine nodesIn_withNext ?_
  unfold geoItemFrom
  split
  · next h => exact nodesIn_wholeGeoItem (by rw [h]; rfl)
  · next h => exact nodesIn_wholeGeoItem (by rw [h]; rfl)
  · next h => exact nodesIn_wholeGeoItem (by rw [h]; rfl)
  · next h => exact nodesIn_wholeGeoItem (by rw [h]; rfl)
  · next h => exact nodesIn_reject (by rw [h]; decide)
  · next h => exact ⟨.malformed h, trivial⟩
  · exact ⟨.notAGeoItem, trivial, fun next => by
      cases next with
      | none => exact nofun
      | some u => exact nodesIn_statement⟩

theorem nodesIn_braced (brace : α) : (shape : BlockShape) → (braced brace shape).NodesIn next
  | .plain => ⟨trivial, fun _ => ⟨fun _ _ => nodesIn_statement, fun _ =>
      nodesIn_ifNext (fun _ _ _ => trivial) trivial⟩⟩
  | .geo => ⟨trivial, fun _ => ⟨fun _ _ => nodesIn_geoItem, fun _ =>
      nodesIn_ifNext (fun _ _ _ => trivial) trivial⟩⟩

/-- **All nodes of a file are built by the rules for nodes.** -/
theorem nodesIn_file : (file (α := α)).NodesIn next := by
  intro t _
  refine nodesIn_ifNext (fun u _ hp => nodesIn_reject ?_) nodesIn_statement
  rw [beq_iff_eq.1 hp]
  decide

end Rule

/-! ## The run that has built a node -/

/-- The run that has built a node, which is found in a hole of what a run has built. -/
structure Runs.Origin (room : Nat) (known seen rest : List α) (issues : List (Issue α))
    (before : List (Tree α)) (frames : List (Frame α)) (node : Tree α) (after : List (Tree α))
    (inner : Nat) (known' : List α) (rule : Rule α) (last : α) (here : List α) (b : Outcome α) :
    Prop where
  room_eq : room = inner + Frame.blocks frames
  rest_eq : rest = Tree.lead before frames ++ here
  runs : Runs inner known' (seen ++ Tree.lead before frames) rule last here b
  builds : rule.MakesNode here.head?
  trees : b.trees = [node]
  /-- What else has been reported begins outside of the node, or at its first token. -/
  issues_eq : ∃ pre post, issues = pre ++ b.issues ++ post ∧
    ∀ i ∈ pre ++ post, ∀ first last, i.place = .across first last →
      first ∈ known ∨ first ∈ Tree.lead before frames ∨ first ∈ here.head? ∨
        first ∈ Tree.tail frames after

namespace Runs.Origin

variable {room inner : Nat} {known known' seen rest here : List α} {issues more : List (Issue α)}
  {before after trees : List (Tree α)} {frames : List (Frame α)} {node : Tree α} {rule : Rule α}
  {last : α} {b : Outcome α}

/-- More is built afterwards. -/
theorem followed (h : Origin room known seen rest issues before frames node after inner known' rule
      last here b)
    (hmore : ∀ i ∈ more, ∀ first last, i.place = .across first last →
      first ∈ known ++ trees.flatMap Tree.leaves) :
    Origin room known seen rest (issues ++ more) before frames node (after ++ trees) inner known'
      rule last here b := by
  obtain ⟨pre, post, rfl, hissues⟩ := h.issues_eq
  refine { h with issues_eq := ⟨pre, post ++ more, by simp, fun i hi first last hplace => ?_⟩ }
  rw [← List.append_assoc, List.mem_append] at hi
  rw [Tree.tail, List.flatMap_append, ← List.append_assoc, List.mem_append]
  rcases hi with hi | hi
  · rcases hissues i hi first last hplace with h | h | h | h
    · exact .inl h
    · exact .inr (.inl h)
    · exact .inr (.inr (.inl h))
    · exact .inr (.inr (.inr (.inl h)))
  · rcases List.mem_append.1 (hmore i hi first last hplace) with h | h
    · exact .inl h
    · exact .inr (.inr (.inr (.inr h)))

/-- More has been built before. -/
theorem preceded {a : Outcome α} (h : Origin room known (seen ++ a.read) a.rest issues before frames
      node after inner known' rule last here b)
    (hread : a.read ++ a.rest = rest)
    (hmore : ∀ i ∈ a.issues, ∀ first last, i.place = .across first last →
      first ∈ known ++ a.read) :
    Origin room known seen rest (a.issues ++ issues) (a.trees ++ before) frames node after inner
      known' rule last here b := by
  have hlead : Tree.lead (a.trees ++ before) frames = a.read ++ Tree.lead before frames := by
    rw [Tree.lead, List.flatMap_append, List.append_assoc]
    rfl
  obtain ⟨pre, post, hsplit, hissues⟩ := h.issues_eq
  refine ⟨h.room_eq, ?_, ?_, h.builds, h.trees, a.issues ++ pre, post, by simp [hsplit], ?_⟩
  · rw [hlead, ← hread, h.rest_eq, List.append_assoc]
  · rw [hlead, ← List.append_assoc]
    exact h.runs
  · intro i hi first last hplace
    rw [hlead, List.mem_append]
    rw [List.append_assoc, List.mem_append] at hi
    rcases hi with hi | hi
    · exact (List.mem_append.1 (hmore i hi first last hplace)).imp_right fun h => .inl (.inl h)
    · exact (hissues i hi first last hplace).imp_right (Or.imp_left .inr)

/-- A node is built around. -/
theorem wrapped {room' : Nat} {kind : NodeKind} (h : Origin room known seen rest issues before frames
      node after inner known' rule last here b)
    (hroom : room' = room + if kind.isBlock then 1 else 0) :
    Origin room' known seen rest issues [] (⟨kind, before, after⟩ :: frames) node [] inner known'
      rule last here b := by
  have htail : Tree.tail (⟨kind, before, after⟩ :: frames) [] = Tree.tail frames after := by
    rw [Tree.tail, Tree.leavesAfter_cons, List.flatMap_nil, List.append_nil]
    rfl
  refine ⟨?_, h.rest_eq, h.runs, h.builds, h.trees, ?_⟩
  · rw [Frame.blocks_cons, hroom, h.room_eq, Nat.add_assoc]
  · rw [htail]
    exact h.issues_eq

theorem mono {more : List α} (h : Origin room known seen rest issues before frames node after inner
      known' rule last here b) (hknown : known ⊆ more) :
    Origin room more seen rest issues before frames node after inner known' rule last here b := by
  obtain ⟨pre, post, hsplit, hissues⟩ := h.issues_eq
  exact { h with issues_eq := ⟨pre, post, hsplit, fun i hi _ _ hplace =>
    (hissues i hi _ _ hplace).imp_left fun h => hknown h⟩ }

/-- The token that comes next is known. -/
theorem forget {t : α} {ts : List α} (h : Origin room (t :: known) seen (t :: ts) issues before
      frames node after inner known' rule last here b) :
    Origin room known seen (t :: ts) issues before frames node after inner known' rule last here
      b := by
  obtain ⟨pre, post, hsplit, hissues⟩ := h.issues_eq
  refine { h with issues_eq := ⟨pre, post, hsplit, fun i hi first last hplace => ?_⟩ }
  rcases hissues i hi first last hplace with hknown | hother
  · rcases List.mem_cons.1 hknown with rfl | hknown
    · have hrest := h.rest_eq
      cases hlead : Tree.lead before frames with
      | nil =>
        rw [hlead] at hrest
        exact .inr (.inr (.inl (by rw [← show first :: ts = here from hrest]; rfl)))
      | cons u us =>
        rw [hlead] at hrest
        obtain ⟨rfl, -⟩ := List.cons.inj hrest
        exact .inr (.inl List.mem_cons_self)
    · exact .inl hknown
  · exact .inr hother

end Runs.Origin

/-- What a run reports begins at a token that is known or that it reads. -/
theorem Runs.first_mem {room : Nat} {known seen : List α} {rule : Rule α} {last : α} {rest : List α}
    {a : Outcome α} (h : Runs room known seen rule last rest a) {i : Issue α} (hi : i ∈ a.issues)
    {first last : α} (hplace : i.place = .across first last) : first ∈ known ++ a.read := by
  have hamong := h.place_among i hi
  rw [hplace] at hamong
  exact hamong.1

/-- **A node anywhere below is what one of the rules for nodes has built there.** -/
theorem Runs.exists_origin {room : Nat} {known seen : List α} {rule : Rule α} {last : α}
    {rest : List α} {a : Outcome α} (h : Runs room known seen rule last rest a)
    (hrule : rule.NodesIn rest.head?) {before after children : List (Tree α)}
    {frames : List (Frame α)} {kind : NodeKind}
    (ht : a.trees = before ++ Tree.fill frames (.node kind children) :: after) :
    ∃ inner known' rule' last' here b, Runs.Origin room known seen rest a.issues before frames
      (.node kind children) after inner known' rule' last' here b := by
  -- the node is built by the last step of the run
  have hself {room : Nat} {known seen : List α} {rule : Rule α} {last : α} {rest : List α}
      {a : Outcome α} (ha : Runs room known seen rule last rest a)
      (hbuilds : rule.MakesNode rest.head?) (htrees : a.trees = [.node kind children]) :
      Runs.Origin room known seen rest a.issues [] [] (.node kind children) [] room known rule last
        rest a :=
    ⟨rfl, rfl, by rwa [Tree.lead_nil, List.append_nil], hbuilds, htrees, [], [], by simp,
      fun i hi => absurd hi List.not_mem_nil⟩
  induction h generalizing before frames after with
  | done | complain | complainSince | complainAt | atEnd | manyStop => simp [Outcome.idle] at ht
  | advance | acceptAll | rawGroup => exact absurd ht Tree.leaves_ne_fill
  | andThen ha hb iha ihb =>
    rcases append_eq_append_cons ht with ⟨more, htrees, rfl⟩ | ⟨more, rfl, htrees⟩
    · obtain ⟨_, _, _, _, _, _, horigin⟩ := iha hrule.1 htrees
      exact ⟨_, _, _, _, _, _, horigin.followed fun i hi _ _ hplace => hb.first_mem hi hplace⟩
    · obtain ⟨_, _, _, _, _, _, horigin⟩ := ihb (hrule.2 _) htrees
      exact ⟨_, _, _, _, _, _, horigin.preceded ha.read_append_rest
        fun i hi _ _ hplace => ha.first_mem hi hplace⟩
  | manyStep hp ha _ hb iha ihb =>
    rcases append_eq_append_cons ht with ⟨more, htrees, rfl⟩ | ⟨more, rfl, htrees⟩
    · obtain ⟨_, _, _, _, _, _, horigin⟩ := iha (hrule _ hp) htrees
      exact ⟨_, _, _, _, _, _, horigin.followed fun i hi _ _ hplace => hb.first_mem hi hplace⟩
    · obtain ⟨_, _, _, _, _, _, horigin⟩ := ihb hrule htrees
      exact ⟨_, _, _, _, _, _, horigin.preceded ha.read_append_rest
        fun i hi _ _ hplace => ha.first_mem hi hplace⟩
  | withNext _ _ ih =>
    obtain ⟨_, _, _, _, _, _, horigin⟩ := ih (hrule _ rfl) ht
    exact ⟨_, _, _, _, _, _, horigin.forget⟩
  | peek _ ih =>
    refine ih ?_ ht
    exact hrule
  | wrap hk ha ih =>
    obtain ⟨rfl, rfl, ⟨rfl, rfl, htrees⟩ | ⟨_, _, _, rfl, htrees⟩⟩ :=
      Tree.eq_of_singleton_eq_fill ht
    · exact ⟨_, _, _, _, _, _, hself (.wrap hk ha) hrule.1 ht⟩
    · obtain ⟨_, _, _, _, _, _, horigin⟩ := ih hrule.2 htrees
      exact ⟨_, _, _, _, _, _, horigin.wrapped (by simp [hk])⟩
  | wrapBy hk ha hb iha ihb =>
    obtain ⟨rfl, rfl, ⟨rfl, hkind, htrees⟩ | ⟨_, _, _, rfl, htrees⟩⟩ :=
      Tree.eq_of_singleton_eq_fill ht
    · exact ⟨_, _, _, _, _, _, hself (.wrapBy hk ha hb) hrule.1 ht⟩
    · rcases append_eq_append_cons htrees with ⟨more, hfirst, rfl⟩ | ⟨more, rfl, hsecond⟩
      · obtain ⟨_, _, _, _, _, _, horigin⟩ := iha hrule.2.1 hfirst
        exact ⟨_, _, _, _, _, _, (horigin.followed fun i hi _ _ hplace =>
          hb.first_mem hi hplace).wrapped (by simp [hk])⟩
      · obtain ⟨_, _, _, _, _, _, horigin⟩ := ihb (hrule.2.2 _ _) hsecond
        exact ⟨_, _, _, _, _, _, (horigin.preceded ha.read_append_rest fun i hi _ _ hplace =>
          ha.first_mem hi hplace).wrapped (by simp [hk])⟩
  | @tooDeep _ _ shape _ t ts a hb ha _ =>
    have htrees : a.trees = [.node .error (((t :: ts).take (groupLength 0 (t :: ts))).map .leaf)] :=
      ha.eq_run ▸ rfl
    rw [htrees] at ht
    obtain ⟨rfl, rfl, ⟨rfl, rfl, rfl⟩ | ⟨_, _, _, rfl, hgroup⟩⟩ := Tree.eq_of_singleton_eq_fill ht
    · exact ⟨_, _, _, _, _, _, hself (.tooDeep hb ha) (Rule.MakesNode.block hb : Rule.MakesNode _ (.block shape)) htrees⟩
    · exact absurd hgroup Tree.leaves_ne_fill
  | @block _ known _ shape _ t _ _ hb ha ih =>
    obtain ⟨rfl, rfl, ⟨rfl, rfl, htrees⟩ | ⟨_, _, _, rfl, htrees⟩⟩ :=
      Tree.eq_of_singleton_eq_fill ht
    · exact ⟨_, _, _, _, _, _, hself (.block hb ha) (.block hb) ht⟩
    · obtain ⟨_, _, _, _, _, _, horigin⟩ := ih (Rule.nodesIn_braced t shape) htrees
      have hknown := (horigin.mono (List.cons_subset_cons t (List.nil_subset known))).forget
      exact ⟨_, _, _, _, _, _, hknown.wrapped (by simp [shape.isBlock_kind])⟩

end NginxConf
