import NginxConf.Proofs.Grammar.Statements
import NginxConf.Proofs.Grammar.Blocks

/-!
# Blocks without errors

Where a rule finds no error, each block that it has built has both of its braces, and between them
trees that begin and end as statements do (`Runs.braced_of_block`). So do the trees of a whole file
(`itemlike_of_file`).

The rules are known to accept the language (`Rule.accepts_item`); what has to be added is that each
turn of a loop builds one node, so that the trees are the phrases.
-/

namespace NginxConf

variable {α β : Type}

/-! ## Trees that stand like statements -/

/-- The tree is a node that begins and ends as a statement does, by the kinds of its tokens. -/
structure Tree.Itemlike (kind : α → TokenKind) (u : Tree α) : Prop where
  isNode : u.IsNode
  head : ∃ t ts, u.leaves = t :: ts ∧ kind t ≠ .rightBrace
  last : ∃ ts t, u.leaves = ts ++ [t] ∧ (kind t = .semicolon ∨ kind t = .rightBrace)

theorem Tree.Itemlike.map {kind : β → TokenKind} {f : α → β} {u : Tree α}
    (h : u.Itemlike (kind ∘ f)) : (u.map f).Itemlike kind := by
  obtain ⟨t, ts, hhead, ht⟩ := h.head
  obtain ⟨ts', t', hlast, ht'⟩ := h.last
  refine ⟨h.isNode.map f, ⟨f t, ts.map f, ?_, ht⟩, ⟨ts'.map f, f t', ?_, ht'⟩⟩
  · rw [leaves_map, hhead, List.map_cons]
  · rw [leaves_map, hlast, List.map_append]
    rfl

/-- The trees are a pair of braces with statements between them. -/
def Tree.Braced (kind : α → TokenKind) (children : List (Tree α)) : Prop :=
  ∃ l items r, children = leaf l :: items ++ [leaf r] ∧ kind l = .leftBrace ∧
    kind r = .rightBrace ∧ ∀ u ∈ items, u.Itemlike kind

theorem Tree.Braced.map {kind : β → TokenKind} {f : α → β} {children : List (Tree α)}
    (h : Braced (kind ∘ f) children) : Braced kind (children.map (Tree.map f)) := by
  obtain ⟨l, items, r, rfl, hl, hr, hitems⟩ := h
  refine ⟨f l, items.map (Tree.map f), f r, by simp [Tree.map], hl, hr, fun u hu => ?_⟩
  obtain ⟨v, hv, rfl⟩ := List.mem_map.1 hu
  exact (hitems v hv).map

/-! ## Rules that build one node -/

/-- The rule makes one node of what it reads. -/
inductive Rule.BuildsNode : Rule α → Prop
  | wrap {kind rule} : BuildsNode (.wrap kind rule)
  | wrapBy {start kind finish} : BuildsNode (.wrapBy start kind finish)
  | withNext {rule} (h : ∀ t, BuildsNode (rule t)) : BuildsNode (.withNext rule)
  | peek {rule} (h : ∀ next, BuildsNode (rule next)) : BuildsNode (.peek rule)

variable [Lexical α]

namespace Rule

theorem statement_buildsNode : BuildsNode (statement (α := α)) := by
  refine .withNext fun first => ?_
  unfold statementFrom
  split
  · exact .wrap
  · exact .wrap
  · exact .wrap
  · exact .wrap
  · exact .withNext fun _ => .wrap
  · exact .withNext fun _ => .wrapBy
  · exact .withNext fun _ => .wrapBy
  · exact .withNext fun _ => .wrapBy
  · exact .wrap
  · exact .wrap
  · exact .withNext fun _ => .wrap

theorem geoItem_buildsNode : BuildsNode (geoItem (α := α)) := by
  refine .withNext fun first => ?_
  unfold geoItemFrom
  split
  · exact .wrap
  · exact .wrap
  · exact .wrap
  · exact .wrap
  · exact .withNext fun _ => .wrap
  · exact .wrap
  · exact .wrap

theorem item_buildsNode (shape : BlockShape) : BuildsNode (item (α := α) shape) :=
  match shape with
  | .plain => statement_buildsNode
  | .geo => geoItem_buildsNode

theorem topStatement_buildsNode : BuildsNode (topStatement (α := α)) := by
  refine .peek fun next => ?_
  split
  · exact .withNext fun _ => .wrap
  · exact statement_buildsNode

end Rule

theorem Runs.exists_node {room : Nat} {known seen : List α} {rule : Rule α} {last t : α}
    {ts : List α} {a : Outcome α} (h : Runs room known seen rule last (t :: ts) a)
    (hrule : rule.BuildsNode) : ∃ kind children, a.trees = [.node kind children] := by
  generalize hrest : t :: ts = rest at h
  induction h with
  | wrap => exact ⟨_, _, rfl⟩
  | wrapBy => exact ⟨_, _, rfl⟩
  | withNext _ _ ih =>
    cases hrule with
    | withNext hnext => exact ih (hnext _) hrest
  | peek _ ih =>
    cases hrule with
    | peek hnext => exact ih (hnext _) hrest
  | atEnd => cases hrest
  | _ => cases hrule

/-- What each turn of a loop builds is among what the loop builds, and nothing else is. -/
theorem Runs.forall_mem_many {room : Nat} {known seen : List α} {p : TokenKind → Bool}
    {item : Rule α} {last : α} {rest : List α} {a : Outcome α} {P : Tree α → Prop}
    (h : Runs room known seen (.many p item) last rest a) (hclean : a.Clean)
    (hitem : ∀ seen last t ts b, Runs room known seen item last (t :: ts) b → b.Clean →
      ∀ u ∈ b.trees, P u) : ∀ u ∈ a.trees, P u := by
  generalize hrule : Rule.many p item = rule at h
  induction h with
  | manyStop => simp [Outcome.idle]
  | manyStep _ ha _ _ _ ih =>
    cases hrule
    obtain ⟨hturn, hmore⟩ := Outcome.clean_join.1 hclean
    exact List.forall_mem_append.2 ⟨hitem _ _ _ _ _ ha hturn, ih hmore hitem rfl⟩
  | _ => cases hrule

/-! ## Statements and their ends -/

namespace Phrase

variable {room : Nat} {w : List α}

/-- The last token of the phrase is a `;` or a `}`. -/
def Closes (w : List α) : Prop :=
  ∃ ts t, w = ts ++ [t] ∧ (Lexical.kind t = .semicolon ∨ Lexical.kind t = .rightBrace)

theorem Closes.append (h : Closes w) (ts : List α) : Closes (ts ++ w) := by
  obtain ⟨us, t, rfl, ht⟩ := h
  exact ⟨ts ++ us, t, (List.append_assoc _ _ _).symm, ht⟩

theorem Closes.cons (h : Closes w) (t : α) : Closes (t :: w) := h.append [t]

theorem closes_singleton {t : α} (h : Lexical.kind t = .semicolon ∨ Lexical.kind t = .rightBrace) :
    Closes [t] := ⟨[], t, rfl, h⟩

theorem IsBlockOf.closes (shape : BlockShape) (h : IsBlockOf shape room w) : Closes w := by
  cases room with
  | zero => exact absurd h not_isBlockOf_zero
  | succ room =>
    obtain ⟨opening, items, closing, rfl, -, -, hr⟩ := isBlockOf_succ.1 h
    exact ((closes_singleton (.inr hr)).append _).cons _

theorem IsScript.closes (h : IsScript w) : Closes w := by
  cases h with
  | braces hl hc hr => exact ((closes_singleton (.inr hr)).append _).cons _

theorem IsStatement.closes (h : IsStatement room w) : Closes w := by
  cases h with
  | directive hn ha hs => exact ((closes_singleton (.inl hs)).append _).cons _
  | directiveBlock hn ha hb => exact ((IsBlockOf.closes .plain hb).append _).cons _
  | ifBlock hk ho hne hc hcl hb =>
    exact (((((IsBlockOf.closes .plain hb).cons _).append _).cons _).cons _)
  | setVariable hk hn hv hs => exact (closes_singleton (.inl hs)).append [_, _, _]
  | inclusion hk hp hs => exact (closes_singleton (.inl hs)).append [_, _]
  | geo hk hv hw hb => exact (((IsBlockOf.closes .geo hb).append _).cons _).cons _
  | lua hk hv ht hb => exact (hb.closes.append _).cons _

theorem IsItemOf.closes {shape : BlockShape} (h : IsItemOf room shape w) : Closes w := by
  cases shape with
  | plain => exact IsStatement.closes h
  | geo =>
    cases (show IsItem w from h) with
    | entry he hs => exact (closes_singleton (.inl hs)).append _

/-- No statement begins with a `}`. -/
theorem IsItemOf.head {shape : BlockShape} (h : IsItemOf room shape w) :
    ∃ t ts, w = t :: ts ∧ Lexical.kind t ≠ .rightBrace := by
  cases shape with
  | plain =>
    obtain ⟨t, ts, rfl, ht⟩ := IsStatement.head h
    refine ⟨t, ts, rfl, fun hk => ?_⟩
    simp [IsValue, hk, TokenKind.isValue, statementKeywords] at ht
  | geo =>
    obtain ⟨t, ts, rfl, ht⟩ := IsItem.head h
    refine ⟨t, ts, rfl, fun hk => ?_⟩
    simp [Rule.startsGeoEntry, hk, TokenKind.isValue] at ht

end Phrase

open Phrase

/-! ## What is built without errors -/

variable {room : Nat}

/-- A rule that builds one node, and accepts phrases only, builds a tree like a statement. -/
theorem Runs.itemlike {known seen : List α} {rule : Rule α} {last t : α} {ts : List α}
    {b : Outcome α} (shape : BlockShape) (h : Runs room known seen rule last (t :: ts) b)
    (hclean : b.Clean) (hrule : rule.BuildsNode)
    (haccepts : ∀ left, Rule.Accepts room rule (t :: ts) left →
      ∃ w, t :: ts = w ++ left ∧ IsItemOf room shape w) :
    ∀ u ∈ b.trees, u.Itemlike Lexical.kind := by
  have haccept : Rule.Accepts room rule (t :: ts) b.rest :=
    (Rule.accepts_iff last).2 ⟨by rwa [h.eq_run], by rw [h.eq_run]⟩
  obtain ⟨w, hw, hitem⟩ := haccepts b.rest haccept
  have hread : b.read = w := List.append_cancel_right (h.read_append_rest.trans hw)
  obtain ⟨kind, children, htrees⟩ := h.exists_node hrule
  intro u hu
  rw [htrees] at hu
  have hleaves : u.leaves = w := by
    rw [← hread, Outcome.read, htrees, List.mem_singleton.1 hu]
    simp
  refine ⟨?_, ?_, ?_⟩
  · rw [List.mem_singleton.1 hu]
    trivial
  · rw [hleaves]
    exact hitem.head
  · rw [hleaves]
    exact hitem.closes

variable [Inhabited α] [LawfulLexical α]

/-- What stands between the braces of a block are trees like statements. -/
theorem Rule.itemlike_of_items {shape : BlockShape} {last : α} {rest : List α}
    (hclean : ((items shape).run room last rest).Clean) :
    ∀ u ∈ ((items shape).run room last rest).trees, u.Itemlike Lexical.kind := by
  refine (runs_items shape last rest).forall_mem_many hclean fun seen last t ts b hb hturn => ?_
  exact hb.itemlike shape hturn (item_buildsNode shape)
    fun left => (accepts_item (blocksRecognized room) shape).1

/-- **A block without errors has both of its braces, and statements between them.** -/
theorem Runs.braced_of_block {known seen : List α} {rule : Rule α} {last : α} {rest : List α}
    {a : Outcome α} (h : Runs room known seen rule last rest a) (hclean : a.Clean)
    {before after : List (Tree α)} {frames : List (Frame α)} {shape : BlockShape}
    {children : List (Tree α)}
    (ht : a.trees = before ++ Tree.fill frames (.node shape.kind children) :: after) :
    Tree.Braced Lexical.kind children := by
  obtain ⟨inner, seen, last, t, ts, b, -, hl, hb, rfl, hissues⟩ := h.exists_block ht
  have hbclean : b.Clean := fun i hi => hclean i (hissues hi)
  rw [← hb.eq_run] at hbclean ⊢
  cases hrest : ((Rule.items shape).run inner t ts).rest with
  | nil =>
    rw [Rule.run_braced_open hrest] at hbclean
    cases hbclean ⟨.unclosedBrace, .across t t⟩ (by simp)
  | cons r rest =>
    rw [Rule.run_braced_closed hrest] at hbclean ⊢
    refine ⟨t, _, r, rfl, hl, Rule.kind_of_rest_items hrest, ?_⟩
    exact Rule.itemlike_of_items fun i hi => hbclean i (by simp [hi])

/-- **The trees of a file without errors are like statements.** -/
theorem Rule.itemlike_of_file {last : α} {tokens : List α}
    (hclean : (file.run maxDepth last tokens).Clean) :
    ∀ u ∈ (file.run maxDepth last tokens).trees, u.Itemlike Lexical.kind := by
  refine (runs_file last tokens).forall_mem_many hclean fun seen last t ts b hb hturn => ?_
  exact hb.itemlike .plain hturn topStatement_buildsNode
    fun left => accepts_topStatement.1

end NginxConf
