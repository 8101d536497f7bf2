import NginxConf.Proofs.Token.Parens
import NginxConf.Proofs.Tree.BraceRows

/-!
# Parentheses that a node can have

Only an `if` has parentheses: a `(` right behind the keyword, and the `)` behind the conditions, if
there is one (`NodeKind.hasParens`). What stands between them has no parentheses of its own
(`Tree.Shaped.isParen_of_condition`).
-/

namespace NginxConf

open RegularExpression

/-- Which parentheses a node of a kind has, by what is seen of its children. -/
inductive NodeKind.HasParens (kind : NodeKind) (w : List Symbol) : Prop
  | none (h : (w.filterMap Symbol.token?).filter TokenKind.isParen = [])
  /-- All tokens of a block that is nested too deep. -/
  | deep (hkind : kind = .error) {rest : List Symbol} (h : w = .token .leftBrace :: rest)
    (hrest : ∀ s ∈ rest, s.token?.isSome = true)
  /-- A `(` that is not closed. -/
  | opened {rest : List Symbol} (h : w = .token .ifKeyword :: .token .leftParen :: rest)
    (hrest : rest.filterMap Symbol.token? = [])
  | closed {conditions rest : List Symbol}
    (h : w = .token .ifKeyword :: .token .leftParen :: conditions ++ .token .rightParen :: rest)
    (hconditions : ∀ s ∈ conditions, s = .node .condition)
    (hrest : rest.filterMap Symbol.token? = [])

/-- The parentheses of an `if`. -/
theorem NodeKind.hasParens_ifStatement {kind : NodeKind} {keyword : String} {w : List Symbol}
    (h : w ∈ (NodeKind.ifStatement.pattern keyword).matches') : kind.HasParens w := by
  obtain ⟨k, hk, _, hmore, rfl⟩ := Language.mem_mul.1 h
  obtain ⟨row, hrow, block, hblock, rfl⟩ := Language.mem_mul.1 hmore
  obtain rfl := Pattern.mem_token.1 hk
  have hblock : block.filterMap Symbol.token? = [] := by
    rcases hblock with hblock | hblock
    · obtain ⟨s, hs, rfl⟩ := Pattern.mem_oneOf.1 hblock
      have hall : ∀ s ∈ [Symbol.node .block, .deep], s.token? = none := by decide
      rw [List.filterMap_cons, hall s hs, List.filterMap_nil]
    · rw [(Language.mem_one _).1 hblock, List.filterMap_nil]
  rcases hrow with hrow | hrow
  · obtain ⟨l, hl, _, hinner, rfl⟩ := Language.mem_mul.1 hrow
    obtain ⟨conditions, hconditions, r, hr, rfl⟩ := Language.mem_mul.1 hinner
    obtain rfl := Pattern.mem_token.1 hl
    have hconditions : ∀ s ∈ conditions, s = .node .condition := by
      intro s hs
      have hatom := Pattern.mem_atoms hconditions s hs
      exact List.mem_singleton.1 hatom
    rcases Pattern.mem_optional_token.1 hr with rfl | rfl
    · have hsymbols : [.token .ifKeyword] ++ ([.token .leftParen]
          ++ (conditions ++ [.token .rightParen]) ++ block)
          = .token .ifKeyword :: .token .leftParen :: conditions ++ .token .rightParen :: block := by
        simp
      exact .closed hsymbols hconditions hblock
    · have hsymbols : [.token .ifKeyword] ++ ([.token .leftParen] ++ (conditions ++ []) ++ block)
          = .token .ifKeyword :: .token .leftParen :: (conditions ++ block) := by
        simp
      refine .opened hsymbols ?_
      rw [List.filterMap_append, hblock, List.append_nil, List.filterMap_eq_nil_iff]
      intro s hs
      rw [hconditions s hs]
      rfl
  · rw [(Language.mem_one _).1 hrow]
    refine .none ?_
    rw [List.nil_append, List.filterMap_append, hblock]
    rfl

/-- **Which parentheses a node can have.** -/
theorem NodeKind.hasParens {kind : NodeKind} {keyword : String} {w : List Symbol}
    (h : w ∈ (kind.pattern keyword).matches') : kind.HasParens w := by
  cases kind with
  | ifStatement => exact hasParens_ifStatement h
  | error =>
    rcases h with ((h | h) | h) | h
    · exact .none (Symbol.filter_of_atoms h rfl)
    · obtain ⟨rest, hsymbols, hrest⟩ := Pattern.exists_raw h
      exact .deep rfl hsymbols hrest
    · exact .none (Symbol.filter_of_atoms h rfl)
    · exact .none (Symbol.filter_of_atoms h rfl)
  | geoProxy =>
    rw [pattern] at h
    split at h <;> exact .none (Symbol.filter_of_atoms h rfl)
  | _ => exact .none (Symbol.filter_of_atoms h rfl)

/-- **A condition has no parentheses.** -/
theorem Tree.Shaped.isParen_of_condition {α : Type} [Lexical α] {t : Tree α} (h : t.Shaped)
    (hsymbol : t.symbol = .node .condition) :
    ∀ l ∈ t.leaves, (Lexical.kind l).isParen = false := by
  obtain ⟨children, rfl⟩ := Tree.exists_node_of_symbol hsymbol
  have hadmits := (Tree.shaped_node.1 h).1
  intro l hl
  rw [leaves, forestLeaves_eq] at hl
  obtain ⟨u, hu, hl⟩ := List.mem_flatMap.1 hl
  have hatom := Pattern.mem_atoms hadmits u.symbol (List.mem_map_of_mem hu)
  have hall : ∀ s ∈ (NodeKind.condition.pattern "").atoms,
      s.token?.map TokenKind.isParen = some false := by decide
  have hkind := hall u.symbol hatom
  cases u with
  | leaf a =>
    rw [leaves, List.mem_singleton] at hl
    rw [hl]
    exact Option.some.inj hkind
  | node kind children =>
    rw [symbol] at hkind
    split at hkind <;> cases hkind

end NginxConf
