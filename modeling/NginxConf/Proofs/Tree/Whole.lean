import NginxConf.Proofs.Tree.BraceRows

/-!
# Whole nodes

The pattern of a node leaves room for what is missing and for what is too much. A node is *whole* if
nothing is: its children match a narrower pattern (`NodeKind.wholePattern`), in which every operand,
brace and semicolon has to be there, and in which no error node has a place.
-/

namespace NginxConf

open RegularExpression

namespace Pattern

/-- A pair of braces with what matches a pattern any number of times. -/
def wholeBraces (item : Pattern) : Pattern :=
  inOrder [token .leftBrace, repeated item, token .rightBrace]

def wholeOperation : Pattern := inOrder [token .operator, value]

def wholeOperand (kind : TokenKind) : Pattern := inOrder [token kind, value]

def wholeScript : Pattern :=
  inOrder [token .leftBrace, optional (token .luaCode), token .rightBrace]

end Pattern

open Pattern in
/-- **The pattern of the children of a whole node**, by its kind and by the word that it begins
with. -/
def NodeKind.wholePattern (keyword : String) : NodeKind → Pattern
  | sourceFile => inOrder [repeated (oneOf Symbol.statements), token .endOfFile]
  | block => wholeBraces (oneOf Symbol.statements)
  | directive => inOrder [inOrder [value, repeated value], oneOf [.token .semicolon, .node .block]]
  | ifStatement =>
    inOrder
      [token .ifKeyword, token .leftParen,
        inOrder [oneOf [.node .condition], repeated (oneOf [.node .condition])],
        token .rightParen, oneOf [.node .block]]
  | condition => wholeOperation + inOrder [value, optional wholeOperation]
  | setStatement =>
    inOrder
      [token .setKeyword, inOrder [tokens fun kind => kind == .variableName || kind == .word, value],
        token .semicolon]
  | includeStatement => inOrder [token .includeKeyword, value, token .semicolon]
  | geoStatement =>
    inOrder [token .geoKeyword, inOrder [value, optional value], oneOf [.node .geoBlock]]
  | geoBlock => wholeBraces (oneOf [.node .geoItem])
  | geoItem => inOrder [oneOf Symbol.geoEntries, token .semicolon]
  | geoDefault | geoDelete => wholeOperand .word
  | geoInclude => wholeOperand .includeKeyword
  | geoProxy => if keyword = "proxy_recursive" then token .word else wholeOperand .word
  | geoRanges => token .word
  | geoValue => inOrder [value, value]
  | setLua => inOrder [token .luaKeyword, value, wholeScript]
  | accessLua | contentLua | uriLua | sslCertificateLua | otherLua =>
    inOrder [token .luaKeyword, wholeScript]
  | error | tombstone => 0

/-! ## Nodes -/

section Nodes

variable {α β : Type} [Lexical α] [Lexical β]

/-- Nothing is missing from the node, and nothing is too much in it. -/
def Node.IsWhole (m : Node α) : Prop :=
  m.children.map Tree.symbol ∈ (m.kind.wholePattern (Tree.keyword m.children)).matches'

/-- Whether a node is whole does not depend on more than the kinds and the texts of its tokens. -/
theorem Node.isWhole_map {f : α → β} (hkind : ∀ a, Lexical.kind (f a) = Lexical.kind a)
    (htext : ∀ a, Lexical.text (f a) = Lexical.text a) (m : Node α) :
    (m.map f).IsWhole ↔ m.IsWhole := by
  rw [IsWhole, IsWhole, Node.map, Tree.keyword_map hkind htext, Tree.map_symbol_map hkind]

end Nodes

/-! ## What matches a pattern -/

namespace Pattern

variable {w : List Symbol} {P : Pattern}

/-- What matches a pattern after one of some symbols. -/
theorem mem_oneOf_mul {ss : List Symbol} :
    w ∈ (oneOf ss * P).matches' ↔ ∃ s ∈ ss, ∃ v ∈ P.matches', w = s :: v := by
  rw [matches'_mul, Language.mem_mul]
  constructor
  · rintro ⟨u, hu, v, hv, rfl⟩
    obtain ⟨s, hs, rfl⟩ := mem_oneOf.1 hu
    exact ⟨s, hs, v, hv, rfl⟩
  · rintro ⟨s, hs, v, hv, rfl⟩
    exact ⟨[s], mem_oneOf.2 ⟨s, hs, rfl⟩, v, hv, rfl⟩

theorem mem_token_mul {kind : TokenKind} :
    w ∈ (token kind * P).matches' ↔ ∃ v ∈ P.matches', w = .token kind :: v := by
  rw [token, mem_oneOf_mul]
  simp

theorem mem_tokens_iff {p : TokenKind → Bool} (hend : p .endOfFile = false) :
    w ∈ (tokens p).matches' ↔ ∃ kind, p kind = true ∧ w = [.token kind] := by
  constructor
  · intro hw
    obtain ⟨s, hs, rfl⟩ := mem_oneOf.1 hw
    obtain ⟨kind, hkind, rfl⟩ := List.mem_map.1 hs
    exact ⟨kind, (List.mem_filter.1 hkind).2, rfl⟩
  · rintro ⟨kind, hkind, rfl⟩
    exact mem_tokens hkind fun h => Bool.false_ne_true (hend.symm.trans (h ▸ hkind))

theorem mem_tokens_mul {p : TokenKind → Bool} (hend : p .endOfFile = false) :
    w ∈ (tokens p * P).matches' ↔ ∃ kind, p kind = true ∧ ∃ v ∈ P.matches', w = .token kind :: v := by
  rw [matches'_mul, Language.mem_mul]
  constructor
  · rintro ⟨u, hu, v, hv, rfl⟩
    obtain ⟨kind, hkind, rfl⟩ := (mem_tokens_iff hend).1 hu
    exact ⟨kind, hkind, v, hv, rfl⟩
  · rintro ⟨kind, hkind, v, hv, rfl⟩
    exact ⟨[.token kind], (mem_tokens_iff hend).2 ⟨kind, hkind, rfl⟩, v, hv, rfl⟩

theorem mem_value : w ∈ value.matches' ↔ ∃ kind : TokenKind, kind.isValue = true ∧ w = [.token kind] :=
  mem_tokens_iff rfl

theorem mem_value_mul : w ∈ (value * P).matches' ↔
    ∃ kind : TokenKind, kind.isValue = true ∧ ∃ v ∈ P.matches', w = .token kind :: v :=
  mem_tokens_mul rfl

theorem mem_optional : w ∈ (optional P).matches' ↔ w ∈ P.matches' ∨ w = [] := by
  rw [optional, matches'_add, Language.mem_add, matches'_epsilon, Language.mem_one]

end Pattern

end NginxConf
