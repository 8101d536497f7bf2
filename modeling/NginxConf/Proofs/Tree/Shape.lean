import Mathlib.Computability.RegularExpressions
import Mathlib.Order.CompletePartialOrder
import NginxConf.Grammar.Statement
import NginxConf.Proofs.Tree.Depth

/-!
# The shape of a tree

What the children of a node can be, one after the other, is a regular language that depends on the
kind of the node (`NodeKind.pattern`). A pattern sees of a child only its kind, and whether it is an
error node of raw tokens, as a block that is nested too deep becomes (`Tree.symbol`).

Patterns are regular expressions, so whether children match one can be evaluated. A tree is
`Tree.Shaped` if the children of each of its nodes match the pattern of that node. No pattern matches
no children at all, so each node of such a tree begins at one of its leaves
(`Tree.forestShaped.length_kinds_le`).
-/

namespace NginxConf

open RegularExpression

/-- What a pattern can see of a tree. -/
inductive Symbol
  | token (kind : TokenKind)
  | node (kind : NodeKind)
  /-- An error node of raw tokens, the first of them a `{`. -/
  | deep
deriving DecidableEq, Repr

namespace Symbol

def scripts : List Symbol :=
  [.accessLua, .contentLua, .uriLua, .setLua, .sslCertificateLua, .otherLua].map node

def statements : List Symbol :=
  [.directive, .ifStatement, .setStatement, .includeStatement, .geoStatement].map node ++ scripts

def geoEntries : List Symbol :=
  [.geoDefault, .geoDelete, .geoInclude, .geoProxy, .geoRanges, .geoValue].map node

def errors : List Symbol := [node .error, deep]

end Symbol

/-! ## Patterns -/

/-- What may follow one after the other. -/
abbrev Pattern := RegularExpression Symbol

namespace Pattern

/-- One of some symbols. -/
def oneOf : List Symbol → Pattern
  | [] => 0
  | s :: ss => char s + oneOf ss

def token (kind : TokenKind) : Pattern := oneOf [.token kind]

/-- One token of the right kind, the end of the text apart. -/
def tokens (p : TokenKind → Bool) : Pattern :=
  oneOf (([.leftParen, .rightParen, .leftBrace, .rightBrace, .semicolon, .ifKeyword, .setKeyword,
    .includeKeyword, .geoKeyword, .luaKeyword, .word, .variableName, .string, .operator, .luaCode,
    .malformed].filter p).map .token)

/-- What matches a pattern, any number of times. -/
abbrev repeated (P : Pattern) : Pattern := RegularExpression.star P

/-- Nothing, or what matches a pattern. -/
def optional (P : Pattern) : Pattern := P + 1

/-- Patterns one after the other. -/
def inOrder : List Pattern → Pattern
  | [] => 1
  | [P] => P
  | P :: Ps => P * inOrder Ps

def value : Pattern := tokens TokenKind.isValue

/-- A pair of braces with what matches a pattern any number of times. The text may end before the
closing brace. -/
def braces (item : Pattern) : Pattern :=
  inOrder [token .leftBrace, repeated item, optional (token .rightBrace)]

/-- What a statement can be, or what stands in its place. -/
def statement : Pattern := oneOf (Symbol.statements ++ Symbol.errors)

/-- The error node of values that a statement has no room for. -/
def surplus : Pattern := optional (oneOf Symbol.errors)

/-- The block that belongs to a statement. -/
def blockOf (kind : NodeKind) : Pattern := oneOf [.node kind, .deep]

/-- An operator with its operand. -/
def operation : Pattern := inOrder [token .operator, optional value]

/-- A keyword with its operand. -/
def operand (kind : TokenKind) : Pattern := inOrder [token kind, optional value]

/-- What follows the arguments of a script. -/
def script : Pattern :=
  inOrder [token .leftBrace, token .luaCode, token .rightBrace]
    + inOrder [token .leftBrace, token .rightBrace]
    + inOrder [token .leftBrace, token .malformed]
    + optional (token .semicolon)

/-- What cannot be made sense of: a token out of place, a block or a statement out of place, a block
nested too deep as raw tokens, an unfinished directive or a surplus of values, or a surplus of
entries of a geo block. -/
def error : Pattern :=
  oneOf ([.token .semicolon, .token .rightBrace, .token .malformed, .token .luaCode, .node .block]
      ++ Symbol.statements ++ Symbol.errors)
    + inOrder [token .leftBrace, repeated (tokens fun _ => true)]
    + inOrder [value, repeated value, optional (token .malformed)]
    + inOrder [oneOf Symbol.geoEntries, repeated (oneOf Symbol.geoEntries)]

/-- What cannot be made sense of, apart from a block nested too deep. -/
def misfit : Pattern :=
  oneOf ([.token .semicolon, .token .rightBrace, .token .malformed, .token .luaCode, .node .block]
      ++ Symbol.statements ++ Symbol.errors)
    + inOrder [value, repeated value, optional (token .malformed)]
    + inOrder [oneOf Symbol.geoEntries, repeated (oneOf Symbol.geoEntries)]

theorem misfit_le_error : misfit.matches' ≤ error.matches' := by
  rintro w ((h | h) | h)
  · exact .inl (.inl (.inl h))
  · exact .inl (.inr h)
  · exact .inr h

end Pattern

open Pattern in
/-- **The pattern of the children of a node**, by its kind and by the word that it begins with. -/
def NodeKind.pattern (keyword : String) : NodeKind → Pattern
  | sourceFile => inOrder [repeated statement, token .endOfFile]
  | block => braces statement
  | directive =>
    inOrder [value, repeated value, oneOf [.token .semicolon, .node .block, .deep]]
  | ifStatement =>
    inOrder
      [token .ifKeyword,
        optional (inOrder
          [token .leftParen, repeated (oneOf [.node .condition]), optional (token .rightParen)]),
        optional (blockOf .block)]
  | condition => operation + inOrder [value, optional operation]
  | setStatement =>
    inOrder
      [token .setKeyword,
        optional (inOrder [tokens fun kind => kind == .variableName || kind == .word,
          optional value]),
        surplus, optional (token .semicolon)]
  | includeStatement =>
    inOrder [token .includeKeyword, optional value, surplus, optional (token .semicolon)]
  | geoStatement =>
    inOrder
      [token .geoKeyword, optional (inOrder [value, optional value]), surplus,
        optional (blockOf .geoBlock)]
  | geoBlock => braces (oneOf (.node .geoItem :: Symbol.errors))
  | geoItem =>
    inOrder [oneOf Symbol.geoEntries, surplus, optional (token .semicolon)]
  | geoDefault | geoDelete => operand .word
  | geoInclude => operand .includeKeyword
  | geoProxy => if keyword = "proxy_recursive" then token .word else operand .word
  | geoRanges => token .word
  | geoValue => inOrder [value, optional value]
  | setLua => inOrder [token .luaKeyword, optional value, surplus, script]
  | accessLua | contentLua | uriLua | sslCertificateLua | otherLua =>
    inOrder [token .luaKeyword, surplus, script]
  | error => Pattern.error
  | tombstone => 0

namespace Pattern

theorem mem_char {w : List Symbol} {s : Symbol} : w ∈ (char s : Pattern).matches' ↔ w = [s] :=
  Set.mem_singleton_iff

theorem mem_oneOf {w : List Symbol} {ss : List Symbol} :
    w ∈ (oneOf ss).matches' ↔ ∃ s ∈ ss, w = [s] := by
  induction ss with
  | nil => simp [oneOf]
  | cons s ss ih => rw [oneOf, matches'_add, Language.mem_add, mem_char, ih, List.exists_mem_cons_iff]

theorem mem_tokens {p : TokenKind → Bool} {kind : TokenKind} (hp : p kind = true)
    (hkind : kind ≠ .endOfFile) : [.token kind] ∈ (tokens p).matches' := by
  refine mem_oneOf.2 ⟨.token kind, List.mem_map_of_mem (List.mem_filter.2 ⟨?_, hp⟩), rfl⟩
  cases kind <;> first | exact absurd rfl hkind | decide

theorem oneOf_mono {ss ss' : List Symbol} (h : ss ⊆ ss') :
    (oneOf ss).matches' ≤ (oneOf ss').matches' := by
  intro w hw
  obtain ⟨s, hs, rfl⟩ := mem_oneOf.1 hw
  exact mem_oneOf.2 ⟨s, h hs, rfl⟩

end Pattern

/-! ## Trees -/

variable {α β : Type} [Lexical α] [Lexical β]

namespace Tree

/-- Whether the tree is a single leaf. -/
def isLeaf : Tree α → Bool
  | leaf _ => true
  | node _ _ => false

/-- Whether these are the tokens of a block that is nested too deep. -/
def areRaw : List (Tree α) → Bool
  | leaf t :: ts => Lexical.kind t == .leftBrace && ts.all isLeaf
  | _ => false

theorem areRaw_leaves {t : α} (h : Lexical.kind t = .leftBrace) (ts : List α) :
    areRaw ((t :: ts).map leaf) = true := by
  simp [areRaw, isLeaf, h]

/-- What a pattern sees of the tree. -/
def symbol : Tree α → Symbol
  | leaf t => .token (Lexical.kind t)
  | node kind children => if kind = .error ∧ areRaw children then .deep else .node kind

/-- A token is seen of a leaf only. -/
theorem exists_leaf_of_symbol {t : Tree α} {kind : TokenKind} (h : t.symbol = .token kind) :
    ∃ a, t = leaf a ∧ Lexical.kind a = kind := by
  cases t with
  | leaf a => exact ⟨a, rfl, Symbol.token.inj h⟩
  | node k children =>
    rw [symbol] at h
    split at h <;> cases h

/-- A node is seen of a node only. -/
theorem exists_node_of_symbol {t : Tree α} {kind : NodeKind} (h : t.symbol = .node kind) :
    ∃ children, t = node kind children := by
  cases t with
  | leaf a => cases h
  | node k children =>
    rw [symbol] at h
    split at h
    · cases h
    · exact ⟨children, by rw [Symbol.node.inj h]⟩

/-- The first token of a block that is nested too deep is its `{`. -/
theorem symbols_of_areRaw {ts : List (Tree α)} (h : areRaw ts = true) :
    ∃ rest, ts.map symbol = .token .leftBrace :: rest := by
  unfold areRaw at h
  split at h
  · next t ts =>
    rw [Bool.and_eq_true, beq_iff_eq] at h
    exact ⟨ts.map symbol, by rw [List.map_cons, symbol, h.1]⟩
  · cases h

theorem symbol_node {kind : NodeKind} (h : kind ≠ .error) (children : List (Tree α)) :
    [(node kind children).symbol] ∈ (Pattern.oneOf [.node kind]).matches' := by
  rw [symbol, if_neg fun he => h he.1]
  exact Pattern.mem_oneOf.2 ⟨_, List.mem_cons_self, rfl⟩

theorem symbol_error (children : List (Tree α)) :
    [(node .error children).symbol] ∈ (Pattern.oneOf Symbol.errors).matches' := by
  refine Pattern.mem_oneOf.2 ⟨_, ?_, rfl⟩
  rw [symbol]
  split <;> simp [Symbol.errors]

/-- The word that some trees begin with, if it is one. -/
def keyword : List (Tree α) → String
  | leaf t :: _ => Rule.geoKeyword t
  | _ => ""

end Tree

/-- The children match the pattern of nodes of such a kind. -/
def NodeKind.Admits (kind : NodeKind) (children : List (Tree α)) : Prop :=
  children.map Tree.symbol ∈ (kind.pattern (Tree.keyword children)).matches'

instance (kind : NodeKind) (children : List (Tree α)) : Decidable (kind.Admits children) :=
  inferInstanceAs (Decidable (_ ∈ (kind.pattern _).matches'))

/-- Nodes of all kinds have children. -/
theorem NodeKind.Admits.ne_nil {kind : NodeKind} {children : List (Tree α)}
    (h : kind.Admits children) : children ≠ [] := by
  have hpattern (keyword : String) : (kind.pattern keyword).matchEpsilon = false := by
    cases kind with
    | geoProxy =>
      rw [NodeKind.pattern]
      split <;> rfl
    | _ => rfl
  rintro rfl
  have hmatch := (rmatch_iff_matches' _ _).2 h
  rw [List.map_nil, rmatch, hpattern] at hmatch
  cases hmatch

namespace Tree

mutual

/-- The children of each node match its pattern. -/
def Shaped : Tree α → Prop
  | leaf _ => True
  | node kind children => kind.Admits children ∧ forestShaped children

/-- The children of each node of some trees match its pattern. -/
def forestShaped : List (Tree α) → Prop
  | [] => True
  | t :: ts => t.Shaped ∧ forestShaped ts

end

@[simp]
theorem forestShaped_iff (ts : List (Tree α)) : forestShaped ts ↔ ∀ t ∈ ts, t.Shaped := by
  induction ts with
  | nil => simp [forestShaped]
  | cons t ts ih => simp [forestShaped, ih]

theorem shaped_node {kind : NodeKind} {children : List (Tree α)} :
    (node kind children).Shaped ↔ kind.Admits children ∧ ∀ t ∈ children, t.Shaped := by
  rw [Shaped, forestShaped_iff]

mutual

/-- Where each node has a shape, none is without leaves. -/
theorem Shaped.leaves_ne_nil : {t : Tree α} → t.Shaped → t.leaves ≠ []
  | leaf a, _ => by simp [leaves]
  | node _ _, h => forestShaped.leaves_ne_nil h.2 h.1.ne_nil

theorem forestShaped.leaves_ne_nil :
    {ts : List (Tree α)} → forestShaped ts → ts ≠ [] → forestLeaves ts ≠ []
  | [], _, hne => absurd rfl hne
  | t :: ts, h, _ => by
    rw [forestLeaves]
    exact List.append_ne_nil_of_left_ne_nil h.1.leaves_ne_nil _

end

/-! ### Other leaves -/

section Map

variable {f : α → β} (hkind : ∀ a, Lexical.kind (f a) = Lexical.kind a)

include hkind

theorem areRaw_map (ts : List (Tree α)) : areRaw (ts.map (map f)) = areRaw ts := by
  have hleaf : ∀ t : Tree α, (t.map f).isLeaf = t.isLeaf := by
    intro t
    cases t <;> rfl
  cases ts with
  | nil => rfl
  | cons t ts =>
    cases t with
    | leaf a => simp [map, areRaw, hkind, List.all_map, Function.comp_def, hleaf]
    | node => rfl

/-- A pattern sees nothing of the leaves but their kinds. -/
theorem symbol_map (t : Tree α) : (t.map f).symbol = t.symbol := by
  cases t with
  | leaf a => exact congrArg Symbol.token (hkind a)
  | node kind children => rw [map, symbol, symbol, forestMap_eq, areRaw_map hkind]

theorem map_symbol_map (ts : List (Tree α)) : (ts.map (map f)).map symbol = ts.map symbol := by
  rw [List.map_map]
  exact List.map_congr_left fun t _ => symbol_map hkind t

variable (htext : ∀ a, Lexical.text (f a) = Lexical.text a)

include htext

theorem keyword_map (ts : List (Tree α)) : keyword (ts.map (map f)) = keyword ts := by
  cases ts with
  | nil => rfl
  | cons t ts =>
    cases t with
    | leaf a => simp [map, keyword, Rule.geoKeyword, hkind, htext]
    | node => rfl

theorem admits_map {kind : NodeKind} {ts : List (Tree α)} :
    kind.Admits (ts.map (map f)) ↔ kind.Admits ts := by
  rw [NodeKind.Admits, NodeKind.Admits, keyword_map hkind htext, map_symbol_map hkind]

end Map

mutual

/-- **The shape of a tree does not depend on more than the kinds and the texts of its leaves.** -/
theorem shaped_map {f : α → β} (hkind : ∀ a, Lexical.kind (f a) = Lexical.kind a)
    (htext : ∀ a, Lexical.text (f a) = Lexical.text a) :
    (t : Tree α) → ((t.map f).Shaped ↔ t.Shaped)
  | leaf _ => Iff.rfl
  | node kind children => by
    rw [map, Shaped, Shaped, forestShaped_map hkind htext children, forestMap_eq,
      admits_map hkind htext]

theorem forestShaped_map {f : α → β} (hkind : ∀ a, Lexical.kind (f a) = Lexical.kind a)
    (htext : ∀ a, Lexical.text (f a) = Lexical.text a) :
    (ts : List (Tree α)) → (forestShaped (forestMap f ts) ↔ forestShaped ts)
  | [] => Iff.rfl
  | t :: ts => by
    rw [forestMap, forestShaped, forestShaped, shaped_map hkind htext t,
      forestShaped_map hkind htext ts]

end

/-! ## Nodes and leaves -/

variable {k : Nat}

mutual

/-- The nodes of a tree are those that begin with it, and at most `k` for each later token. -/
theorem Shaped.length_kinds_add_le : {t : Tree α} → t.Shaped → t.Chained k →
    t.kinds.length + k ≤ t.chain + k * t.leaves.length
  | leaf a, _, _ => by simp [kinds, chain, leaves]
  | node kind [], h, _ => absurd rfl h.1.ne_nil
  | node kind (t :: ts), h, hk => by
    have hfirst := Shaped.length_kinds_add_le h.2.1 hk.2.1
    have hmore := forestShaped.length_kinds_le h.2.2 hk.2.2
    simp only [kinds, forestKinds, chain, forestChain, leaves, forestLeaves, List.length_cons,
      List.length_append, Nat.mul_add]
    omega

/-- **There are at most `k` nodes for each token**, where no more begin at one place. -/
theorem forestShaped.length_kinds_le : {ts : List (Tree α)} → forestShaped ts →
    forestChained k ts → (forestKinds ts).length ≤ k * (forestLeaves ts).length
  | [], _, _ => Nat.zero_le _
  | t :: ts, h, hk => by
    have hfirst := Shaped.length_kinds_add_le h.1 hk.1
    have hchain := hk.1.chain_le
    have hmore := forestShaped.length_kinds_le h.2 hk.2
    simp only [forestKinds, forestLeaves, List.length_append, Nat.mul_add]
    omega

end

end Tree

end NginxConf
