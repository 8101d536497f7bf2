import NginxConf.Grammar.Rule

/-!
# The language

What a configuration file may look like, as a grammar over tokens:

* a file is any number of statements, and so is what stands between the braces of a block;
* a statement is `value+ (";" | block)`, `if "(" condition+ ")" block`,
  `set (variable | word) value ";"`, `include value ";"`, `geo value value? "{" (entry ";")* "}"`,
  or a keyword with a script in braces;
* a condition is `value`, `value operator value` or `operator value`.

`room` bounds how deep blocks are nested. Unlike the rules that the parser follows, the productions
here say nothing about what to do with anything else, and they are ambiguous.
-/

namespace NginxConf.Phrase

variable {α : Type} [Lexical α]

/-- A word, a variable or a string. -/
def IsValue (t : α) : Prop := (Lexical.kind t).isValue = true

theorem IsValue.not_malformed {t : α} (h : IsValue t) : Lexical.kind t ≠ .malformed := by
  intro e
  simp [IsValue, e, TokenKind.isValue] at h

theorem IsValue.not_operator {t : α} (h : IsValue t) : Lexical.kind t ≠ .operator := by
  intro e
  simp [IsValue, e, TokenKind.isValue] at h

/-- `value`, `value operator value` or `operator value`. -/
inductive IsCondition : List α → Prop
  | value {v} (hv : IsValue v) : IsCondition [v]
  | comparison {v operator w} (hv : IsValue v) (ho : Lexical.kind operator = .operator)
    (hw : IsValue w) : IsCondition [v, operator, w]
  | test {operator v} (ho : Lexical.kind operator = .operator) (hv : IsValue v) :
    IsCondition [operator, v]

/-- The words that begin an entry of a geo block with an operand of its own. -/
def operandWords : List Text := ["default".toList, "delete".toList, "proxy".toList]

/-- The words that are an entry of a geo block by themselves. -/
def flagWords : List Text := ["proxy_recursive".toList, "ranges".toList]

/-- What an entry of a geo block says. -/
inductive IsEntry : List α → Prop
  | inclusion {keyword v} (hk : Lexical.kind keyword = .includeKeyword) (hv : IsValue v) :
    IsEntry [keyword, v]
  | operand {keyword v} (hk : Lexical.kind keyword = .word)
    (ht : Lexical.text keyword ∈ operandWords) (hv : IsValue v) : IsEntry [keyword, v]
  | flag {keyword} (hk : Lexical.kind keyword = .word) (ht : Lexical.text keyword ∈ flagWords) :
    IsEntry [keyword]
  | pair {network v} (hn : IsValue network)
    (ht : Lexical.kind network = .word → Lexical.text network ∉ operandWords ++ flagWords)
    (hv : IsValue v) : IsEntry [network, v]

/-- `entry ";"` -/
inductive IsItem : List α → Prop
  | entry {entry stop} (he : IsEntry entry) (hs : Lexical.kind stop = .semicolon) :
    IsItem (entry ++ [stop])

/-- `"{" (entry ";")* "}"` -/
inductive IsGeoBlock : Nat → List α → Prop
  | items {room opening closing} {items : List (List α)} (hl : Lexical.kind opening = .leftBrace)
    (hi : ∀ i ∈ items, IsItem i) (hr : Lexical.kind closing = .rightBrace) :
    IsGeoBlock (room + 1) (opening :: (items.flatten ++ [closing]))

/-- `"{" code? "}"` -/
inductive IsScript : List α → Prop
  | braces {opening closing} {code : Option α} (hl : Lexical.kind opening = .leftBrace)
    (hc : ∀ c ∈ code, Lexical.kind c = .luaCode) (hr : Lexical.kind closing = .rightBrace) :
    IsScript (opening :: (code.toList ++ [closing]))

mutual

/-- A statement whose blocks are nested at most so deep. -/
inductive IsStatement : Nat → List α → Prop
  | directive {room name args stop} (hn : IsValue name) (ha : ∀ t ∈ args, IsValue t)
    (hs : Lexical.kind stop = .semicolon) : IsStatement room (name :: (args ++ [stop]))
  | directiveBlock {room name args body} (hn : IsValue name) (ha : ∀ t ∈ args, IsValue t)
    (hb : IsBlock room body) : IsStatement room (name :: (args ++ body))
  | ifBlock {room keyword opening closing body} {conditions : List (List α)}
    (hk : Lexical.kind keyword = .ifKeyword)
    (ho : Lexical.kind opening = .leftParen) (hne : conditions ≠ [])
    (hc : ∀ c ∈ conditions, IsCondition c) (hcl : Lexical.kind closing = .rightParen)
    (hb : IsBlock room body) :
    IsStatement room (keyword :: opening :: (conditions.flatten ++ closing :: body))
  | setVariable {room keyword name v stop} (hk : Lexical.kind keyword = .setKeyword)
    (hn : Lexical.kind name = .variableName ∨ Lexical.kind name = .word) (hv : IsValue v)
    (hs : Lexical.kind stop = .semicolon) : IsStatement room [keyword, name, v, stop]
  | inclusion {room keyword path stop} (hk : Lexical.kind keyword = .includeKeyword)
    (hp : IsValue path) (hs : Lexical.kind stop = .semicolon) :
    IsStatement room [keyword, path, stop]
  | geo {room keyword v body} {w : Option α} (hk : Lexical.kind keyword = .geoKeyword)
    (hv : IsValue v) (hw : ∀ t ∈ w, IsValue t) (hb : IsGeoBlock room body) :
    IsStatement room (keyword :: v :: (w.toList ++ body))
  /-- A value stands before the script exactly if the keyword is `set_by_lua_block`. -/
  | lua {room keyword body} {v : Option α} (hk : Lexical.kind keyword = .luaKeyword)
    (hv : ∀ t ∈ v, IsValue t) (ht : v.isSome ↔ Lexical.text keyword = "set_by_lua_block".toList)
    (hb : IsScript body) : IsStatement room (keyword :: (v.toList ++ body))

/-- `"{" statement* "}"` -/
inductive IsBlock : Nat → List α → Prop
  | statements {room opening closing} {statements : List (List α)}
    (hl : Lexical.kind opening = .leftBrace)
    (hs : ∀ s ∈ statements, IsStatement room s) (hr : Lexical.kind closing = .rightBrace) :
    IsBlock (room + 1) (opening :: (statements.flatten ++ [closing]))

end

/-- `statement*` -/
def IsFile (room : Nat) (tokens : List α) : Prop :=
  ∃ statements : List (List α), tokens = statements.flatten ∧
    ∀ s ∈ statements, IsStatement room s

end NginxConf.Phrase
