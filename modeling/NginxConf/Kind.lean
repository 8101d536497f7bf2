/-!
# Kinds

Everything a configuration file is made of has a kind. There are three sorts of them: trivia
(blanks, line breaks and comments, which mean nothing), tokens (which mean something) and nodes
(statements and their parts, made of tokens and smaller nodes). Each sort is a type of its own, so
that a node can never be asked to be trivia; `Kind` is their union, in the order in which kinds are
listed to users.
-/

namespace NginxConf

/-- What stands between tokens. -/
inductive TriviaKind
  | whitespace
  | newline
  | comment
deriving DecidableEq, Repr, Inhabited

/-- The smallest parts that mean something. -/
inductive TokenKind
  | leftParen
  | rightParen
  | leftBrace
  | rightBrace
  | semicolon
  | ifKeyword
  | setKeyword
  | includeKeyword
  | geoKeyword
  /-- Any word that ends in `_by_lua_block`. -/
  | luaKeyword
  | word
  /-- A word that is exactly one variable. -/
  | variableName
  | string
  | operator
  /-- The script between the braces of a Lua block. -/
  | luaCode
  /-- A string or a Lua block that the text ends before it does. -/
  | malformed
  /-- The end of the text, a token without characters. -/
  | endOfFile
deriving DecidableEq, Repr, Inhabited

/-- Statements, blocks, their parts, and what could not be made sense of. -/
inductive NodeKind
  | sourceFile
  | block
  | directive
  | ifStatement
  | condition
  | setStatement
  | includeStatement
  | geoStatement
  | geoBlock
  /-- One entry of a geo block, with the semicolon that ends it. -/
  | geoItem
  | geoDefault
  | geoDelete
  | geoInclude
  | geoProxy
  | geoRanges
  | geoValue
  | accessLua
  | contentLua
  /-- A script that may change the address asked for. -/
  | uriLua
  | setLua
  | sslCertificateLua
  /-- Any other `*_by_lua_block` statement. -/
  | otherLua
  | error
  /-- A node that stands for nothing. -/
  | tombstone
deriving DecidableEq, Repr, Inhabited

/-- The kind of a piece of the text: trivia or token. -/
inductive LeafKind
  | token (kind : TokenKind)
  | trivia (kind : TriviaKind)
deriving DecidableEq, Repr, Inhabited

/-- Any kind. -/
inductive Kind
  | leaf (kind : LeafKind)
  | node (kind : NodeKind)
deriving DecidableEq, Repr, Inhabited

namespace TriviaKind

/-- The word for a sort of trivia. -/
def label : TriviaKind → String
  | whitespace => "Whitespace"
  | newline => "Newline"
  | comment => "Comment"

end TriviaKind

namespace TokenKind

/-- Whether a token can be a directive's name or an argument. -/
def isValue : TokenKind → Bool
  | word | variableName | string => true
  | _ => false

end TokenKind

namespace NodeKind

/-- Whether a node is a statement with an embedded script. -/
def isLua : NodeKind → Bool
  | accessLua | contentLua | uriLua | setLua | sslCertificateLua | otherLua => true
  | _ => false

/-- Whether a node is what an entry of a geo block says. -/
def isGeoEntry : NodeKind → Bool
  | geoDefault | geoDelete | geoInclude | geoProxy | geoRanges | geoValue => true
  | _ => false

/-- Whether a node is a pair of braces with what stands between them. -/
def isBlock : NodeKind → Bool
  | block | geoBlock => true
  | _ => false

/-- A block is no script. -/
theorem isLua_of_isBlock {kind : NodeKind} (h : kind.isBlock = true) : kind.isLua = false := by
  cases kind <;> first
    | rfl
    | cases h

/-- Whether a node is a statement. -/
def isStatement : NodeKind → Bool
  | directive | ifStatement | setStatement | includeStatement | geoStatement => true
  | kind => kind.isLua

/-- The kind of statement that a `*_by_lua_block` keyword begins. -/
def ofLuaKeyword (name : String) : NodeKind :=
  if name = "access_by_lua_block" then accessLua
  else if name = "content_by_lua_block" then contentLua
  else if name = "rewrite_by_lua_block" then uriLua
  else if name = "set_by_lua_block" then setLua
  else if name = "ssl_certificate_by_lua_block" then sslCertificateLua
  else otherLua

theorem isLua_ofLuaKeyword (name : String) : (ofLuaKeyword name).isLua = true := by
  unfold ofLuaKeyword
  repeat' split
  all_goals rfl

end NodeKind

namespace Kind

instance : Coe LeafKind Kind := ⟨.leaf⟩
instance : Coe NodeKind Kind := ⟨.node⟩

/-- The kind of a token. -/
abbrev token (kind : TokenKind) : Kind := .leaf (.token kind)

/-- The kind of a piece of trivia. -/
abbrev trivia (kind : TriviaKind) : Kind := .leaf (.trivia kind)

/-- Every kind with its name, in the order in which kinds are listed. -/
def table : List (Kind × String) :=
  [(token .leftParen, "LEFT_PAREN"), (token .rightParen, "RIGHT_PAREN"),
   (token .leftBrace, "LEFT_BRACE"), (token .rightBrace, "RIGHT_BRACE"),
   (token .semicolon, "SEMICOLON"), (token .ifKeyword, "IF_KW"), (token .setKeyword, "SET_KW"),
   (token .includeKeyword, "INCLUDE_KW"), (token .geoKeyword, "GEO_KW"),
   (token .luaKeyword, "LUA_BLOCK_KW"), (token .word, "WORD"),
   (token .variableName, "VARIABLE"), (token .string, "STRING"), (token .operator, "OPERATOR"),
   (token .luaCode, "LUA_CODE"), (trivia .whitespace, "WHITESPACE"),
   (trivia .newline, "NEWLINE"), (trivia .comment, "COMMENT"), (token .malformed, "ERROR_TOKEN"),
   (token .endOfFile, "EOF"), (node .sourceFile, "SOURCE_FILE"), (node .block, "BLOCK_STMT"),
   (node .directive, "DIRECTIVE_STMT"), (node .ifStatement, "CONDITION_STMT"),
   (node .condition, "CONDITION_EXPR"), (node .setStatement, "VARIABLE_STMT"),
   (node .includeStatement, "INCLUDE_DIRECTIVE_STMT"), (node .geoStatement, "GEO_STMT"),
   (node .geoBlock, "GEO_BLOCK_STMT"), (node .geoItem, "GEO_BLOCK_CONTENT"),
   (node .geoDefault, "GEO_DEFAULT_STMT"), (node .geoDelete, "GEO_DELETE_STMT"),
   (node .geoInclude, "GEO_INCLUDE_STMT"), (node .geoProxy, "GEO_PROXY_STMT"),
   (node .geoRanges, "GEO_RANGES_STMT"), (node .geoValue, "GEO_VALUE_STMT"),
   (node .accessLua, "ACCESS_BY_LUA_BLOCK_STMT"), (node .contentLua, "CONTENT_BY_LUA_BLOCK_STMT"),
   (node .uriLua, "REWRITE_BY_LUA_BLOCK_STMT"), (node .setLua, "SET_BY_LUA_BLOCK_STMT"),
   (node .sslCertificateLua, "SSL_CERTIFICATE_BY_LUA_BLOCK_STMT"),
   (node .otherLua, "LUA_BLOCK_STMT"), (node .error, "ERROR"), (node .tombstone, "TOMBSTONE")]

/-- Every kind, in the order in which kinds are listed. -/
def all : List Kind := table.map Prod.fst

/-- The place of a kind in the list of all kinds. -/
def index (k : Kind) : Nat := all.idxOf k

/-- The name under which a kind is shown. -/
def name (k : Kind) : String := (table.lookup k).getD ""

/-- The kind of a name. -/
def ofName? (s : String) : Option Kind := all.find? fun k => k.name == s

/-- No kind is missing from the list. -/
theorem mem_all (k : Kind) : k ∈ all := by
  rcases k with (k | k) | k <;> cases k <;> decide

/-- Kinds at one place are equal. -/
theorem index_inj {a b : Kind} (h : a.index = b.index) : a = b := by
  have ha := List.getElem_idxOf (List.idxOf_lt_length_of_mem (mem_all a))
  have hb := List.getElem_idxOf (List.idxOf_lt_length_of_mem (mem_all b))
  rw [← ha, ← hb]
  congr 1

/-- A kind is found again under its name. -/
theorem ofName?_name (k : Kind) : ofName? k.name = some k := by
  rcases k with (k | k) | k <;> cases k <;> decide

/-- Whether a kind means nothing. -/
def isTrivia : Kind → Bool
  | .leaf (.trivia _) => true
  | _ => false

/-- Whether a kind is one of pieces of the text, not of nodes. -/
def isLeaf : Kind → Bool
  | .leaf _ => true
  | .node _ => false

/-- Whether a kind can be a directive's name or an argument. -/
def isValue : Kind → Bool
  | .leaf (.token k) => k.isValue
  | _ => false

/-- Whether a kind is a statement with an embedded script. -/
def isLua : Kind → Bool
  | .node k => k.isLua
  | _ => false

/-- Whether a kind is what an entry of a geo block says. -/
def isGeoEntry : Kind → Bool
  | .node k => k.isGeoEntry
  | _ => false

/-- The sort of trivia, if the kind is one. -/
def trivia? : Kind → Option TriviaKind
  | .leaf (.trivia k) => some k
  | _ => none

end Kind

end NginxConf
