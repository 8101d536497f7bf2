import NginxConf.Lexeme

/-!
# Problems

Everything that can be wrong with a configuration file, by cause. The wording for the user is in
one place, `Problem.message`.
-/

namespace NginxConf

/-- What can be missing. -/
inductive Missing
  | valueToAssign
  | variableToSet
  | pathToInclude
  | closingParen
  | openingParen
  | openingBrace
  | condition
  | operand
  | luaVariable
  | semicolon
  | geoVariable
  | geoDefault
  | geoNetwork
  | geoProxy
  | geoValue
deriving DecidableEq, Repr, Inhabited

namespace Missing

/-- What was expected, in words. -/
def label : Missing → String
  | valueToAssign => "a value to assign"
  | variableToSet => "a variable name after `set`"
  | pathToInclude => "a file path after `include`"
  | closingParen => "`)`"
  | openingParen => "`(` after `if`"
  | openingBrace => "`\x7b`"
  | condition => "a condition"
  | operand => "an operand"
  | luaVariable => "a variable after `set_by_lua_block`"
  | semicolon => "`;`"
  | geoVariable => "a variable after `geo`"
  | geoDefault => "a value after `default`"
  | geoNetwork => "a network after `delete`"
  | geoProxy => "an address after `proxy`"
  | geoValue => "a value for the network"

end Missing

/-- What can be wrong. -/
inductive Problem
  /-- A token is malformed. -/
  | malformed (fault : LexFault)
  /-- Something is not there. -/
  | missing (what : Missing)
  /-- A token stands where no statement can begin. -/
  | unexpected (kind : TokenKind)
  /-- A `}` at the top closes nothing. -/
  | unmatchedBrace
  /-- A block is not closed. -/
  | unclosedBrace
  /-- A block belongs to no directive. -/
  | namelessBlock
  /-- A directive ends without `;` and without a block. -/
  | unfinishedDirective (name : Text)
  /-- The keyword of a script is not followed by a block. -/
  | scriptWithoutBlock (keyword : Text)
  /-- There are blocks around this one as deep as they may be. -/
  | tooDeep
  /-- A statement has no room for these values. -/
  | extraValues
  /-- Only one condition is evaluated. -/
  | extraConditions
  /-- A geo block has an entry that says nothing. -/
  | emptyGeoItem
  /-- This is no entry of a geo block. -/
  | notAGeoItem
  /-- Several entries of a geo block are not separated. -/
  | extraGeoEntries
deriving DecidableEq, Repr, Inhabited

namespace Problem

/-- The word for a token where no statement can begin. -/
def tokenLabel : TokenKind → String
  | .semicolon => "`;`"
  | .leftParen => "`(`"
  | .rightParen => "`)`"
  | .rightBrace => "`\x7d`"
  | .operator => "operator"
  | .luaCode => "Lua code"
  | _ => "token"

/-- What a problem says to the user. -/
def message : Problem → String
  | malformed fault => fault.message
  | missing what => "expected " ++ what.label
  | unexpected kind => "unexpected " ++ tokenLabel kind
  | unmatchedBrace => "unmatched `\x7d`"
  | unclosedBrace => "unclosed `\x7b`"
  | namelessBlock => "expected a directive name before `\x7b`"
  | unfinishedDirective name => "expected `;` or `\x7b` after `" ++ String.ofList name ++ "`"
  | scriptWithoutBlock keyword => "expected `\x7b` after `" ++ String.ofList keyword ++ "`"
  | tooDeep => "blocks nested too deeply"
  | extraValues => "unexpected extra values"
  | extraConditions => "only the first condition is evaluated"
  | emptyGeoItem => "empty geo entry"
  | notAGeoItem => "expected a geo entry"
  | extraGeoEntries => "a geo entry holds a single statement; expected `;`"

/-- Only a condition too many is harmless. -/
def isWarning : Problem → Bool
  | extraConditions => true
  | _ => false

/-- Whether the lexer found the problem. -/
def isLexical : Problem → Bool
  | malformed _ => true
  | _ => false

end Problem

end NginxConf
