import NginxConf.Grammar.Rule

/-!
# Statements

The rules for one statement and for one entry of a geo block, as terms. A block is named where one
can stand (`Rule.block`); `Grammar.lean` ties the knot.

A statement that goes wrong keeps what has been read and reports what is missing; what it cannot
use is left for the next statement. Only a directive that ends in neither `;` nor a block is given
up as an error node.
-/

namespace NginxConf

namespace Rule

variable {α : Type} [Lexical α]

/-! ## Parts of statements -/

/-- A value that must be there. -/
def value (what : Missing) : Rule α := ifNext TokenKind.isValue advance (lacking what)

/-- Values that a statement has no room for, as one error node. -/
def extraValues : Rule α :=
  ifNext TokenKind.isValue
    (wrap .error (complainAcross .extraValues (acceptAll TokenKind.isValue)))
    done

/-- The semicolon that ends a statement, after values that it has no room for. -/
def semicolon : Rule α :=
  extraValues ++ ifNext (· == .semicolon) advance (lacking .semicolon)

/-- Whether a directive can have such a token as an argument. -/
def isArgument (kind : TokenKind) : Bool := kind.isValue || kind == .malformed

/-- Whether a condition can begin with such a token. -/
def startsCondition (kind : TokenKind) : Bool := kind.isValue || kind == .operator

/-- Whether an entry of a geo block can begin with such a token. -/
def startsGeoEntry (kind : TokenKind) : Bool := kind.isValue || kind == .includeKeyword

/-! ## Directives -/

/-- The node that a directive becomes, by what follows its arguments. -/
def directiveKind : Option TokenKind → NodeKind
  | some .semicolon | some .leftBrace => .directive
  | _ => .error

theorem isBlock_directiveKind (next : Option TokenKind) :
    (directiveKind next).isBlock = false := by
  unfold directiveKind
  split <;> rfl

/-- How a directive ends, by what follows its arguments. -/
def directiveEnd (name : α) : Option TokenKind → Rule α
  | some .semicolon => advance
  | some .leftBrace => block .plain
  | _ => complainSince name (.unfinishedDirective (Lexical.text name))

/-- `name args* ;` or `name args* { … }`. -/
def directive : Rule α :=
  withNext fun name =>
    wrapBy (advance ++ acceptAll isArgument) directiveKind (directiveEnd name)

/-- `set $name value;` -/
def setStatement : Rule α :=
  wrap .setStatement (seq
    [advance,
      ifNext (fun kind => kind == .variableName || kind == .word)
        (advance ++ value .valueToAssign)
        (lacking .variableToSet),
      semicolon])

/-- `include path;` -/
def includeStatement : Rule α :=
  wrap .includeStatement (seq [advance, value .pathToInclude, semicolon])

/-! ## Conditions -/

/-- `value`, `value operator value` or `operator value`. -/
def condition : Rule α :=
  wrap .condition
    (ifNext (· == .operator)
      (advance ++ value .operand)
      (advance ++ ifNext (· == .operator) (advance ++ value .operand) done))

/-- The conditions between parentheses. Only one is evaluated, so all others are reported. -/
def conditions : Rule α :=
  ifNext startsCondition
    (condition
      ++ ifNext startsCondition
        (complainAcross .extraConditions (many startsCondition condition))
        done)
    (lacking .condition)

/-- `if (condition) { … }`. A missing block is reported only where the condition is whole. -/
def ifStatement : Rule α :=
  wrap .ifStatement
    (advance
      ++ ifNext (· == .leftParen)
        (seq
          [advance, conditions,
            ifNext (· == .rightParen)
              (advance ++ ifNext (· == .leftBrace) (block .plain) (lacking .openingBrace))
              (lacking .closingParen ++ ifNext (· == .leftBrace) (block .plain) done)])
        (lacking .openingParen ++ ifNext (· == .leftBrace) (block .plain) done))

/-! ## Scripts -/

/-- The closing brace of a script. -/
def closeScript (brace : α) : Rule α :=
  ifNext (· == .rightBrace) advance (complainAt brace .unclosedBrace)

/-- What follows the opening brace of a script, by the kind of the next token. -/
def scriptBody (brace : α) : Option TokenKind → Rule α
  | some .malformed => advance ++ accept (· == .rightBrace)
  | some .luaCode => advance ++ closeScript brace
  | _ => closeScript brace

/-- `{ script }`. A script that the text ends is reported as a malformed token, and no more. -/
def script : Rule α := withNext fun brace => advance ++ peek (scriptBody brace)

/-- The kind of statement that a keyword with a script begins. -/
def luaKind (keyword : α) : NodeKind := .ofLuaKeyword (String.ofList (Lexical.text keyword))

theorem isBlock_luaKind (keyword : α) : (luaKind keyword).isBlock = false := by
  have h := NodeKind.isLua_ofLuaKeyword (String.ofList (Lexical.text keyword))
  rw [luaKind]
  generalize NodeKind.ofLuaKeyword (String.ofList (Lexical.text keyword)) = kind at h ⊢
  cases kind <;> first | rfl | cases h

/-- `set_by_lua_block $variable { script }` or `*_by_lua_block { script }`. -/
def luaStatement : Rule α :=
  withNext fun keyword =>
    wrap (luaKind keyword) (seq
      [advance,
        if luaKind keyword = .setLua then value .luaVariable else done,
        extraValues,
        ifNext (· == .leftBrace)
          script
          (complain (.scriptWithoutBlock (Lexical.text keyword)) ++ accept (· == .semicolon))])

/-! ## Geo -/

/-- `geo [$address] $variable { entries }` -/
def geoStatement : Rule α :=
  wrap .geoStatement (seq
    [advance,
      ifNext TokenKind.isValue
        (advance ++ accept TokenKind.isValue)
        (lacking .geoVariable),
      extraValues,
      ifNext (· == .leftBrace) (block .geo) (lacking .openingBrace)])

/-- The operand of an entry. Where several entries stand together it is not missed. -/
def geoOperand (strict : Bool) (what : Missing) : Rule α :=
  if strict then value what else accept TokenKind.isValue

/-- The first word of an entry of a geo block, if it is one. -/
def geoKeyword (first : α) : String :=
  if Lexical.kind first = .word then String.ofList (Lexical.text first) else ""

/-- What one entry of a geo block says. -/
def geoEntry (strict : Bool) : Rule α :=
  withNext fun first =>
    if Lexical.kind first = .includeKeyword then
      wrap .geoInclude (advance ++ geoOperand strict .pathToInclude)
    else if geoKeyword first = "default" then
      wrap .geoDefault (advance ++ geoOperand strict .geoDefault)
    else if geoKeyword first = "delete" then
      wrap .geoDelete (advance ++ geoOperand strict .geoNetwork)
    else if geoKeyword first = "proxy" then
      wrap .geoProxy (advance ++ geoOperand strict .geoProxy)
    else if geoKeyword first = "proxy_recursive" then wrap .geoProxy advance
    else if geoKeyword first = "ranges" then wrap .geoRanges advance
    else wrap .geoValue (advance ++ geoOperand strict .geoValue)

/-- An entry of a geo block up to its `;`. More entries before the `;` are one error node. -/
def wholeGeoItem : Rule α :=
  wrap .geoItem (seq
    [geoEntry true,
      ifNext startsGeoEntry
        (wrap .error (complainAcross .extraGeoEntries (many startsGeoEntry (geoEntry false))))
        done,
      ifNext (· == .semicolon) advance (lacking .semicolon)])

/-! ## Choosing a rule -/

/-- The rule for a statement that begins with a token. -/
def statementFrom (first : α) : Rule α :=
  match Lexical.kind first with
  | .ifKeyword => ifStatement
  | .setKeyword => setStatement
  | .includeKeyword => includeStatement
  | .geoKeyword => geoStatement
  | .luaKeyword => luaStatement
  | .word | .variableName | .string => directive
  | .leftBrace => wrap .error (complainAt first .namelessBlock ++ block .plain)
  | .malformed => wrap .error advance
  | kind => reject (.unexpected kind)

/-- One statement. -/
def statement : Rule α := withNext statementFrom

/-- The rule for an entry of a geo block, or what stands in its place, by its first token. -/
def geoItemFrom (first : α) : Rule α :=
  match Lexical.kind first with
  | .word | .variableName | .string | .includeKeyword => wholeGeoItem
  | .semicolon => reject .emptyGeoItem
  | .malformed => wrap .error advance
  | _ => wrap .error (complainAt first .notAGeoItem ++ statement)

/-- One entry of a geo block, or what stands in its place. -/
def geoItem : Rule α := withNext geoItemFrom

/-- What a block of a shape is made of. -/
def item : BlockShape → Rule α
  | .plain => statement
  | .geo => geoItem

/-! ## Blocks -/

/-- A block that is nested too deep, as raw tokens. -/
def tooDeep : Rule α :=
  withNext fun brace => wrap .error (complainAt brace .tooDeep ++ rawGroup)

/-- `{ item* }`, where `brace` is the `{`. -/
def braced (brace : α) (shape : BlockShape) : Rule α :=
  seq
    [advance,
      many (· != .rightBrace) (item shape),
      ifNext (· == .rightBrace) advance (complainAt brace .unclosedBrace)]

/-- One statement, or a `}` that closes nothing. -/
def topStatement : Rule α :=
  ifNext (· == .rightBrace) (reject .unmatchedBrace) statement

end Rule

end NginxConf
