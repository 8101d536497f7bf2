import NginxConf.SyntaxTree.View
import NginxConf.Text.Blank
import NginxConf.Text.Line

/-!
# Embedded scripts

Where a file holds code of the script language, so that an editor can treat it as such. Blank lines
at both ends of the code are left out, and code that is blank altogether does not count.
-/

namespace NginxConf

/-- The lines of code, from the first to the last that is not blank, as a range of the code. -/
def contentSpan? (code : Text) : Option Span :=
  let lines := Text.lines code
  if lines.all Text.isBlankText then none
  else
    let before := (lines.takeWhile Text.isBlankText).flatten
    let after := (lines.reverse.takeWhile Text.isBlankText).reverse.flatten
    some ⟨Text.size before, Text.size code - Text.size after⟩

/-- A script in a file. -/
structure Injection where
  /-- The kind of the statement that holds the script. -/
  statement : NodeKind
  span : Span
deriving DecidableEq, Repr

/-- The script that a token is: the first code of its statement. -/
def TokenRef.injection? (t : TokenRef) : Option Injection := do
  let code ← t.parent.token? .luaCode
  if t.parent.kind.isLua ∧ code.address = t.address then
    return ⟨t.parent.kind, (← contentSpan? t.token.text).shift t.span.start⟩
  else none

/-- The scripts of a node, in order. -/
def NodeRef.injections (n : NodeRef) : List Injection := n.allTokens.filterMap TokenRef.injection?

end NginxConf
