import NginxConf.Format.Gap
import NginxConf.Parse

/-!
# Formatting

A file is written token by token, each one after the gap before it. Tokens are written as they
are; how a gap is written is the matter of `Gap`. A file with errors is not formatted, for its
blocks may not be what they seem; warnings do no harm.
-/

namespace NginxConf

/-- Why a file is not formatted. -/
inductive FormatError
  /-- The file has errors. -/
  | broken (errors : List Diagnostic)
deriving DecidableEq, Repr

/-- What a refusal says to the user. -/
def FormatError.message : FormatError → String
  | broken errors =>
    "cannot format a file with syntax errors (" ++ toString errors.length ++ " found)"

namespace NodeRef

/--
How the gap before a token is written, with its trivia, given where items begin and the token before
the gap.
-/
def gapBefore (style : Style) (starts : List Nat) (previous : Option TokenRef) (t : TokenRef) :
    Gap × List Trivia :=
  match previous with
  | none => (Gap.first style t, t.token.leading)
  | some p =>
    let trivia := p.token.trailing ++ t.token.leading
    (Gap.between style starts trivia p t, trivia)

/-- Tokens after the gaps before them, given where items begin and the token before the first. -/
def writeTokens (style : Style) (starts : List Nat) (previous : Option TokenRef) :
    List TokenRef → Text
  | [] => []
  | t :: ts =>
    let (gap, trivia) := gapBefore style starts previous t
    gap.write style previous.isSome trivia ++ t.token.text ++ writeTokens style starts (some t) ts

/-- The text of a node in a style. -/
def format (style : Style) (n : NodeRef) : Text :=
  writeTokens style n.itemStarts none n.allTokens

end NodeRef

/-- The text of a parsed file in a style. -/
def Parse.format (style : Style) (p : Parse) : Except FormatError Text :=
  if p.hasErrors then .error (.broken (p.diagnostics.filter Diagnostic.isError))
  else .ok ((NodeRef.root p.tree).format style)

/-- The text of a file in a style. -/
def format (style : Style) (s : Text) : Except FormatError Text := (parse s).format style

end NginxConf
