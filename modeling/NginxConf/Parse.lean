import NginxConf.Diagnostic
import NginxConf.Grammar
import NginxConf.SyntaxTree.Walk
import NginxConf.Token.Stream

/-!
# Parsing

`parse` turns any text into a tree and a list of diagnostics. It never fails, and the tree, written
out, is the text: what cannot be made sense of is kept in error nodes.

The grammar works on tokens in their places. Once it is done, the places serve to give every issue
its range, and the tree keeps the tokens alone.

Nothing is stored here in numbers of a fixed size. `Machine.parse` is the parse whose marks and whose
tree are stored in 32 bits; it gives this parse where they are enough for that.
-/

namespace NginxConf

instance : Lexical PlacedToken where
  kind p := p.token.kind
  text p := p.token.text
  fault p := p.fault

/-- A tree with what was found wrong while building it. -/
structure Parse where
  tree : SyntaxTree
  /-- In the order of where they begin. -/
  diagnostics : List Diagnostic
deriving DecidableEq

/-- The range of a place in a text. -/
def Place.span : Place PlacedToken → Span
  | across first last => ⟨first.span.start, last.span.stop⟩
  | after token => .point token.span.stop

/-- An issue as a report to the user. -/
def Issue.diagnostic (i : Issue PlacedToken) : Diagnostic where
  span := i.place.span
  message := i.problem.message
  severity := if i.problem.isWarning then .warning else .error
  origin := if i.problem.isLexical then .lexer else .grammar

namespace Parse

/-- The text that was parsed. -/
def text (p : Parse) : Text := p.tree.text

/-- Whether anything is wrong that is not a mere warning. -/
def hasErrors (p : Parse) : Bool := p.diagnostics.any Diagnostic.isError

/-- The written form of a parse: the tree, then each diagnostic on a line. -/
def dump (p : Parse) : String :=
  (NodeRef.root p.tree).dump ++ String.join (p.diagnostics.map fun d => d.render ++ "\n")

end Parse

/-- Parses a whole file. -/
def parse (s : Text) : Parse :=
  let stream := tokenize s
  let found := parseFile stream.tokens
  { tree := ⟨.sourceFile,
      found.1.map (Tree.map PlacedToken.token) ++ [.leaf stream.stop.token]⟩
    diagnostics := Diagnostic.sort (found.2.map Issue.diagnostic) }

end NginxConf
