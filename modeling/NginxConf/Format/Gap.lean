import NginxConf.Format.Style
import NginxConf.SyntaxTree.View

/-!
# The gaps between tokens

Formatting changes what stands between two tokens and nothing else. There are three ways to write
a gap.

* **As lines.** Comments and line breaks are kept and all blanks are chosen anew. So it is before a
  statement, an entry of a geo block, a brace of a block, the opening brace of a script, and at both
  ends of the file.
* **As nothing,** before a semicolon that has no comment or line break in front of it.
* **As it was,** everywhere else: between arguments, and around the code of a script. Only line
  endings are made uniform, and blanks at the end of a line are dropped.

## Termination

By recursion on the trivia of the gap.
-/

namespace NginxConf

/-- How a gap is written as lines. -/
structure Lines where
  /-- The level of the token after the gap. -/
  indent : Nat
  /-- The level of comments on lines of their own. -/
  commentIndent : Nat
  /-- The least number of line breaks before the token. -/
  minBreaks : Nat
  /-- The most line breaks before the token. -/
  maxBreaks : Nat
  /-- What stands before the token if there is no line break. -/
  sameLine : Text
deriving DecidableEq, Repr

/-- How a gap is written. -/
inductive Gap
  | lines (layout : Lines)
  | nothing
  | verbatim
deriving DecidableEq, Repr

/-! ## Writing a gap -/

namespace Lines

variable (style : Style)

/-- Line breaks. None are written where nothing has been written before. -/
def breaks (opened : Bool) (count : Nat) : Text := if opened then style.breaks count else []

/--
The trivia of a gap, after `count` line breaks since the last comment. `opened` says whether
anything has been written before, `sameLine` that no line break has been met in the gap.
-/
def writeFrom (layout : Lines) (opened : Bool) (count : Nat) (sameLine : Bool) :
    List Trivia → Text
  | [] =>
    let count := max count layout.minBreaks
    if count = 0 then layout.sameLine
    else breaks style opened (min count layout.maxBreaks) ++ style.indent layout.indent
  | t :: ts =>
    match t.kind with
    | .newline => layout.writeFrom opened (count + 1) false ts
    | .whitespace => layout.writeFrom opened count sameLine ts
    | .comment =>
      let before :=
        if sameLine && opened then [' ']
        else breaks style opened count ++ style.indent layout.commentIndent
      before ++ t.text ++ layout.writeFrom true 0 sameLine ts

end Lines

/-- Trivia as it was, with uniform line endings and no blanks at the end of a line. -/
def writeVerbatim (style : Style) : List Trivia → Text
  | [] => []
  | t :: ts =>
    let here :=
      match t.kind with
      | .newline => style.lineEnding.text
      | .whitespace => if ts.head?.any (·.kind == .newline) then [] else t.text
      | .comment => t.text
    here ++ writeVerbatim style ts

/-- The text of a gap. -/
def Gap.write (style : Style) (opened : Bool) (trivia : List Trivia) : Gap → Text
  | lines layout => layout.writeFrom style opened 0 true trivia
  | nothing => []
  | verbatim => writeVerbatim style trivia

/-! ## Choosing how to write a gap -/

namespace NodeRef

/-- Whether the text of a node goes over several lines. -/
def spansLines (n : NodeRef) : Bool := n.trimmedTokens.any (·.fullText.contains '\n')

theorem spansLines_eq (n : NodeRef) : n.spansLines = n.trimmedText.contains '\n' := by
  rw [Bool.eq_iff_iff]
  simp [spansLines, trimmedText]

/-- What a node has on lines of their own: statements, or the entries of a geo block. -/
def items (n : NodeRef) : List NodeRef :=
  match n.kind with
  | .sourceFile | .block => n.statements.map Statement.node
  | .geoBlock => n.geoItems
  | _ => []

/-- The offsets at which the items of a node and of all nodes below it begin. -/
def itemStarts (n : NodeRef) : List Nat :=
  n.descendants.flatMap fun m => m.items.map (·.trimmedSpan.start)

end NodeRef

namespace TokenRef

/-- Whether the token is a brace of a block. -/
def isBlockBrace (t : TokenRef) : Bool :=
  (t.token.kind == .leftBrace || t.token.kind == .rightBrace) && t.parent.kind.isBlock

/--
The level of a token: the number of blocks around it. The braces of a block are on the level of the
statement that the block belongs to.
-/
def level (t : TokenRef) : Nat :=
  t.parent.ancestors.countP (·.kind.isBlock) - if t.isBlockBrace then 1 else 0

/-- Whether the gap between two tokens belongs to the code of a script. -/
def beforeScript (previous t : TokenRef) : Bool :=
  t.token.kind == .luaCode || previous.token.kind == .luaCode
    || (previous.token.kind == .leftBrace && previous.parent.kind.isLua)

end TokenRef

/-- Whether trivia holds a comment or a line break. -/
def hasBreak (trivia : List Trivia) : Bool := trivia.any (·.kind != .whitespace)

namespace Gap

/-- How the gap before the first token is written. -/
def first (style : Style) (t : TokenRef) : Gap :=
  lines ⟨0, 0, 0, if t.token.kind = .endOfFile then 1 else style.maxBreaks, []⟩

/-- How the gap between two tokens is written, given where items begin. -/
def between (style : Style) (starts : List Nat) (trivia : List Trivia) (previous t : TokenRef) :
    Gap :=
  if t.token.kind = .endOfFile then lines ⟨0, 0, 0, 1, []⟩
  else if previous.beforeScript t then verbatim
  else if t.token.kind = .rightBrace ∧ t.parent.kind.isBlock then
    let empty := previous.token.kind == .leftBrace && previous.parent.same t.parent
    lines ⟨t.level, t.level + 1, if t.parent.spansLines then 1 else 0, style.maxBreaks,
      if empty then [] else [' ']⟩
  else if starts.contains t.span.start then
    let opensBlock :=
      previous.token.kind == .leftBrace && previous.parent.kind.isBlock
        && previous.parent.spansLines
    lines ⟨t.level, t.level, if opensBlock then 1 else 0, style.maxBreaks, [' ']⟩
  else if t.token.kind = .semicolon ∧ ¬ hasBreak trivia then nothing
  else if t.token.kind = .leftBrace ∧ (t.parent.kind.isBlock ∨ t.parent.kind.isLua) then
    lines ⟨t.level, t.level, 0, style.maxBreaks, [' ']⟩
  else verbatim

end Gap

end NginxConf
