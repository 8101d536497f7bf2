import NginxConf.Edit
import NginxConf.Parse
import NginxConf.SyntaxTree.Builder
import NginxConf.SyntaxTree.Walk

/-!
# Parsing again after an edit

An edit between the braces of a block leaves everything outside the braces as it was. `reparse`
therefore parses only the innermost such block again and puts it in the place of the old one.

Whenever the block cannot be taken on its own, the whole text is parsed: no closed block holds the
edit, a report crosses a brace, the new braces are not one closed block, or a token in them is
malformed.

What is put together is built anew over the edited text, so every piece of the tree is a piece of
that text; the tree is refused when its pieces do not cover the text.

The builder here is that of trees, which has room for any number of parts. The builder of an arena
stores what it builds exactly if the numbers in the arena have 32 bits, and refuses what it refuses
(`Arena.build_eq_ok_iff`, `Arena.build_eq_error`). Marks among the events of a parser, which have 32
bits as well, are those of `Machine.parse`.
-/

namespace NginxConf

/-- Why there is no parse after an edit. -/
inductive ReparseError
  /-- The edit does not fit the text. -/
  | edit (error : EditError)
  /-- The parts put together are not a tree of the edited text. -/
  | build (error : BuildError)
deriving DecidableEq, Repr

/-! ## Closed blocks -/

/-- The shape of the blocks of a kind. -/
def BlockShape.ofKind? : NodeKind → Option BlockShape
  | .block => some .plain
  | .geoBlock => some .geo
  | _ => none

/-- A block with both of its braces. -/
structure ClosedBlock where
  node : NodeRef
  shape : BlockShape
  left : TokenRef
  right : TokenRef

namespace ClosedBlock

/-- The range between the braces. -/
def interior (b : ClosedBlock) : Span := ⟨b.left.span.stop, b.right.span.start⟩

/-- How many blocks stand around the block. -/
def depth (b : ClosedBlock) : Nat := b.node.above.countP (·.kind.isBlock)

end ClosedBlock

namespace NodeRef

/-- The node as a closed block: a block whose first child token is `{` and whose last is `}`. -/
def closedBlock? (n : NodeRef) : Option ClosedBlock := do
  let shape ← BlockShape.ofKind? n.kind
  let left ← n.tokens.head?
  let right ← n.tokens.tail.getLast?
  if left.token.kind = .leftBrace ∧ right.token.kind = .rightBrace then
    return ⟨n, shape, left, right⟩
  else none

/-- The innermost closed block below a node with a range between its braces. -/
def enclosingBlock? (n : NodeRef) (range : Span) : Option ClosedBlock :=
  ((n.descendants.filterMap closedBlock?).filter (·.interior.contains range)).getLast?

end NodeRef

/-! ## Putting a block into a tree -/

namespace Tree

/-- The tree with the subtree at the end of a path of child positions replaced. -/
def replaceAt {α : Type} : Tree α → List Nat → Tree α → Tree α
  | _, [], new => new
  | leaf a, _ :: _, _ => leaf a
  | node kind children, position :: path, new =>
    node kind (children.modify position fun t => t.replaceAt path new)

/-- The tree with other trivia before it, if it is a token. -/
def withLeading (leading : List Trivia) : Tree Token → Tree Token
  | leaf t => leaf { t with leading := leading }
  | t => t

/-- The tree with other trivia after it, if it is a token. -/
def withTrailing (trailing : List Trivia) : Tree Token → Tree Token
  | leaf t => leaf { t with trailing := trailing }
  | t => t

/-- The block with other trivia before its first brace and after its last one. -/
def surround (leading trailing : List Trivia) : Tree Token → Tree Token
  | leaf t => leaf t
  | node kind children =>
    node kind
      ((children.modifyHead (withLeading leading)).modify (children.length - 1)
        (withTrailing trailing))

end Tree

/-- The calls that build a tree in which the node in a place is replaced. -/
def SyntaxTree.callsWith (t : SyntaxTree) (place : NodeRef) (new : Tree Token) : List BuildCall :=
  treeCalls (t.toTree.replaceAt place.address.reverse new)

/-! ## Reports around a block -/

/--
The reports before and after a range; those inside are dropped. There is no answer when a report
lies across an end of the range.
-/
def Diagnostic.around? (range : Span) : List Diagnostic → Option (List Diagnostic × List Diagnostic)
  | [] => some ([], [])
  | d :: ds => do
    let (before, after) ← around? range ds
    if range.contains d.span then return (before, after)
    else if d.span.stop ≤ range.start then return (d :: before, after)
    else if range.stop ≤ d.span.start then return (before, d :: after)
    else none

/-! ## Reparsing -/

/--
The parse of the edited text in which only one block is new. There is no answer when the block
cannot be taken on its own. Whether the tree can be stored in an arena as well is not asked.
-/
def Parse.reparseBlock? (old : Parse) (e : Edit) (edited : Text) (b : ClosedBlock) :
    Option (Except BuildError Parse) := do
  let (before, after) ← Diagnostic.around? b.interior old.diagnostics
  let start := b.left.span.start
  let stream := tokenize (edited.slice start (e.move b.right.span.stop))
  let (block, issues) ← parseBlock? b.depth b.shape stream.tokens
  let inner := Diagnostic.sort (issues.map Issue.diagnostic)
  if inner.any (·.origin == .lexer) then none
  else
    let block := (block.map PlacedToken.token).surround b.left.token.leading b.right.token.trailing
    return do
      let tree ← Builder.build edited (old.tree.callsWith b.node block)
      return ⟨tree, Diagnostic.sort (before
        ++ inner.map (fun d => d.withSpan (d.span.shift start))
        ++ after.map (fun d => d.withSpan (e.moveSpan d.span)))⟩

/-- The parse of the text after an edit, made from the parse of the text before it. -/
def reparse (old : Parse) (e : Edit) : Except ReparseError Parse := do
  let edited ← (e.apply old.text).mapError .edit
  let block := (NodeRef.root old.tree).enclosingBlock? e.removed
  match block.bind (old.reparseBlock? e edited) with
  | some result => result.mapError .build
  | none => return parse edited

end NginxConf
