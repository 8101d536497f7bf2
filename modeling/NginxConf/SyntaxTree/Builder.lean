import NginxConf.Overflow
import NginxConf.SyntaxTree

/-!
# Building trees by hand

A builder takes a text and a sequence of calls: start a node, add a token with its trivia by
length, finish the innermost node. When the calls are well nested and the lengths cover the text,
`finish` returns the tree. Every way in which a call can be refused is a `BuildError`.

The calls that build a tree can be read off the tree (`SyntaxTree.calls`).
-/

namespace NginxConf

/-- Why a call of a builder is refused. -/
inductive BuildError
  /-- A node cannot have such a kind. -/
  | notANode (kind : Kind)
  /-- A token cannot have such a kind. -/
  | notAToken (kind : Kind)
  /-- There is a root already. -/
  | secondRoot
  /-- There is no node to add to or to finish. -/
  | noNode
  /-- The pieces of text would be too long together. -/
  | tooLong
  /-- A piece of text would end at an offset that is not between two characters. -/
  | notABoundary (offset : Nat)
  | unfinishedNodes
  | noRoot
  | uncoveredText
  /-- The builder was given up while nodes were not finished. -/
  | abandoned
deriving DecidableEq, Repr

namespace BuildError

/-- What a refusal says to the user. -/
def message : BuildError → String
  | notANode kind => "`" ++ kind.name ++ "` is not a node kind"
  | notAToken kind => "`" ++ kind.name ++ "` is not a significant token"
  | secondRoot => "a tree has exactly one root"
  | noNode => "no opened nodes?"
  | tooLong => Overflow.addition.message
  | notABoundary offset =>
    "token ends at " ++ toString offset ++ ", which is not a char boundary"
  | unfinishedNodes => "unfinished nodes"
  | noRoot => "a tree needs a root node"
  | uncoveredText => "tokens must cover the whole text"
  | abandoned => "you should call `Builder::finish()`"

end BuildError

/-- A piece of trivia by its length. -/
structure TriviaLength where
  kind : TriviaKind
  size : Nat
deriving DecidableEq, Repr

/-- A call of a builder. -/
inductive BuildCall
  | start (kind : Kind)
  | token (leading : List TriviaLength) (kind : Kind) (size : Nat) (trailing : List TriviaLength)
  | finish
deriving DecidableEq, Repr

/-- A tree under construction. -/
structure Builder where
  /-- The text not yet covered. -/
  rest : Text
  /-- The number of bytes covered. -/
  offset : Nat
  /-- The nodes not yet finished, innermost first, with their children so far, latest first. -/
  opened : List (NodeKind × List (Tree Token))
  /-- The root, once it is finished. -/
  root : Option SyntaxTree
deriving Repr

namespace Builder

/-- The builder that has covered nothing of a text. -/
def new (text : Text) : Builder := ⟨text, 0, [], none⟩

/-- Starts a node. -/
def startNode (b : Builder) : Kind → Except BuildError Builder
  | .leaf kind => .error (.notANode (.leaf kind))
  | .node kind =>
    if b.opened.isEmpty && b.root.isSome then .error .secondRoot
    else .ok { b with opened := (kind, []) :: b.opened }

/-- Finishes the innermost node. -/
def finishNode (b : Builder) : Except BuildError Builder :=
  match b.opened with
  | [] => .error .noNode
  | [(kind, children)] => .ok { b with opened := [], root := some ⟨kind, children.reverse⟩ }
  | (kind, children) :: (outer, siblings) :: more =>
    .ok { b with opened := (outer, .node kind children.reverse :: siblings) :: more }

/-- Covers the next piece of the text. -/
def take (b : Builder) (size : Nat) : Except BuildError (Text × Builder) :=
  if Overflow.offsetBound ≤ b.offset + size then .error .tooLong
  else
    match Text.splitAt? b.rest size with
    | some (piece, rest) => .ok (piece, { b with rest := rest, offset := b.offset + size })
    | none => .error (.notABoundary (b.offset + size))

/-- Covers pieces of trivia. -/
def takeTrivia (b : Builder) : List TriviaLength → Except BuildError (List Trivia × Builder)
  | [] => .ok ([], b)
  | t :: ts => do
    let (piece, b) ← b.take t.size
    let (more, b) ← b.takeTrivia ts
    return (⟨t.kind, piece⟩ :: more, b)

/-- Adds a tree to the innermost node. -/
def add (b : Builder) (t : Tree Token) : Except BuildError Builder :=
  match b.opened with
  | [] => .error .noNode
  | (kind, children) :: more => .ok { b with opened := (kind, t :: children) :: more }

/-- Adds a token with its trivia to the innermost node. -/
def addToken (b : Builder) (leading : List TriviaLength) (kind : Kind) (size : Nat)
    (trailing : List TriviaLength) : Except BuildError Builder :=
  match kind with
  | .leaf (.token kind) =>
    if b.opened.isEmpty then .error .noNode
    else do
      let (before, b) ← b.takeTrivia leading
      let (text, b) ← b.take size
      let (after, b) ← b.takeTrivia trailing
      b.add (.leaf ⟨before, kind, text, after⟩)
  | kind => .error (.notAToken kind)

/-- Carries out a call. -/
def call (b : Builder) : BuildCall → Except BuildError Builder
  | .start kind => b.startNode kind
  | .token leading kind size trailing => b.addToken leading kind size trailing
  | .finish => b.finishNode

/-- The finished tree. -/
def finish (b : Builder) : Except BuildError SyntaxTree :=
  if !b.opened.isEmpty then .error .unfinishedNodes
  else
    match b.root with
    | none => .error .noRoot
    | some root => if b.rest.isEmpty then .ok root else .error .uncoveredText

/-- Gives the builder up, which is refused while nodes are not finished. -/
def abandon (b : Builder) : Except BuildError Unit :=
  if b.opened.isEmpty then .ok () else .error .abandoned

/-- Carries out calls, one after the other. -/
def run (b : Builder) : List BuildCall → Except BuildError Builder
  | [] => .ok b
  | c :: cs => do (← b.call c).run cs

/-- The tree of a text that is built by a sequence of calls. -/
def build (text : Text) (calls : List BuildCall) : Except BuildError SyntaxTree := do
  (← (new text).run calls).finish

end Builder

/-! ## The calls that build a tree -/

/-- A piece of trivia by its length. -/
def Trivia.length (t : Trivia) : TriviaLength := ⟨t.kind, t.size⟩

/-- The call that adds a token. -/
def Token.call (t : Token) : BuildCall :=
  .token (t.leading.map Trivia.length) (.token t.kind) t.size (t.trailing.map Trivia.length)

mutual

/-- The calls that build a tree. -/
def treeCalls : Tree Token → List BuildCall
  | .leaf token => [token.call]
  | .node kind children => .start kind :: (forestCalls children ++ [.finish])

/-- The calls that build some trees. -/
def forestCalls : List (Tree Token) → List BuildCall
  | [] => []
  | t :: ts => treeCalls t ++ forestCalls ts

end

/-- The calls that build a tree. -/
def SyntaxTree.calls (t : SyntaxTree) : List BuildCall := treeCalls t.toTree

end NginxConf
