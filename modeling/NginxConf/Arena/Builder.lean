import NginxConf.Arena

/-!
# Building a tree in an arena

The builder of an arena carries out the calls of a builder (`BuildCall`). A node is noted when it is
started, but its children are not known before it is finished: until then, they wait together with
those of the nodes around it, and the builder remembers where those of each node begin.

Numbers are stored in 32 bits, so beside the refusals of `BuildError` there are those of a tree that
has too many parts.
-/

namespace NginxConf

/-- Why a call of the builder of an arena is refused. -/
inductive ArenaError
  /-- The call is not in order. -/
  | refused (error : BuildError)
  /-- The tree has too many parts. -/
  | tooLarge
  /-- A token has too many pieces of trivia before it. -/
  | tooMuchLeading
  /-- A token has too many pieces of trivia behind it. -/
  | tooMuchTrailing
deriving DecidableEq, Repr

/-- What a refusal says to the user. -/
def ArenaError.message : ArenaError → String
  | refused error => error.message
  | tooLarge => "syntax tree too large: TryFromIntError(())"
  | tooMuchLeading => "too much leading trivia: TryFromIntError(())"
  | tooMuchTrailing => "too much trailing trivia: TryFromIntError(())"

/-- An arena under construction. -/
structure ArenaBuilder where
  text : Text
  pieces : List Arena.Piece
  nodes : List Arena.Cell
  children : List Arena.Child
  /-- The children of the nodes that are not finished, those of the innermost node last. -/
  pending : List Arena.Child
  /-- The nodes that are not finished, innermost first, with the number of children that wait for
  the nodes around them. -/
  opened : List (Nat × Nat)
  /-- The number of bytes covered. -/
  offset : Nat
deriving Repr

namespace ArenaBuilder

/-- The builder that has covered nothing of a text. -/
def new (text : Text) : ArenaBuilder := ⟨text, [.sentinel], [], [], [], [], 0⟩

/-- A number that can be stored. -/
def number (n : Nat) : Except ArenaError Nat :=
  if n < Overflow.offsetBound then .ok n else .error .tooLarge

/-- Starts a node. -/
def startNode (b : ArenaBuilder) : Kind → Except ArenaError ArenaBuilder
  | .leaf kind => .error (.refused (.notANode (.leaf kind)))
  | .node kind =>
    let parent := b.opened.head?.map Prod.fst
    if parent.isNone && !b.nodes.isEmpty then .error (.refused .secondRoot)
    else do
      let index ← number b.nodes.length
      let first ← number b.pieces.length
      let pending := if parent.isSome then b.pending ++ [.node index] else b.pending
      return { b with
        nodes := b.nodes ++ [⟨parent, 0, 0, kind, first, first⟩]
        pending
        opened := (index, pending.length) :: b.opened }

/-- Finishes the innermost node. -/
def finishNode (b : ArenaBuilder) : Except ArenaError ArenaBuilder :=
  match b.opened with
  | [] => .error (.refused .noNode)
  | (index, waiting) :: opened => do
    let stop ← number b.pieces.length
    let childrenStart ← number b.children.length
    let childrenLength ← number (b.pending.length - waiting)
    return { b with
      nodes := b.nodes.modify index fun cell => { cell with stop, childrenStart, childrenLength }
      children := b.children ++ b.pending.drop waiting
      pending := b.pending.take waiting
      opened }

/-- Covers the next piece of the text, for a node. -/
def pushPiece (b : ArenaBuilder) (kind : Kind) (leading trailing size parent : Nat) :
    Except ArenaError (Nat × ArenaBuilder) :=
  if Overflow.offsetBound ≤ b.offset + size then .error (.refused .tooLong)
  else if !b.text.isBoundary (b.offset + size) then
    .error (.refused (.notABoundary (b.offset + size)))
  else do
    let index ← number b.pieces.length
    return (index, { b with
      pieces := b.pieces ++ [⟨kind, leading, trailing, b.offset + size, parent⟩]
      offset := b.offset + size })

/-- Covers pieces of trivia. -/
def pushTrivia (b : ArenaBuilder) (parent : Nat) :
    List TriviaLength → Except ArenaError ArenaBuilder
  | [] => .ok b
  | t :: ts => do
    let (_, b) ← b.pushPiece (.leaf (.trivia t.kind)) 0 0 t.size parent
    b.pushTrivia parent ts

/-- Adds a token with its trivia to the innermost node. -/
def addToken (b : ArenaBuilder) (leading : List TriviaLength) (kind : Kind) (size : Nat)
    (trailing : List TriviaLength) : Except ArenaError ArenaBuilder :=
  match kind with
  | .leaf (.token kind) =>
    match b.opened with
    | [] => .error (.refused .noNode)
    | (parent, _) :: _ => do
      let b ← b.pushTrivia parent leading
      if Overflow.offsetBound ≤ leading.length then .error .tooMuchLeading
      else if Overflow.offsetBound ≤ trailing.length then .error .tooMuchTrailing
      else
        let (index, b) ←
          b.pushPiece (.leaf (.token kind)) leading.length trailing.length size parent
        { b with pending := b.pending ++ [Arena.Child.piece index] }.pushTrivia parent trailing
  | kind => .error (.refused (.notAToken kind))

/-- Carries out a call. -/
def call (b : ArenaBuilder) : BuildCall → Except ArenaError ArenaBuilder
  | .start kind => b.startNode kind
  | .token leading kind size trailing => b.addToken leading kind size trailing
  | .finish => b.finishNode

/-- Carries out calls, one after the other. -/
def run (b : ArenaBuilder) : List BuildCall → Except ArenaError ArenaBuilder
  | [] => .ok b
  | c :: cs => do (← b.call c).run cs

/-- The finished tree. -/
def finish (b : ArenaBuilder) : Except ArenaError Arena :=
  if !b.opened.isEmpty then .error (.refused .unfinishedNodes)
  else if b.nodes.isEmpty then .error (.refused .noRoot)
  else if b.offset = Text.size b.text then .ok ⟨b.text, b.pieces, b.nodes, b.children⟩
  else .error (.refused .uncoveredText)

end ArenaBuilder

/-- The tree of a text that is built by a sequence of calls. -/
def Arena.build (text : Text) (calls : List BuildCall) : Except ArenaError Arena := do
  (← (ArenaBuilder.new text).run calls).finish

end NginxConf
