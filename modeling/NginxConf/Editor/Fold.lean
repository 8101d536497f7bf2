import NginxConf.SyntaxTree.View

/-!
# Folds

What an editor can fold away: all between the braces of a closed block or of a closed script, unless
there is nothing. Folds come in the order of their opening braces.
-/

namespace NginxConf

/-- What is between the braces of a fold. -/
inductive FoldKind
  | block
  | script
deriving DecidableEq, Repr

/-- A part of a file that can be folded away. -/
structure Fold where
  kind : FoldKind
  span : Span
deriving DecidableEq, Repr

namespace BracesView

/-- What is between a pair of braces, as a fold. -/
def fold? (b : BracesView) (kind : FoldKind) : Option Fold := do
  let left ← b.left
  let right ← b.right
  let span : Span := ⟨left.span.stop, right.span.start⟩
  if span.isEmpty then none else return ⟨kind, span⟩

end BracesView

/-- The fold that begins with a step of a walk. -/
def Event.fold? : Event → Option Fold
  | .enter n => if n.kind.isBlock then n.bracesView.fold? .block else none
  | .token t =>
    if t.token.kind = .leftBrace ∧ t.parent.kind.isLua then t.parent.bracesView.fold? .script
    else none
  | .leave _ => none

/-- The folds of a node. -/
def NodeRef.folds (n : NodeRef) : List Fold := n.events.filterMap Event.fold?

end NginxConf
