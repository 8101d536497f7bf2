import NginxConf.SyntaxTree.Search
import NginxConf.SyntaxTree.View

/-!
# Matching braces

The brace or parenthesis that belongs to the one at the cursor. The two are children of one node,
so the partner is found without counting.
-/

namespace NginxConf

/-- The kind of token that closes what one of this kind opens, or opens what it closes. -/
def TokenKind.partner? : TokenKind → Option TokenKind
  | .leftBrace => some .rightBrace
  | .rightBrace => some .leftBrace
  | .leftParen => some .rightParen
  | .rightParen => some .leftParen
  | _ => none

/-- A kind is the partner of its partner. -/
theorem TokenKind.partner?_comm {a b : TokenKind} : a.partner? = some b ↔ b.partner? = some a := by
  cases a <;> cases b <;> decide

/-- The kind of the partner of a piece of text; trivia has none. -/
def LeafKind.partner? : LeafKind → Option TokenKind
  | .token kind => kind.partner?
  | .trivia _ => none

namespace LeafIndex

/-- The brace or parenthesis at an offset. If two meet there it is the right one. -/
def braceAt? (pieces : LeafIndex) (offset : Nat) : Option LeafRef :=
  (pieces.touching offset).toList.reverse.find? (·.kind.partner?.isSome)

/-- Where the partner of the brace or parenthesis at an offset begins. -/
def matchingBrace? (pieces : LeafIndex) (offset : Nat) : Option Nat := do
  let brace ← pieces.braceAt? offset
  let partner ← brace.parent.token? (← brace.kind.partner?)
  return partner.span.start

end LeafIndex

namespace NodeRef

/-- Where the partner of the brace or parenthesis at an offset begins. -/
def matchingBrace? (n : NodeRef) (offset : Nat) : Option Nat := n.leafIndex.matchingBrace? offset

/-- Every offset up to a limit at which there is a brace or parenthesis with a partner, and where
that one begins. -/
def matchingBraces (n : NodeRef) (limit : Nat) : List (Nat × Nat) :=
  let pieces := n.leafIndex
  (List.range limit).filterMap fun offset =>
    (pieces.matchingBrace? offset).map fun partner => (offset, partner)

/-- What is found at all offsets is what is found at each. -/
theorem mem_matchingBraces {n : NodeRef} {limit offset partner : Nat} :
    (offset, partner) ∈ n.matchingBraces limit
      ↔ offset < limit ∧ n.matchingBrace? offset = some partner := by
  simp [matchingBraces, matchingBrace?]

end NodeRef

end NginxConf
