import NginxConf.SyntaxTree
import NginxConf.Text.Quoted

/-!
# Nodes and tokens in their place

A tree does not know where it stands. To move around in one, a node is taken together with where
its text begins and with the nodes around it (`NodeRef`), and a token with the node that holds it
(`TokenRef`). A token with its trivia is several pieces of text; one of them in its place is a
`LeafRef`.

The `address` of a node is the list of child positions that leads to it, from the node upwards.
Nodes of one tree are the same exactly when their addresses are.
-/

namespace NginxConf

/-- A node and where it stands. -/
structure Site where
  kind : NodeKind
  children : List (Tree Token)
  /-- Where the text of the node begins, trivia included. -/
  start : Nat
  address : List Nat

/-- A node in its place. -/
structure NodeRef extends Site where
  /-- The nodes around it, the nearest one first. -/
  above : List Site

/-- A token in its place. -/
structure TokenRef where
  token : Token
  /-- Where the trivia before the token begins. -/
  start : Nat
  address : List Nat
  /-- The node that holds the token. -/
  parent : NodeRef

/-- A child of a node, in its place. -/
inductive ElementRef
  | node (n : NodeRef)
  | token (t : TokenRef)

namespace NodeRef

/-- The root of a tree. -/
def root (t : SyntaxTree) : NodeRef := ⟨⟨t.kind, t.children, 0, []⟩, []⟩

/-- The number of bytes, trivia included. -/
def size (n : NodeRef) : Nat := Tree.forestSum Token.fullSize n.children

/-- The range of the node, trivia included. -/
def span (n : NodeRef) : Span := ⟨n.start, n.start + n.size⟩

/-- The text of the node, trivia included. -/
def text (n : NodeRef) : Text := (Tree.forestLeaves n.children).flatMap Token.fullText

/-- The node that holds this one. -/
def parent? (n : NodeRef) : Option NodeRef :=
  match n.above with
  | [] => none
  | s :: above => some ⟨s, above⟩

/-- A node with these nodes around it, and those nodes in turn. -/
def withAncestors (s : Site) : List Site → List NodeRef
  | [] => [⟨s, []⟩]
  | p :: above => ⟨s, p :: above⟩ :: withAncestors p above

/-- The node and all nodes around it, from the inside out. -/
def ancestors (n : NodeRef) : List NodeRef := withAncestors n.toSite n.above

/-- Whether two nodes of one tree are the same. -/
def same (m n : NodeRef) : Bool := m.address == n.address

/-- A tree as a child of a node. -/
def place (parent : NodeRef) (position offset : Nat) : Tree Token → ElementRef
  | .leaf token => .token ⟨token, offset, position :: parent.address, parent⟩
  | .node kind children =>
    .node ⟨⟨kind, children, offset, position :: parent.address⟩, parent.toSite :: parent.above⟩

/-- Trees as children of a node, the first one in a given position. -/
def placeAll (parent : NodeRef) (position offset : Nat) : List (Tree Token) → List ElementRef
  | [] => []
  | t :: ts =>
    parent.place position offset t
      :: placeAll parent (position + 1) (offset + t.sum Token.fullSize) ts

/-- The children, in order. -/
def elements (n : NodeRef) : List ElementRef := n.placeAll 0 n.start n.children

/-- The children that are nodes. -/
def nodes (n : NodeRef) : List NodeRef :=
  n.elements.filterMap fun
    | .node m => some m
    | .token _ => none

/-- The children that are tokens. -/
def tokens (n : NodeRef) : List TokenRef :=
  n.elements.filterMap fun
    | .node _ => none
    | .token t => some t

/-- The child nodes of a kind. -/
def nodesOfKind (n : NodeRef) (kind : NodeKind) : List NodeRef :=
  n.nodes.filter (·.kind == kind)

/-- The written form of a node, `KIND@start..stop`. -/
def render (n : NodeRef) : String := (Kind.node n.kind).name ++ "@" ++ n.span.render

end NodeRef

/-! ## Pieces of text in their place -/

/-- Which piece of a token with its trivia. -/
inductive Part
  | leading (index : Nat)
  | core
  | trailing (index : Nat)
deriving DecidableEq, Repr

/-- A piece of text in its place. -/
structure LeafRef where
  kind : LeafKind
  text : Text
  start : Nat
  part : Part
  /-- The token that the piece is or belongs to. -/
  owner : TokenRef

namespace TokenRef

/-- The range of the token, trivia excluded. -/
def span (t : TokenRef) : Span :=
  ⟨t.start + t.token.leadingSize, t.start + t.token.leadingSize + t.token.size⟩

/-- The range of the token, trivia included. -/
def fullSpan (t : TokenRef) : Span := ⟨t.start, t.start + t.token.fullSize⟩

/-- Pieces of trivia in their place, the first one at an offset. -/
def placeTrivia (owner : TokenRef) (part : Nat → Part) (index offset : Nat) :
    List Trivia → List LeafRef
  | [] => []
  | t :: ts =>
    ⟨.trivia t.kind, t.text, offset, part index, owner⟩
      :: placeTrivia owner part (index + 1) (offset + t.size) ts

/-- The trivia before the token. -/
def leading (t : TokenRef) : List LeafRef :=
  t.placeTrivia .leading 0 t.start t.token.leading

/-- The token itself as a piece of text. -/
def core (t : TokenRef) : LeafRef :=
  ⟨.token t.token.kind, t.token.text, t.span.start, .core, t⟩

/-- The trivia after the token. -/
def trailing (t : TokenRef) : List LeafRef :=
  t.placeTrivia .trailing 0 t.span.stop t.token.trailing

/-- The token and its trivia, in order. -/
def pieces (t : TokenRef) : List LeafRef := t.leading ++ t.core :: t.trailing

end TokenRef

namespace LeafRef

/-- The range of the piece itself. -/
def span (l : LeafRef) : Span := ⟨l.start, l.start + Text.size l.text⟩

/-- Whether the piece is trivia. -/
def isTrivia (l : LeafRef) : Bool := (Kind.leaf l.kind).isTrivia

/-- The trivia attached before the piece; trivia itself has none. -/
def leading (l : LeafRef) : List LeafRef := if l.part = .core then l.owner.leading else []

/-- The trivia attached after the piece; trivia itself has none. -/
def trailing (l : LeafRef) : List LeafRef := if l.part = .core then l.owner.trailing else []

/-- The range with attached trivia. -/
def fullSpan (l : LeafRef) : Span := if l.part = .core then l.owner.fullSpan else l.span

/-- The text with attached trivia. -/
def fullText (l : LeafRef) : Text := if l.part = .core then l.owner.token.fullText else l.text

/-- The node that holds the piece. -/
def parent (l : LeafRef) : NodeRef := l.owner.parent

/-- The written form of a piece, `KIND@start..stop "text"`. -/
def render (l : LeafRef) : String :=
  (Kind.leaf l.kind).name ++ "@" ++ l.span.render ++ " " ++ String.ofList (Quoted.encode l.text)

end LeafRef

end NginxConf
