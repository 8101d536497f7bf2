import NginxConf.SyntaxTree.Walk

/-!
# Typed views

What a node says, by its kind: the name and arguments of a directive, the operands of a condition,
the body of a script. A view only picks among the children of the node, in order, so it has an
answer for broken nodes too; whatever is not there is missing from the answer.
-/

namespace NginxConf

namespace NodeRef

/-- The first child token of a kind. -/
def token? (n : NodeRef) (kind : TokenKind) : Option TokenRef :=
  n.tokens.find? (·.token.kind == kind)

/-- The child tokens that are values. -/
def values (n : NodeRef) : List TokenRef := n.tokens.filter (·.token.kind.isValue)

/-- The first child node of a kind. -/
def node? (n : NodeRef) (kind : NodeKind) : Option NodeRef := (n.nodesOfKind kind).head?

end NodeRef

/-- The sorts of statements. -/
inductive StatementSort
  | directive
  | condition
  | assignment
  | inclusion
  | geo
  | script
deriving DecidableEq, Repr

namespace StatementSort

/-- The word for a sort of statements. -/
def label : StatementSort → String
  | directive => "Directive"
  | condition => "Condition"
  | assignment => "Variable"
  | inclusion => "Include"
  | geo => "Geo"
  | script => "LuaBlock"

/-- The sort of statements of a kind, if it is a statement. -/
def ofKind? : NodeKind → Option StatementSort
  | .directive => some directive
  | .ifStatement => some condition
  | .setStatement => some assignment
  | .includeStatement => some inclusion
  | .geoStatement => some geo
  | kind => if kind.isLua then some script else none

theorem isSome_ofKind? (kind : NodeKind) : (ofKind? kind).isSome = kind.isStatement := by
  cases kind <;> rfl

end StatementSort

/-- A statement with its sort. -/
structure Statement where
  sort : StatementSort
  node : NodeRef

namespace NodeRef

/-- The node as a statement, if it is one. -/
def statement? (n : NodeRef) : Option Statement :=
  (StatementSort.ofKind? n.kind).map fun sort => ⟨sort, n⟩

/-- The child nodes that are statements. -/
def statements (n : NodeRef) : List Statement := n.nodes.filterMap statement?

end NodeRef

/-- `{ … }` -/
structure BracesView where
  left : Option TokenRef
  right : Option TokenRef

/-- `name args* ;` or `name args* { … }` -/
structure DirectiveView where
  name : Option TokenRef
  args : List TokenRef
  block : Option NodeRef
  semicolon : Option TokenRef

/-- `if (conditions) { … }` -/
structure IfView where
  conditions : List NodeRef
  leftParen : Option TokenRef
  rightParen : Option TokenRef
  block : Option NodeRef

/-- `left operator right`, or `operator right`, or `left` -/
structure ConditionView where
  left : Option TokenRef
  operator : Option TokenRef
  right : Option TokenRef

/-- `set name value;` -/
structure SetView where
  name : Option TokenRef
  value : Option TokenRef

/-- `geo address variable { … }` or `geo variable { … }` -/
structure GeoView where
  address : Option TokenRef
  receiver : Option TokenRef
  block : Option NodeRef

/-- What an entry of a geo block says. -/
inductive GeoEntryView
  | default (value : Option TokenRef)
  | delete (network : Option TokenRef)
  | inclusion (path : Option TokenRef)
  | proxy (address : Option TokenRef) (recursive : Bool)
  | ranges
  | value (network value : Option TokenRef)

/-- `keyword args* { code }` -/
structure ScriptView where
  keyword : Option TokenRef
  args : List TokenRef
  code : Option TokenRef
  braces : BracesView

namespace NodeRef

/-- The braces of a block. -/
def bracesView (n : NodeRef) : BracesView := ⟨n.token? .leftBrace, n.token? .rightBrace⟩

def directiveView (n : NodeRef) : DirectiveView :=
  ⟨n.values.head?, n.values.tail, n.node? .block, n.token? .semicolon⟩

def ifView (n : NodeRef) : IfView :=
  ⟨n.nodesOfKind .condition, n.token? .leftParen, n.token? .rightParen, n.node? .block⟩

/-- What stands first is the left operand if it is a value; the right one follows the operator. -/
def conditionView (n : NodeRef) : ConditionView where
  left := n.tokens.head?.filter (·.token.kind.isValue)
  operator := n.token? .operator
  right := (n.tokens.dropWhile (·.token.kind != .operator))[1]?

def setView (n : NodeRef) : SetView := ⟨n.values[0]?, n.values[1]?⟩

/-- The path of an `include` statement. -/
def includePath (n : NodeRef) : Option TokenRef := n.values.head?

/-- The last of the first two values is the variable; the first of two is the address. -/
def geoView (n : NodeRef) : GeoView where
  address := if n.values.length ≥ 2 then n.values.head? else none
  receiver := (n.values.take 2).getLast?
  block := n.node? .geoBlock

/-- The entries of a geo block. -/
def geoItems (n : NodeRef) : List NodeRef := n.nodesOfKind .geoItem

/-- What counts of an entry of a geo block: the first of its statements. -/
def geoEntry? (n : NodeRef) : Option NodeRef := n.nodes.find? (·.kind.isGeoEntry)

/-- What an entry of a geo block says, if the node is such an entry. -/
def geoEntryView? (n : NodeRef) : Option GeoEntryView :=
  match n.kind with
  | .geoDefault => some (.default n.values[1]?)
  | .geoDelete => some (.delete n.values[1]?)
  | .geoInclude => some (.inclusion n.values[0]?)
  | .geoProxy =>
    some (.proxy n.values[1]?
      (n.values.head?.any fun t => t.token.text == "proxy_recursive".toList))
  | .geoRanges => some .ranges
  | .geoValue => some (.value n.values[0]? n.values[1]?)
  | _ => none

def scriptView (n : NodeRef) : ScriptView :=
  ⟨n.token? .luaKeyword, n.values, n.token? .luaCode, n.bracesView⟩

end NodeRef

/-- What a node says, by its kind. -/
inductive View
  | sourceFile (statements : List Statement) (errors : List NodeRef)
  | block (statements : List Statement) (braces : BracesView)
  | directive (view : DirectiveView)
  | ifStatement (view : IfView)
  | condition (view : ConditionView)
  | setStatement (view : SetView)
  | includeStatement (path : Option TokenRef)
  | geoStatement (view : GeoView)
  | geoBlock (items : List NodeRef) (braces : BracesView)
  | geoItem (entry : Option NodeRef)
  | geoEntry (view : GeoEntryView)
  | script (view : ScriptView)

/-- The view of a node. Error nodes, and nodes that stand for nothing, have none. -/
def NodeRef.view? (n : NodeRef) : Option View :=
  match n.kind with
  | .sourceFile => some (.sourceFile n.statements (n.nodesOfKind .error))
  | .block => some (.block n.statements n.bracesView)
  | .directive => some (.directive n.directiveView)
  | .ifStatement => some (.ifStatement n.ifView)
  | .condition => some (.condition n.conditionView)
  | .setStatement => some (.setStatement n.setView)
  | .includeStatement => some (.includeStatement n.includePath)
  | .geoStatement => some (.geoStatement n.geoView)
  | .geoBlock => some (.geoBlock n.geoItems n.bracesView)
  | .geoItem => some (.geoItem n.geoEntry?)
  | .error | .tombstone => none
  | kind =>
    if kind.isLua then some (.script n.scriptView) else n.geoEntryView?.map .geoEntry

/-! ## Which nodes a view accepts -/

/-- The views that a node can be asked for: one for each kind, and three for several kinds. -/
inductive ViewSort
  | exactly (kind : NodeKind)
  | statement
  | geoEntry
  | script
deriving DecidableEq, Repr

namespace ViewSort

/-- Every view, in the order in which they are listed. -/
def all : List ViewSort :=
  Kind.all.filterMap (fun
    | .node .tombstone => none
    | .node kind => some (.exactly kind)
    | .leaf _ => none)
    ++ [statement, geoEntry, script]

/-- Whether a view is one of nodes of a kind. -/
def accepts : ViewSort → Kind → Bool
  | exactly kind, k => k == .node kind
  | statement, .node k => k.isStatement
  | geoEntry, .node k => k.isGeoEntry
  | script, .node k => k.isLua
  | _, .leaf _ => false

end ViewSort

end NginxConf
