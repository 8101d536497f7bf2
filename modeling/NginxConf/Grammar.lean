import NginxConf.Grammar.Statement

/-!
# The grammar

Blocks nest, but only to a depth of `maxDepth`. A block that would be nested deeper is kept as raw
tokens in one error node.

## Termination

`runBlock` recurses on the number of further blocks that may be nested. It is the limit of the
configuration language itself, so no other bound is needed.
-/

namespace NginxConf

/-- How deep blocks may be nested. -/
def maxDepth : Nat := 256

variable {α : Type} [Lexical α]

/-- A block, with room for so many further blocks inside each other. -/
def runBlock : Nat → BlockShape → α → List α → Outcome α
  | 0, _, last, rest => Rule.tooDeep.runWith (fun _ => .idle) last rest
  | _ + 1, _, last, [] => .idle last []
  | room + 1, shape, last, t :: ts =>
    ((Rule.braced t shape).runWith (runBlock room) last (t :: ts)).wrapped shape.kind

/-- What a rule returns, where so many blocks may be nested inside each other. -/
def Rule.run (room : Nat) (rule : Rule α) (last : α) (rest : List α) : Outcome α :=
  rule.runWith (runBlock room) last rest

namespace Rule

variable (room : Nat) (last t : α) (rest ts : List α) (problem : Problem)

@[simp]
theorem run_done : done.run room last rest = .idle last rest := rfl

@[simp]
theorem run_complain : (complain problem).run room last rest
    = ⟨[], [⟨problem, .after last⟩], last, rest⟩ := rfl

@[simp]
theorem run_lacking (what : Missing) : (lacking what).run room last rest
    = ⟨[], [⟨.missing what, .after last⟩], last, rest⟩ := rfl

@[simp]
theorem run_complainSince : (complainSince t problem).run room last rest
    = ⟨[], [⟨problem, .across t last⟩], last, rest⟩ := rfl

@[simp]
theorem run_complainAt : (complainAt t problem).run room last rest
    = ⟨[], [⟨problem, .across t t⟩], last, rest⟩ := rfl

@[simp]
theorem run_append (first second : Rule α) : (first ++ second).run room last rest
    = (first.run room last rest).followedBy (second.run room) := rfl

@[simp]
theorem run_wrap (kind : NodeKind) (rule : Rule α) : (wrap kind rule).run room last rest
    = (rule.run room last rest).wrapped kind := rfl

@[simp]
theorem run_withNext_cons (rule : α → Rule α) : (withNext rule).run room last (t :: ts)
    = (rule t).run room last (t :: ts) := rfl

@[simp]
theorem run_peek (rule : Option TokenKind → Rule α) : (peek rule).run room last rest
    = (rule (rest.head?.map Lexical.kind)).run room last rest := rfl

@[simp]
theorem run_advance : advance.run room last rest = .reading 1 last rest := rfl

@[simp]
theorem run_acceptAll (p : TokenKind → Bool) : (acceptAll p).run room last rest
    = .reading (rest.takeWhile fun t => p (Lexical.kind t)).length last rest := rfl

@[simp]
theorem run_rawGroup : rawGroup.run room last rest = .reading (groupLength 0 rest) last rest := rfl

@[simp]
theorem run_wrapBy (start : Rule α) (kind : Option TokenKind → NodeKind)
    (finish : Option TokenKind → Rule α) : (wrapBy start kind finish).run room last rest
    = ((start.run room last rest).followedBy
        ((finish (start.run room last rest).nextKind).run room)).wrapped
      (kind (start.run room last rest).nextKind) := rfl

@[simp]
theorem run_many (p : TokenKind → Bool) (item : Rule α) : (many p item).run room last rest
    = manyFrom p (item.run room) last rest := rfl

@[simp]
theorem run_block (shape : BlockShape) : (block shape).run room last rest
    = runBlock room shape last rest := rfl

/-- A choice by the next token, where there is one. -/
theorem run_ifNext_cons (p : TokenKind → Bool) (yes no : Rule α) :
    (ifNext p yes no).run room last (t :: ts)
      = if p (Lexical.kind t) then yes.run room last (t :: ts) else no.run room last (t :: ts) := by
  cases hp : p (Lexical.kind t) <;> simp [ifNext, hp]

/-- A choice by the next token, at the end of the tokens. -/
theorem run_ifNext_nil (p : TokenKind → Bool) (yes no : Rule α) :
    (ifNext p yes no).run room last [] = no.run room last [] := rfl

end Rule

/-- The statements of a whole file. -/
def parseFile (tokens : List α) : List (Tree α) × List (Issue α) :=
  match tokens with
  | [] => ([], [])
  | t :: ts =>
    let a := (Rule.many (fun _ => true) .topStatement).run maxDepth t (t :: ts)
    (a.trees, a.issues)

/-- Whether a tree is a block of a shape that ends with its own `}`. -/
def isClosedBlock (shape : BlockShape) : Tree α → Bool
  | .leaf _ => false
  | .node kind children =>
    kind == shape.kind &&
      match children.getLast? with
      | some (.leaf brace) => Lexical.kind brace == .rightBrace
      | _ => false

/--
A closed block that makes up all of the tokens, as if `depth` blocks stood around it. There is no
answer when the tokens are anything else.
-/
def parseBlock? (depth : Nat) (shape : BlockShape) (tokens : List α) :
    Option (Tree α × List (Issue α)) :=
  match tokens with
  | [] => none
  | t :: ts =>
    if Lexical.kind t = .leftBrace then
      let a := runBlock (maxDepth - depth) shape t (t :: ts)
      match a.trees, a.rest with
      | [tree], [] => if isClosedBlock shape tree then some (tree, a.issues) else none
      | _, _ => none
    else none

end NginxConf
