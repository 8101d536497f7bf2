import NginxConf.Grammar.Problem
import NginxConf.Tree

/-!
# Grammar rules

A rule reads tokens from the front of a list. It returns the trees that it built, the issues that
it found and the tokens that are left; it never fails. Rules are open in the type of tokens: all
they can see of one is its kind, its text and its fault (`Lexical`), so what a rule does cannot
depend on blanks, comments or offsets. For the same reason an issue names tokens, not offsets.

A rule is a term of `Rule`, and `Rule.runWith` says what it returns. The grammar is written with
these terms and a few ways to combine them; only blocks call one another, so the rule for a block
is named in a term (`Rule.block`) and what it stands for is given when the term is run.

## Termination

The only loop is `manyFrom`. It goes on while its item makes the list of tokens shorter.
-/

namespace NginxConf

/-- What the grammar can see of a token. -/
class Lexical (α : Type) where
  kind : α → TokenKind
  text : α → Text
  fault : α → Option LexFault

/-- Where an issue is, in terms of tokens. -/
inductive Place (α : Type)
  /-- From the start of a token to the end of the same or a later one. -/
  | across (first last : α)
  /-- Right after a token, where something is missing. -/
  | after (token : α)
deriving DecidableEq, Repr

/-- A problem in its place. -/
structure Issue (α : Type) where
  problem : Problem
  place : Place α
deriving DecidableEq, Repr

namespace Place

variable {α β : Type}

/-- The place with its tokens replaced. -/
def map (f : α → β) : Place α → Place β
  | across first last => across (f first) (f last)
  | after token => after (f token)

end Place

/-- The issue with its tokens replaced. -/
def Issue.map {α β : Type} (f : α → β) (i : Issue α) : Issue β := ⟨i.problem, i.place.map f⟩

/-- The two sorts of blocks: with statements, and with the entries of a geo block. -/
inductive BlockShape
  | plain
  | geo
deriving DecidableEq, Repr, Inhabited

/-- The kind of node that a block becomes. -/
def BlockShape.kind : BlockShape → NodeKind
  | plain => .block
  | geo => .geoBlock

/-! ## Outcomes -/

/-- What a rule returns. -/
structure Outcome (α : Type) where
  trees : List (Tree α)
  issues : List (Issue α)
  /-- The last token read so far, by this rule or before it. -/
  last : α
  rest : List α

namespace Outcome

variable {α : Type}

/-- The tokens that have been read: the leaves of what has been built. -/
def read (a : Outcome α) : List α := a.trees.flatMap Tree.leaves

/-- Where nothing is read and nothing is found. -/
def idle (last : α) (rest : List α) : Outcome α := ⟨[], [], last, rest⟩

/-- Two outcomes, the second one from where the first one ends. -/
def join (a b : Outcome α) : Outcome α := ⟨a.trees ++ b.trees, a.issues ++ b.issues, b.last, b.rest⟩

/-- An outcome with what comes of reading on from where it ends. -/
def followedBy (a : Outcome α) (next : α → List α → Outcome α) : Outcome α :=
  a.join (next a.last a.rest)

/-- What has been built as one node. -/
def wrapped (kind : NodeKind) (a : Outcome α) : Outcome α :=
  { a with trees := [.node kind a.trees] }

/-- The kind of the next token. -/
def nextKind [Lexical α] (a : Outcome α) : Option TokenKind := a.rest.head?.map Lexical.kind

@[simp]
theorem read_idle (last : α) (rest : List α) : (idle last rest).read = [] := rfl

@[simp]
theorem read_join (a b : Outcome α) : (a.join b).read = a.read ++ b.read := by
  simp [join, read]

@[simp]
theorem last_join (a b : Outcome α) : (a.join b).last = b.last := rfl

@[simp]
theorem rest_join (a b : Outcome α) : (a.join b).rest = b.rest := rfl

@[simp]
theorem issues_wrapped (kind : NodeKind) (a : Outcome α) : (a.wrapped kind).issues = a.issues := rfl

@[simp]
theorem last_wrapped (kind : NodeKind) (a : Outcome α) : (a.wrapped kind).last = a.last := rfl

@[simp]
theorem rest_wrapped (kind : NodeKind) (a : Outcome α) : (a.wrapped kind).rest = a.rest := rfl

@[simp]
theorem read_wrapped (kind : NodeKind) (a : Outcome α) : (a.wrapped kind).read = a.read := by
  simp [wrapped, read, Tree.leaves]

variable [Lexical α]

/-- The issue that a malformed token is. -/
def faultOf (t : α) : List (Issue α) :=
  match Lexical.fault t with
  | some fault => [⟨.malformed fault, .across t t⟩]
  | none => []

/-- Reads the first `n` of the tokens left. -/
def reading (n : Nat) (last : α) (rest : List α) : Outcome α :=
  ⟨(rest.take n).map .leaf, (rest.take n).flatMap faultOf, (rest.take n).getLast?.getD last,
    rest.drop n⟩

@[simp]
theorem read_reading (n : Nat) (last : α) (rest : List α) :
    (reading n last rest).read = rest.take n := by
  rw [reading, read, Tree.flatMap_leaves_map_leaf]

end Outcome

/-! ## The terms -/

/-- A rule of the grammar. -/
inductive Rule (α : Type) where
  /-- Does nothing. -/
  | done
  /-- Reports a problem right after the last token. -/
  | complain (problem : Problem)
  /-- Reports a problem from a token to the last one. -/
  | complainSince (first : α) (problem : Problem)
  /-- Reports a problem at one token. -/
  | complainAt (token : α) (problem : Problem)
  /-- One rule after the other. -/
  | andThen (first second : Rule α)
  /-- Makes what a rule builds one node. -/
  | wrap (kind : NodeKind) (rule : Rule α)
  /-- A rule that depends on the next token; nothing is done at the end of the tokens. -/
  | withNext (rule : α → Rule α)
  /-- A rule that depends on the kind of the next token; there is none at the end. -/
  | peek (rule : Option TokenKind → Rule α)
  /-- Reads the next token, whatever it is. -/
  | advance
  /-- Reads all tokens of the right kind that come next. -/
  | acceptAll (p : TokenKind → Bool)
  /-- Reads a pair of braces with all tokens in between. -/
  | rawGroup
  /--
  What comes next as one node whose kind shows only after a part of it has been read: the next
  token decides the kind and how the node ends.
  -/
  | wrapBy (start : Rule α) (kind : Option TokenKind → NodeKind)
      (finish : Option TokenKind → Rule α)
  /--
  Repeats an item while the next token is of the right kind. An item that reads nothing ends the
  repetition.
  -/
  | many (p : TokenKind → Bool) (item : Rule α)
  /-- A block in braces. -/
  | block (shape : BlockShape)

namespace Rule

variable {α : Type}

instance : Append (Rule α) := ⟨andThen⟩

/-- Rules one after the other. -/
def seq : List (Rule α) → Rule α
  | [] => done
  | [rule] => rule
  | rule :: rules => rule ++ seq rules

/-- Reports that something is missing right after the last token. -/
def lacking (what : Missing) : Rule α := complain (.missing what)

/-- Reports a problem from the first to the last token that a rule reads. -/
def complainAcross (problem : Problem) (rule : Rule α) : Rule α :=
  withNext fun first => rule ++ complainSince first problem

/-- One rule if the next token is of the right kind, else the other. -/
def ifNext (p : TokenKind → Bool) (yes no : Rule α) : Rule α :=
  peek fun next => if next.any p then yes else no

/-- Reads the next token if it is of the right kind. -/
def accept (p : TokenKind → Bool) : Rule α := ifNext p advance done

/-- Makes the next token an error node and reports it. -/
def reject (problem : Problem) : Rule α :=
  withNext fun token => wrap .error (complainAt token problem ++ advance)

end Rule

/-! ## What they return -/

variable {α : Type} [Lexical α]

/-- The number of tokens up to the `}` that leaves no brace open, when `opened` are open. -/
def groupLength (opened : Nat) : List α → Nat
  | [] => 0
  | t :: ts =>
    match Lexical.kind t with
    | .leftBrace => groupLength (opened + 1) ts + 1
    | .rightBrace => if opened ≤ 1 then 1 else groupLength (opened - 1) ts + 1
    | _ => groupLength opened ts + 1

section GroupLength

variable {t : α} {ts : List α} {opened : Nat}

theorem groupLength_leftBrace (h : Lexical.kind t = .leftBrace) :
    groupLength opened (t :: ts) = groupLength (opened + 1) ts + 1 := by
  simp only [groupLength, h]

theorem groupLength_rightBrace (h : Lexical.kind t = .rightBrace) :
    groupLength opened (t :: ts) = if opened ≤ 1 then 1 else groupLength (opened - 1) ts + 1 := by
  simp only [groupLength, h]

theorem groupLength_other (hl : Lexical.kind t ≠ .leftBrace) (hr : Lexical.kind t ≠ .rightBrace) :
    groupLength opened (t :: ts) = groupLength opened ts + 1 := by
  rw [groupLength]
  split
  · next hk => exact absurd hk hl
  · next hk => exact absurd hk hr
  · rfl

end GroupLength

/-- What a repetition returns, by recursion on the tokens left. -/
def manyFrom (p : TokenKind → Bool) (item : α → List α → Outcome α) (last : α) (rest : List α) :
    Outcome α :=
  match rest with
  | [] => .idle last []
  | t :: ts =>
    if p (Lexical.kind t) then
      let a := item last (t :: ts)
      if a.rest.length < (t :: ts).length then a.join (manyFrom p item a.last a.rest)
      else a
    else .idle last (t :: ts)
termination_by rest.length
decreasing_by assumption

namespace Rule

/--
What a rule returns, applied to the last token read and the tokens left, when `block` says what
becomes of a block.
-/
def runWith (block : BlockShape → α → List α → Outcome α) : Rule α → α → List α → Outcome α
  | done, last, rest => .idle last rest
  | complain problem, last, rest => ⟨[], [⟨problem, .after last⟩], last, rest⟩
  | complainSince first problem, last, rest => ⟨[], [⟨problem, .across first last⟩], last, rest⟩
  | complainAt token problem, last, rest => ⟨[], [⟨problem, .across token token⟩], last, rest⟩
  | andThen first second, last, rest => (first.runWith block last rest).followedBy
      (second.runWith block)
  | wrap kind rule, last, rest => (rule.runWith block last rest).wrapped kind
  | withNext _, last, [] => .idle last []
  | withNext rule, last, t :: ts => (rule t).runWith block last (t :: ts)
  | peek rule, last, rest => (rule (rest.head?.map Lexical.kind)).runWith block last rest
  | advance, last, rest => .reading 1 last rest
  | acceptAll p, last, rest =>
    .reading (rest.takeWhile fun t => p (Lexical.kind t)).length last rest
  | rawGroup, last, rest => .reading (groupLength 0 rest) last rest
  | wrapBy start kind finish, last, rest =>
    let a := start.runWith block last rest
    (a.followedBy ((finish a.nextKind).runWith block)).wrapped (kind a.nextKind)
  | many p item, last, rest => manyFrom p (item.runWith block) last rest
  | Rule.block shape, last, rest => block shape last rest

end Rule

end NginxConf
