import NginxConf.Arena.Builder
import NginxConf.Arena.Invariants
import NginxConf.Parse

/-!
# Parsing as a run of a machine

`parse` builds its tree rule by rule. A machine does the same work in one pass and with counters:
it notes every step as an event, marks the place where a node begins before it knows what the node
will be, counts the blocks it is in, hands the events to the builder of an arena at the end, and has
the arena checked.

A machine can go wrong where trees cannot. Each such way is a `Halt`: a loop that does not move on,
a range that ends before it begins, a mark that leads to no node, a counter that falls below zero,
tokens that are left, a builder that refuses a call, or an arena that does not pass the check. The
rules are the terms that `parse` runs (`driveWith`), so that a halt can only come from the grammar,
or from numbers that are too large to be stored.

## Marks

A mark is a place among the events, stored in 32 bits (`mark32`). From the place 2 ^ 32 on, marks
lead to the first events again. A node that is completed there gives its kind to another one, or the
machine halts, and the place where the node begins keeps no kind; such a place is no call of a
builder. What a machine does is given for any way to store marks (`store`), so that it can be said
what it would do if no mark was too large.

## Termination

Loops recurse on the tokens ahead and blocks on the number of further calls, which the limit on
nesting bounds; where either would have to go on without end, the machine halts with `endless`.
-/

namespace NginxConf

/-- Why a machine gives up. -/
inductive Halt
  /-- A loop reads nothing, or blocks call each other too often. -/
  | endless
  /-- A block is to be read where no `{` stands. -/
  | noBrace
  /-- A raw group is left more often than entered. -/
  | unopenedGroup
  /-- A block is left while none is open. -/
  | unopenedBlock
  /-- A report would end before it begins. -/
  | reversedRange
  /-- A node is completed whose mark leads to no place where a node begins. -/
  | lostMark
  /-- The end of the text is to be read while there are tokens before it. -/
  | tokensLeft
  /-- The builder refuses a call. -/
  | build (error : ArenaError)
  /-- The arena that is built does not pass the check. -/
  | broken (violation : Arena.Violation)
deriving DecidableEq, Repr

/-- A step that a machine has noted. -/
inductive ParseEvent
  /-- A node begins here; its kind is not known before the node is complete. -/
  | start (kind : Option NodeKind)
  | token (t : PlacedToken)
  | finish
deriving DecidableEq, Repr

/-- The call of a builder that an event stands for, none where a node has no kind. -/
def ParseEvent.call? : ParseEvent → Option BuildCall
  | start none => none
  | start (some kind) => some (.start kind)
  | token t => some t.token.call
  | finish => some .finish

/-- A parse whose tree is stored in an arena. -/
structure StoredParse where
  tree : Arena
  /-- In the order of where they begin. -/
  diagnostics : List Diagnostic
deriving DecidableEq, Repr

/-- A parse under way. -/
structure Machine where
  /-- The tokens ahead. -/
  rest : List PlacedToken
  events : List ParseEvent
  /-- The reports, in the order in which they were made. -/
  reports : List Diagnostic
  /-- The number of blocks that are open. -/
  depth : Nat
  /-- Where the last token read ends. -/
  readEnd : Nat
deriving DecidableEq, Repr

namespace Machine

/-- The machine that has read nothing. -/
def new (tokens : List PlacedToken) : Machine := ⟨tokens, [], [], 0, 0⟩

/-- Reports a problem about a range. -/
def report (problem : Problem) (span : Span) (m : Machine) : Machine :=
  { m with reports := m.reports ++
      [{ span, message := problem.message
         severity := if problem.isWarning then .warning else .error
         origin := if problem.isLexical then .lexer else .grammar }] }

/-- A place among the events as it is stored, in 32 bits. -/
def mark32 (place : Nat) : Nat := place % Overflow.offsetBound

/-- Begins a node. -/
def start (m : Machine) : Machine := { m with events := m.events ++ [.start none] }

/-- Completes the node that begins where a mark leads. -/
def complete (mark : Nat) (kind : NodeKind) (m : Machine) : Except Halt Machine :=
  match m.events[mark]? with
  | some (.start _) =>
    .ok { m with events := m.events.set mark (.start (some kind)) ++ [.finish] }
  | _ => .error .lostMark

/-- Reads the next token, whatever it is; at the end there is none. -/
def advance (m : Machine) : Machine :=
  match m.rest with
  | [] => m
  | t :: ts =>
    let m := match t.fault with
      | some fault => m.report (.malformed fault) t.span
      | none => m
    { m with rest := ts, events := m.events ++ [.token t], readEnd := t.span.stop }

theorem rest_advance (m : Machine) : m.advance.rest = m.rest.tail := by
  unfold advance
  split
  · next h => simp [h]
  · next h => split <;> simp [h]

/-- Reads tokens as long as they are of the right kind. -/
def advanceWhile (p : TokenKind → Bool) (m : Machine) : Machine :=
  match _h : m.rest with
  | [] => m
  | t :: _ => if p (Lexical.kind t) then advanceWhile p m.advance else m
termination_by m.rest.length
decreasing_by simp [rest_advance, _h]

/--
Reads on to the `}` that leaves no brace open, when `opened` are open. They are counted in 32 bits,
which is enough for the bytes of a text.
-/
def readGroup (opened : Nat) (m : Machine) : Except Halt Machine :=
  match _h : m.rest with
  | [] => .ok m
  | t :: _ =>
    match Lexical.kind t with
    | .leftBrace => readGroup (opened + 1) m.advance
    | .rightBrace =>
      match opened with
      | 0 => .error .unopenedGroup
      | 1 => .ok m.advance
      | opened + 2 => readGroup (opened + 1) m.advance
    | _ => readGroup opened m.advance
termination_by m.rest.length
decreasing_by all_goals simp [rest_advance, _h]

/-- Repeats an item as long as the next token is of the right kind. -/
def repeatWhile (p : TokenKind → Bool) (item : Machine → Except Halt Machine) (m : Machine) :
    Except Halt Machine :=
  match m.rest with
  | [] => .ok m
  | t :: _ =>
    if p (Lexical.kind t) then
      match item m with
      | .error halt => .error halt
      | .ok next =>
        if next.rest.length < m.rest.length then repeatWhile p item next else .error .endless
    else .ok m
termination_by m.rest.length
decreasing_by assumption

/-- The kind of the next token. -/
def nextKind (m : Machine) : Option TokenKind := m.rest.head?.map Lexical.kind

/-- Follows a rule, when `store` says how marks are stored and `block` how a block is read. -/
def driveWith (store : Nat → Nat) (block : BlockShape → Machine → Except Halt Machine) :
    Rule PlacedToken → Machine → Except Halt Machine
  | .done, m => .ok m
  | .complain problem, m => .ok (m.report problem (.point m.readEnd))
  | .complainSince first problem, m =>
    if first.span.start ≤ m.readEnd then
      .ok (m.report problem ⟨first.span.start, m.readEnd⟩)
    else .error .reversedRange
  | .complainAt token problem, m => .ok (m.report problem token.span)
  | .andThen first second, m => do driveWith store block second (← driveWith store block first m)
  | .wrap kind rule, m => do
    complete (store m.events.length) kind (← driveWith store block rule m.start)
  | .withNext rule, m =>
    match m.rest with
    | [] => .ok m
    | t :: _ => driveWith store block (rule t) m
  | .peek rule, m => driveWith store block (rule m.nextKind) m
  | .advance, m => .ok m.advance
  | .acceptAll p, m => .ok (m.advanceWhile p)
  | .rawGroup, m => m.readGroup 0
  | .wrapBy start kind finish, m => do
    let started ← driveWith store block start m.start
    let ended ← driveWith store block (finish started.nextKind) started
    complete (store m.events.length) (kind started.nextKind) ended
  | .many p item, m => m.repeatWhile p (driveWith store block item)
  | .block shape, m => block shape m

/-- Leaves a block. -/
def leaveBlock (m : Machine) : Except Halt Machine :=
  match m.depth with
  | 0 => .error .unopenedBlock
  | depth + 1 => .ok { m with depth }

/-- Reads a block, when blocks may call each other so often. -/
def driveBlock (store : Nat → Nat) : Nat → BlockShape → Machine → Except Halt Machine
  | calls, shape, m =>
    match m.rest with
    | [] => .error .noBrace
    | brace :: _ =>
      if Lexical.kind brace ≠ .leftBrace then .error .noBrace
      else if maxDepth ≤ m.depth then driveWith store (fun _ _ => .error .endless) .tooDeep m
      else
        match calls with
        | 0 => .error .endless
        | calls + 1 => do
          let inside ← driveWith store (driveBlock store calls) (.braced brace shape)
            { m.start with depth := m.depth + 1 }
          complete (store m.events.length) shape.kind (← inside.leaveBlock)

/-- Follows a rule, when blocks may call each other so often. -/
def drive (store : Nat → Nat) (calls : Nat) (rule : Rule PlacedToken) (m : Machine) :
    Except Halt Machine :=
  driveWith store (driveBlock store calls) rule m

/-- Reads the end of the text. -/
def readStop (stop : PlacedToken) (m : Machine) : Except Halt Machine :=
  match m.rest with
  | [] => .ok { m with events := m.events ++ [.token stop] }
  | _ :: _ => .error .tokensLeft

/-- Gives the events to a builder, and checks what has been built. -/
def buildTree (text : Text) (m : Machine) : Except Halt Arena := do
  let tree ← (Arena.build text (m.events.filterMap ParseEvent.call?)).mapError .build
  tree.assertInvariants.mapError .broken
  return tree

/-- Parses a whole file. -/
def parse (s : Text) : Except Halt StoredParse := do
  let stream := tokenize s
  let first := new stream.tokens
  let read ← drive mark32 maxDepth (.many (fun _ => true) .topStatement) first.start
  let ended ← complete (mark32 first.events.length) .sourceFile (← read.readStop stream.stop)
  return ⟨← ended.buildTree s, Diagnostic.sort ended.reports⟩

end Machine

end NginxConf
