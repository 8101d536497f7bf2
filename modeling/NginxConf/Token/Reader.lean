import NginxConf.Lexeme.Scanner
import NginxConf.Token.Stream

/-!
# Reading tokens one at a time

`tokenize` says what the tokens of a text are. A parser does not wait for all of them: a reader has
the next token at hand, and finds the one after it when that is taken (`Reader.next`). Where a token
ends is known only once the scanner has found a piece that does not belong to it, so one piece is
held back for the next token (`PeekedScanner`). Two things are read ahead, then, the token at hand
and the piece held back.

The reader knows pieces by their kinds and ranges, and never looks at the text.

## Termination

The loops over trivia halt with `endless` after a piece that leaves as much to do as before
(`PeekedScanner.weight`).
-/

namespace NginxConf

/-- A piece of trivia without its text. -/
structure TriviaPiece where
  kind : TriviaKind
  /-- The number of bytes. -/
  size : Nat
deriving DecidableEq, Repr, Inhabited

/-- A token with the trivia attached to it, without their texts. -/
structure ReadToken where
  leading : List TriviaPiece
  kind : TokenKind
  /-- The range of the token, trivia excluded. -/
  span : Span
  trailing : List TriviaPiece
  /-- Why the token is malformed, if it is. -/
  fault : Option LexFault
deriving DecidableEq, Repr, Inhabited

namespace TriviaPiece

/-- The number of bytes of a run of trivia, where it fits. -/
def sizeOf (ps : List TriviaPiece) : Except ScanHalt Nat :=
  ps.foldlM (fun size p => ScanHalt.add size p.size) 0

end TriviaPiece

namespace ReadToken

/-- The token that ends a text, after so much trivia. -/
def endOfFile (leading : List TriviaPiece) (offset : Nat) : ReadToken :=
  ⟨leading, .endOfFile, .point offset, [], none⟩

/-- Where the trivia before the token begins. -/
def fullStart (t : ReadToken) : Except ScanHalt Nat := do
  ScanHalt.sub t.span.start (← TriviaPiece.sizeOf t.leading)

/-- Where the trivia after the token ends. -/
def fullStop (t : ReadToken) : Except ScanHalt Nat := do
  ScanHalt.add t.span.stop (← TriviaPiece.sizeOf t.trailing)

/-- The range of the token, trivia included. -/
def fullSpan (t : ReadToken) : Except ScanHalt Span := do
  return ⟨← t.fullStart, ← t.fullStop⟩

end ReadToken

/-! ## A scanner with a piece held back -/

/-- A scanner, and what it has already found but not handed out: a piece, or that there is none. -/
structure PeekedScanner where
  scanner : Scanner
  peeked : Option (Option ScanToken)
deriving DecidableEq, Repr

namespace PeekedScanner

/-- The next piece: the one held back, or the next one of the scanner. -/
def next (p : PeekedScanner) : Except ScanHalt (Option ScanToken × PeekedScanner) :=
  match p.peeked with
  | some found => .ok (found, { p with peeked := none })
  | none => do
    match ← p.scanner.next with
    | none => return (none, p)
    | some (token, scanner) => return (some token, ⟨scanner, none⟩)

/-- The next piece, if it is one that is looked for. Otherwise it is held back. -/
def nextIf {α : Type} (select : ScanToken → Option α) (p : PeekedScanner) :
    Except ScanHalt (Option α × PeekedScanner) := do
  match ← p.next with
  | (none, more) => return (none, { more with peeked := some none })
  | (some token, more) =>
    match select token with
    | some found => return (some found, more)
    | none => return (none, { more with peeked := some (some token) })

/-- What is left to do: that of the scanner, and the piece held back. -/
def weight (p : PeekedScanner) : Nat :=
  p.scanner.weight + match p.peeked with
    | some (some _) => 1
    | _ => 0

/-- Takes all trivia, and the token after it, if there is one. -/
def takeLeading (leading : List TriviaPiece) (p : PeekedScanner) :
    Except ScanHalt
      (List TriviaPiece × Option (TokenKind × Span × Option LexFault) × PeekedScanner) :=
  match p.next with
  | .error halt => .error halt
  | .ok (none, more) => .ok (leading, none, more)
  | .ok (some token, more) =>
    match token.kind with
    | .token kind => .ok (leading, some (kind, token.span, token.fault), more)
    | .trivia kind =>
      if more.weight < p.weight then more.takeLeading (leading ++ [⟨kind, token.span.size⟩])
      else .error .endless
termination_by p.weight

/-- A piece of trivia that does not end the line. -/
def inlineTrivia? (token : ScanToken) : Option TriviaPiece :=
  match token.kind with
  | .trivia .whitespace => some ⟨.whitespace, token.span.size⟩
  | .trivia .comment => some ⟨.comment, token.span.size⟩
  | _ => none

/-- Takes the trivia up to the end of the line. -/
def takeTrailing (trailing : List TriviaPiece) (p : PeekedScanner) :
    Except ScanHalt (List TriviaPiece × PeekedScanner) :=
  match p.nextIf inlineTrivia? with
  | .error halt => .error halt
  | .ok (none, more) => .ok (trailing, more)
  | .ok (some piece, more) =>
    if more.weight < p.weight then more.takeTrailing (trailing ++ [piece])
    else .error .endless
termination_by p.weight

/-- Takes a token with its trivia; at the end of the text, that is the trivia left over. -/
def takeToken (stop : Nat) (p : PeekedScanner) : Except ScanHalt (ReadToken × PeekedScanner) := do
  match ← p.takeLeading [] with
  | (leading, none, more) => return (.endOfFile leading stop, more)
  | (leading, some (kind, span, fault), more) =>
    let (trailing, more) ← more.takeTrailing []
    return (⟨leading, kind, span, trailing, fault⟩, more)

end PeekedScanner

/-! ## A token at hand -/

/-- A reader of the tokens of a text. -/
structure Reader where
  pieces : PeekedScanner
  /-- The number of bytes of the text. -/
  stop : Nat
  /-- The token at hand. -/
  current : ReadToken
deriving DecidableEq, Repr

namespace Reader

/-- Hands out the token at hand, and finds the one after it. -/
def next (m : Reader) : Except ScanHalt (ReadToken × Reader) := do
  let (token, pieces) ← m.pieces.takeToken m.stop
  return (m.current, { m with pieces, current := token })

/-- A reader with the first token of a text at hand. -/
def start (s : Text) : Except ScanHalt Reader := do
  let scanner ← Scanner.startAt s 0
  let stop ← Scanner.byteCount s
  return (← (⟨⟨scanner, none⟩, stop, .endOfFile [] 0⟩ : Reader).next).2

/-- The next so many tokens. -/
def take : Nat → Reader → Except ScanHalt (List ReadToken)
  | 0, _ => .ok []
  | n + 1, m => do
    let (token, m) ← m.next
    return token :: (← m.take n)

end Reader

end NginxConf
