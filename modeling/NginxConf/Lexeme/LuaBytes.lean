import NginxConf.Overflow
import NginxConf.Text

/-!
# Lua bodies, byte by byte

`Lua.body` reads a script character by character. What runs on a file reads bytes at positions: it
looks one byte up, jumps over the byte after a backslash even where that byte is the first one of a
longer encoding, and counts braces in 32 bits. A position past the end has no byte, but no slice
can begin there; that, and a count that does not fit, is a `ScanHalt`.

All characters that mean something in a script are ASCII, and the bytes of other characters are
not; this is why it can work on bytes at all.

## Termination

The scans inside one piece of a script go up to the end of the bytes. The scan over the pieces
halts with `endless` where a piece ends no further on than it began.
-/

namespace NginxConf

/-- Why a scan of a text gives up. -/
inductive ScanHalt
  /-- A slice begins past the end of the bytes. -/
  | pastEnd
  /-- A cut would go through the encoding of a character. -/
  | insideCharacter
  /-- A sum does not fit into 32 bits. -/
  | overflow
  /-- A difference would be negative. -/
  | negative
  /-- A range would end before it begins. -/
  | reversedRange
  /-- A loop does not move on. -/
  | endless
deriving DecidableEq, Repr

namespace ScanHalt

/-- The sum of two numbers, where it fits into 32 bits. -/
def add (a b : Nat) : Except ScanHalt Nat :=
  if a + b < Overflow.offsetBound then .ok (a + b) else .error overflow

/-- The difference of two numbers, where there is one. -/
def sub (a b : Nat) : Except ScanHalt Nat :=
  if b ≤ a then .ok (a - b) else .error negative

end ScanHalt

/-- The bytes of the UTF-8 encoding. -/
def Text.bytes (s : Text) : List UInt8 := s.flatMap String.utf8EncodeChar

namespace Lua

/-- The bytes from a position on. -/
def bytesFrom (bytes : List UInt8) (pos : Nat) : Except ScanHalt (List UInt8) :=
  if pos ≤ bytes.length then .ok (bytes.drop pos) else .error .pastEnd

/-- The number of equal signs from a position on. -/
def countEquals (bytes : List UInt8) (pos : Nat) : Except ScanHalt Nat := do
  return ((← bytesFrom bytes pos).takeWhile (· == '='.toUInt8)).length

/-- Where a short string ends of which the rest begins at a position. -/
def skipShortString (bytes : List UInt8) (quote : UInt8) (pos : Nat) : Nat :=
  match _h : bytes[pos]? with
  | none => bytes.length
  | some byte =>
    if byte = '\\'.toUInt8 then skipShortString bytes quote (pos + 2)
    else if byte = '\n'.toUInt8 then pos
    else if byte = quote then pos + 1
    else skipShortString bytes quote (pos + 1)
termination_by bytes.length - pos
decreasing_by all_goals have := (List.getElem?_eq_some_iff.1 _h).1; omega

/-- The number of equal signs of the long bracket that opens at a position, if one does. -/
def levelAt (bytes : List UInt8) (pos : Nat) : Except ScanHalt (Option Nat) :=
  if bytes[pos]? = some '['.toUInt8 then do
    let level ← countEquals bytes (pos + 1)
    return if bytes[pos + 1 + level]? = some '['.toUInt8 then some level else none
  else .ok none

/-- Where a long bracket ends of which the rest begins at a position. -/
def closeLongBracket (bytes : List UInt8) (level pos : Nat) : Except ScanHalt Nat :=
  match _h : bytes[pos]? with
  | none => .ok bytes.length
  | some byte =>
    if byte = ']'.toUInt8 then
      match countEquals bytes (pos + 1) with
      | .error halt => .error halt
      | .ok equals =>
        if equals = level ∧ bytes[pos + 1 + level]? = some ']'.toUInt8 then .ok (pos + level + 2)
        else closeLongBracket bytes level (pos + 1)
    else closeLongBracket bytes level (pos + 1)
termination_by bytes.length - pos
decreasing_by all_goals have := (List.getElem?_eq_some_iff.1 _h).1; omega

/-- Where the long bracket ends that begins at a position. -/
def skipLongBracket (bytes : List UInt8) (level pos : Nat) : Except ScanHalt Nat :=
  closeLongBracket bytes level (pos + level + 2)

/-- Where the line ends that goes on at a position. -/
def lineEnd (bytes : List UInt8) (pos : Nat) : Except ScanHalt Nat := do
  let ahead ← bytesFrom bytes pos
  return match ahead.findIdx? (· == '\n'.toUInt8) with
    | some count => pos + count
    | none => bytes.length

/-- Where the piece of a script ends that begins with a byte at a position. -/
def pieceEnd (bytes : List UInt8) (pos : Nat) (byte : UInt8) : Except ScanHalt Nat :=
  if byte = '"'.toUInt8 ∨ byte = '\''.toUInt8 then
    .ok (skipShortString bytes byte (pos + 1))
  else if byte = '['.toUInt8 then do
    match ← levelAt bytes pos with
    | some level => skipLongBracket bytes level pos
    | none => return pos + 1
  else if byte = '-'.toUInt8 ∧ bytes[pos + 1]? = some '-'.toUInt8 then do
    match ← levelAt bytes (pos + 2) with
    | some level => skipLongBracket bytes level (pos + 2)
    | none => lineEnd bytes (pos + 2)
  else .ok (pos + 1)

/-- Where the `}` stands that closes a script, when `depth` more braces are open. -/
def bodyEnd (bytes : List UInt8) (depth pos : Nat) : Except ScanHalt (Option Nat) :=
  match _h : bytes[pos]? with
  | none => .ok none
  | some byte =>
    if byte = '{'.toUInt8 then
      match ScanHalt.add depth 1 with
      | .error halt => .error halt
      | .ok depth => bodyEnd bytes depth (pos + 1)
    else if byte = '}'.toUInt8 then
      match depth with
      | 0 => .ok (some pos)
      | depth + 1 => bodyEnd bytes depth (pos + 1)
    else
      match pieceEnd bytes pos byte with
      | .error halt => .error halt
      | .ok next => if pos < next then bodyEnd bytes depth next else .error .endless
termination_by bytes.length - pos
decreasing_by all_goals have := (List.getElem?_eq_some_iff.1 _h).1; omega

end Lua

end NginxConf
