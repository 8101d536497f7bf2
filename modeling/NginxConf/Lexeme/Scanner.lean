import NginxConf.Lexeme.Lexer
import NginxConf.Lexeme.LuaBytes

/-!
# Lexing as a run of a scanner

`lex` says what the lexemes of a text are. A scanner finds them as it goes: a cursor moves over the
text, the range of a piece is computed from what is left before and after it, the text of a word is
sliced out of the whole text to be classified, the parentheses of a condition are counted in 32
bits, and a script is scanned by bytes.

Each of these can go wrong where `lex` cannot, and then the scanner halts (`ScanHalt`).

## Termination

Within a piece the cursor only moves on. The loop over the pieces halts with `endless` after a
piece that leaves as much to do as before (`Scanner.weight`).
-/

namespace NginxConf

/-- What a scanner remembers of the tokens before, the parentheses of a condition aside. -/
inductive ScanMode
  | normal
  | afterIf
  | condition
  | afterLuaKeyword
  | luaBody
deriving DecidableEq, Repr, Inhabited

/-- A piece that a scanner has found. -/
structure ScanToken where
  kind : LeafKind
  span : Span
  fault : Option LexFault
deriving DecidableEq, Repr

/-- A scan of a text under way. -/
structure Scanner where
  text : Text
  /-- What the cursor has ahead. -/
  rest : Text
  /-- The number of bytes that were ahead where the piece under way began. -/
  ahead : Nat
  mode : ScanMode
  /-- The parentheses open in a condition. -/
  depth : Nat
deriving DecidableEq, Repr

namespace Scanner

/-- The number of bytes of a text, where it fits into 32 bits. -/
def byteCount (s : Text) : Except ScanHalt Nat := ScanHalt.add 0 (Text.size s)

/-- A text cut after a number of bytes. -/
def cut (s : Text) (n : Nat) : Except ScanHalt (Text × Text) :=
  match Text.splitAt? s n with
  | some parts => .ok parts
  | none => .error .insideCharacter

/-- A scanner that begins at an offset. -/
def startAt (s : Text) (offset : Nat) : Except ScanHalt Scanner := do
  let parts ← cut s offset
  return ⟨s, parts.2, ← byteCount parts.2, .normal, 0⟩

/-- Where the cursor stands. -/
def offset (m : Scanner) : Except ScanHalt Nat := do
  ScanHalt.sub (← byteCount m.text) (← byteCount m.rest)

/-- The range of the piece under way, up to the cursor. -/
def span (m : Scanner) : Except ScanHalt Span := do
  let stop ← m.offset
  let start ← ScanHalt.sub stop (← ScanHalt.sub m.ahead (← byteCount m.rest))
  if start ≤ stop then return ⟨start, stop⟩ else throw .reversedRange

/-- The text of the piece under way. -/
def pieceText (m : Scanner) : Except ScanHalt Text := do
  let span ← m.span
  let parts ← cut m.text span.start
  return (← cut parts.2 (span.stop - span.start)).1

/-- Moves the cursor over a number of bytes. -/
def skipBytes (n : Nat) (m : Scanner) : Except ScanHalt Scanner := do
  return { m with rest := (← cut m.rest n).2 }

/-- Moves the cursor over all characters of a kind. -/
def skipWhile (p : Char → Bool) (m : Scanner) : Scanner := { m with rest := m.rest.dropWhile p }

/-! ## Strings and words -/

/-- What is left after a string, and whether it is closed. -/
def skipString (quote : Char) : Text → Bool × Text
  | [] => (false, [])
  | ['\\'] => (false, [])
  | '\\' :: _ :: rest => skipString quote rest
  | c :: rest => if c = quote then (true, rest) else skipString quote rest

/-- Moves the cursor to the end of a unit of a word, of which it has read the first character. -/
def readUnit (first : Char) (m : Scanner) : Except ScanHalt Scanner :=
  if first = '\\' then .ok { m with rest := m.rest.tail }
  else if first = '$' ∧ m.rest.head? = some '{' then
    let after := m.rest.tail.dropWhile fun c => c != '}' && !endsWord c
    .ok { m with rest := if after.head? = some '}' then after.tail else after }
  else if first = '(' ∧ m.mode = .condition then do
    return { m with depth := ← ScanHalt.add m.depth 1 }
  else if first = ')' ∧ m.mode = .condition then .ok { m with depth := m.depth - 1 }
  else .ok m

theorem length_rest_readUnit {first : Char} {m m' : Scanner} (h : m.readUnit first = .ok m') :
    m'.rest.length ≤ m.rest.length := by
  unfold readUnit at h
  split at h
  · cases h
    simp
  · split at h
    · have hdrop := (List.dropWhile_suffix (l := m.rest.tail)
        fun c => c != '}' && !endsWord c).length_le
      cases h
      simp only [List.length_tail] at hdrop ⊢
      split
      · rw [List.length_tail]
        omega
      · omega
    · split at h
      · cases hadd : ScanHalt.add m.depth 1 with
        | error halt =>
          rw [hadd] at h
          cases h
        | ok depth =>
          rw [hadd] at h
          cases h
          exact Nat.le_refl _
      · split at h <;>
        · cases h
          exact Nat.le_refl _

/-- Moves the cursor to the end of a word, of which it has read the first character. -/
def readWord (first : Char) (m : Scanner) : Except ScanHalt Scanner :=
  match _h : m.readUnit first with
  | .error halt => .error halt
  | .ok next =>
    match _hrest : next.rest with
    | [] => .ok next
    | c :: rest =>
      if endsWord c ∨ (c = ')' ∧ next.mode = .condition ∧ next.depth = 0) then .ok next
      else readWord c { next with rest }
termination_by m.rest.length
decreasing_by
  have := length_rest_readUnit _h
  rw [_hrest] at this
  exact this

/-! ## Pieces -/

/-- The kind of a piece, with why it is malformed. -/
abbrev Found := LeafKind × Option LexFault

/-- Reads a piece that begins with a character, where no script begins. -/
def readFrom (first : Char) (m : Scanner) : Except ScanHalt (Found × Scanner) :=
  if first = '\n' then .ok ((.trivia .newline, none), m)
  else if first = '\r' ∧ m.rest.head? = some '\n' then
    .ok ((.trivia .newline, none), { m with rest := m.rest.tail })
  else if isBlank first then .ok ((.trivia .whitespace, none), m.skipWhile isInlineBlank)
  else if first = '#' then .ok ((.trivia .comment, none), m.skipWhile (!isLineEnd ·))
  else if first = ';' then .ok ((.token .semicolon, none), m)
  else if first = '{' then .ok ((.token .leftBrace, none), m)
  else if first = '}' then .ok ((.token .rightBrace, none), m)
  else if first = '"' ∨ first = '\'' then
    let read := skipString first m.rest
    .ok (if read.1 then (.token .string, none) else (.token .malformed, some .unterminatedString),
      { m with rest := read.2 })
  else if first = '(' ∧ m.mode = .afterIf then .ok ((.token .leftParen, none), m)
  else if first = ')' ∧ m.mode = .condition ∧ m.depth = 0 then
    .ok ((.token .rightParen, none), m)
  else do
    let m ← m.readWord first
    return ((.token (classifyWord (m.mode = .condition) (← m.pieceText)), none), m)

/-- Reads a piece, where no script begins; there is none at the end of the text. -/
def readPlain (m : Scanner) : Except ScanHalt (Option Found × Scanner) :=
  match m.rest with
  | [] => .ok (none, m)
  | first :: rest => do
    let read ← readFrom first { m with rest }
    return (some read.1, read.2)

/-- Reads a script, or the `}` that closes an empty one. -/
def readScript (m : Scanner) : Except ScanHalt (Option Found × Scanner) := do
  match ← Lua.bodyEnd (Text.bytes m.rest) 0 0 with
  | some 0 => m.readPlain
  | some size => return (some (.token .luaCode, none), ← m.skipBytes size)
  | none =>
    return (some (.token .malformed, some .unterminatedLua), ← m.skipBytes (Text.size m.rest))

/-- Reads a piece. -/
def read (m : Scanner) : Except ScanHalt (Option Found × Scanner) :=
  if m.mode = .luaBody then readScript { m with mode := .normal } else m.readPlain

/-- Changes the mode after a token. -/
def transition (kind : TokenKind) (m : Scanner) : Scanner :=
  match m.mode, kind with
  | .afterIf, .leftParen => { m with mode := .condition, depth := 0 }
  | .condition, .rightParen | .condition, .leftBrace | .condition, .rightBrace
  | .condition, .semicolon => { m with mode := .normal }
  | .condition, _ => m
  | .afterLuaKeyword, .leftBrace => { m with mode := .luaBody }
  | .afterLuaKeyword, .rightBrace | .afterLuaKeyword, .semicolon => { m with mode := .normal }
  | .afterLuaKeyword, _ => m
  | _, .ifKeyword => { m with mode := .afterIf }
  | _, .luaKeyword => { m with mode := .afterLuaKeyword }
  | _, _ => { m with mode := .normal }

/-- Changes the mode after a piece. Trivia changes nothing. -/
def transitionLeaf (kind : LeafKind) (m : Scanner) : Scanner :=
  match kind with
  | .trivia _ => m
  | .token kind => m.transition kind

/-- The next piece, and the scanner that goes on after it. -/
def next (m : Scanner) : Except ScanHalt (Option (ScanToken × Scanner)) :=
  if m.rest = [] ∧ m.mode ≠ .luaBody then .ok none
  else do
    match ← m.read with
    | (none, _) => return none
    | (some (kind, fault), m) =>
      let span ← m.span
      let ahead ← byteCount m.rest
      return some (⟨kind, span, fault⟩, { m with ahead }.transitionLeaf kind)

/-- What is left to do: the characters, and the script that may be empty. -/
def weight (m : Scanner) : Nat := 2 * m.rest.length + if m.mode = .luaBody then 1 else 0

/-- All pieces that are left. -/
def run (m : Scanner) : Except ScanHalt (List ScanToken) :=
  match m.next with
  | .error halt => .error halt
  | .ok none => .ok []
  | .ok (some (token, more)) =>
    if more.weight < m.weight then more.run.map (token :: ·) else .error .endless
termination_by m.weight

end Scanner

/-- The pieces of a text from an offset on. -/
def scanFrom (s : Text) (offset : Nat) : Except ScanHalt (List ScanToken) := do
  (← Scanner.startAt s offset).run

end NginxConf
