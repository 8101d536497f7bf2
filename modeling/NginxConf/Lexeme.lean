import NginxConf.Kind
import NginxConf.Text

/-!
# Lexemes

A lexeme is a piece of the text with its kind: a token or one piece of trivia. The lexemes of a
text, written one after the other, are the text.
-/

namespace NginxConf

/-- Why the lexer gave up on the rest of a text. -/
inductive LexFault
  | unterminatedString
  | unterminatedLua
deriving DecidableEq, Repr, Inhabited

/-- What a lexer fault says to the user. -/
def LexFault.message : LexFault → String
  | unterminatedString => "unterminated string literal"
  | unterminatedLua => "unterminated Lua block"

/-- A piece of the text with its kind. -/
structure Lexeme where
  kind : LeafKind
  text : Text
  /-- Why the piece is malformed, if it is. -/
  fault : Option LexFault := none
deriving DecidableEq, Repr, Inhabited

namespace Lexeme

/-- The number of bytes. -/
def size (l : Lexeme) : Nat := Text.size l.text

/-- A lexeme of the given token kind. -/
def token (kind : TokenKind) (text : Text) : Lexeme := ⟨.token kind, text, none⟩

/-- A lexeme of the given trivia kind. -/
def trivia (kind : TriviaKind) (text : Text) : Lexeme := ⟨.trivia kind, text, none⟩

/-- A lexeme that covers a malformed region. -/
def malformed (fault : LexFault) (text : Text) : Lexeme := ⟨.token .malformed, text, some fault⟩

end Lexeme

end NginxConf
