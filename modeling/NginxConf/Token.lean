import NginxConf.Lexeme

/-!
# Tokens with their trivia

Blanks, line breaks and comments mean nothing, but none of them may be lost. Each piece of trivia
is therefore attached to a token, before it or after it, and a token written with its trivia
reproduces its part of the text.
-/

namespace NginxConf

/-- A piece of trivia. -/
structure Trivia where
  kind : TriviaKind
  text : Text
deriving DecidableEq, Repr, Inhabited

namespace Trivia

/-- The number of bytes. -/
def size (t : Trivia) : Nat := Text.size t.text

/-- A piece of trivia as a lexeme. -/
def lexeme (t : Trivia) : Lexeme := .trivia t.kind t.text

/-- The text of a run of trivia. -/
def textOf (ts : List Trivia) : Text := ts.flatMap Trivia.text

/-- The number of bytes of a run of trivia. -/
def sizeOf : List Trivia → Nat
  | [] => 0
  | t :: ts => t.size + sizeOf ts

theorem size_textOf (ts : List Trivia) : Text.size (textOf ts) = sizeOf ts := by
  induction ts with
  | nil => rfl
  | cons t ts ih =>
    rw [sizeOf, ← ih]
    simp [textOf, size]

end Trivia

/-- A token with the trivia attached to it. -/
structure Token where
  leading : List Trivia
  kind : TokenKind
  text : Text
  trailing : List Trivia
deriving DecidableEq, Repr, Inhabited

namespace Token

/-- The token that ends a text, after so much trivia. -/
def endOfFile (leading : List Trivia) : Token := ⟨leading, .endOfFile, [], []⟩

/-- The number of bytes, trivia excluded. -/
def size (t : Token) : Nat := Text.size t.text

/-- The bytes of trivia before the token. -/
def leadingSize (t : Token) : Nat := Trivia.sizeOf t.leading

/-- The text of the token with its trivia. -/
def fullText (t : Token) : Text := Trivia.textOf t.leading ++ t.text ++ Trivia.textOf t.trailing

/-- The number of bytes, trivia included. -/
def fullSize (t : Token) : Nat := t.leadingSize + t.size + Trivia.sizeOf t.trailing

/-- The pieces of text that a token and its trivia are. -/
def lexemes (t : Token) : List Lexeme :=
  t.leading.map Trivia.lexeme ++ Lexeme.token t.kind t.text :: t.trailing.map Trivia.lexeme

theorem size_fullText (t : Token) : Text.size t.fullText = t.fullSize := by
  simp [fullText, fullSize, Trivia.size_textOf, leadingSize, size, Nat.add_assoc]

end Token

end NginxConf
