import NginxConf.Lexeme.Lexer
import NginxConf.Token

/-!
# The token stream of a text

Trivia is attached to tokens by one rule: what follows a token on its line, blanks and a comment,
belongs to the token; a line break and all trivia after it belong to the next token. The stream
ends with a token for the end of the text, which takes the trivia that is left.

## Termination

`attachTrivia` takes at least one lexeme in every step.
-/

namespace NginxConf

/-- A token in its place. -/
structure PlacedToken where
  token : Token
  /-- Where the trivia before the token begins. -/
  offset : Nat
  /-- Why the token is malformed, if it is. -/
  fault : Option LexFault := none
deriving DecidableEq, Repr, Inhabited

namespace PlacedToken

/-- The range of the token, trivia excluded. -/
def span (p : PlacedToken) : Span :=
  ⟨p.offset + p.token.leadingSize, p.offset + p.token.leadingSize + p.token.size⟩

/-- The range of the token, trivia included. -/
def fullSpan (p : PlacedToken) : Span := ⟨p.offset, p.offset + p.token.fullSize⟩

/-- The end of a text at an offset, with no trivia before it. -/
def bareEnd (offset : Nat) : PlacedToken := ⟨.endOfFile [], offset, none⟩

end PlacedToken

/-- The tokens of a text. -/
structure TokenStream where
  tokens : List PlacedToken
  /-- The end of the text, with the trivia left over. -/
  stop : PlacedToken
deriving DecidableEq, Repr, Inhabited

namespace TokenStream

/-- The token read after `n` others. Once the text is exhausted, only bare ends are read. -/
def nth (s : TokenStream) (n : Nat) : PlacedToken :=
  if h : n < s.tokens.length then s.tokens[n]
  else if n = s.tokens.length then s.stop
  else .bareEnd s.stop.fullSpan.stop

end TokenStream

/-- Cuts off the trivia that belongs to the token before: all up to the end of the line. -/
def splitTrailing : List Lexeme → List Trivia × List Lexeme
  | [] => ([], [])
  | l :: ls =>
    match l.kind with
    | .trivia .newline => ([], l :: ls)
    | .trivia kind =>
      let more := splitTrailing ls
      (⟨kind, l.text⟩ :: more.1, more.2)
    | .token _ => ([], l :: ls)

theorem length_splitTrailing_le (ls : List Lexeme) : (splitTrailing ls).2.length ≤ ls.length := by
  induction ls with
  | nil => simp [splitTrailing]
  | cons l ls ih =>
    unfold splitTrailing
    split
    · simp
    · simp only [List.length_cons]; omega
    · simp

/--
The token stream of lexemes that begin at an offset, once the trivia `leading` has been read.
-/
def attachTrivia (offset : Nat) (leading : List Trivia) : List Lexeme → TokenStream
  | [] => ⟨[], ⟨.endOfFile leading, offset, none⟩⟩
  | l :: ls =>
    match l.kind with
    | .trivia kind => attachTrivia offset (leading ++ [⟨kind, l.text⟩]) ls
    | .token kind =>
      let token : Token := ⟨leading, kind, l.text, (splitTrailing ls).1⟩
      let more := attachTrivia (offset + token.fullSize) [] (splitTrailing ls).2
      { more with tokens := ⟨token, offset, l.fault⟩ :: more.tokens }
termination_by ls => ls.length
decreasing_by
  · simp
  · have := length_splitTrailing_le ls
    simp only [List.length_cons]
    omega

/-- The tokens of a text. -/
def tokenize (s : Text) : TokenStream := attachTrivia 0 [] (lex s)

end NginxConf
