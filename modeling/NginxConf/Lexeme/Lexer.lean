import NginxConf.Lexeme
import NginxConf.Lexeme.LuaBody
import NginxConf.Lexeme.Word

/-!
# Lexing

`lex` cuts a text into lexemes. It never fails: a string or a script that the text ends too early
becomes a malformed lexeme that reaches to the end.

## Modes

What a parenthesis or a brace is depends on the tokens before it, so the lexer carries a mode.

* After `if`, a `(` opens a condition; elsewhere it is part of a word.
* Inside a condition, words count parentheses, and a `)` at count zero closes the condition. Only
  there are operators recognised, and no keywords.
* After a `*_by_lua_block` keyword, the next `{` opens a script. Whatever stands in between does
  not change that, unless it is a `;` or a `}`.

After `;`, `{` or `}` the mode is `normal`, except for the `{` that opens a script.

## Termination

Every step takes at least one character, with one exception: a script that begins where the text
ends gives one empty lexeme. `Mode.weight` counts that step in advance.
-/

namespace NginxConf

/-- What the lexer remembers of the tokens before. -/
inductive Mode
  | normal
  /-- Right after `if`. -/
  | afterIf
  /-- Between the parentheses of a condition, with so many more open. -/
  | condition (depth : Nat)
  /-- Between a `*_by_lua_block` keyword and its `{`. -/
  | afterLuaKeyword
  /-- Right after the `{` that opens a script. -/
  | luaBody
deriving DecidableEq, Repr, Inhabited

namespace Mode

/-- The parentheses open inside a condition; nothing outside of one. -/
def depth? : Mode → Option Nat
  | condition depth => some depth
  | _ => none

/-- The mode after a word that leaves so many parentheses open. -/
def withDepth : Mode → Option Nat → Mode
  | condition _, some depth => condition depth
  | mode, _ => mode

/-- The mode after a token. -/
def afterToken : Mode → TokenKind → Mode
  | afterIf, .leftParen => condition 0
  | condition depth, kind =>
    if kind ∈ [.rightParen, .leftBrace, .rightBrace, .semicolon] then normal else condition depth
  | afterLuaKeyword, kind =>
    if kind = .leftBrace then luaBody
    else if kind ∈ [.rightBrace, .semicolon] then normal
    else afterLuaKeyword
  | _, .ifKeyword => afterIf
  | _, .luaKeyword => afterLuaKeyword
  | _, _ => normal

/-- The mode after a lexeme. Trivia changes nothing. -/
def after (mode : Mode) : LeafKind → Mode
  | .trivia _ => mode
  | .token kind => mode.afterToken kind

/-- One for the mode in which the end of the text still gives a lexeme. -/
def weight : Mode → Nat
  | luaBody => 1
  | _ => 0

theorem weight_le (mode : Mode) : mode.weight ≤ 1 := by
  cases mode <;> simp [weight]

end Mode

/-- The token kind of a word, inside or outside a condition. -/
def classifyWord (inCondition : Bool) (word : Text) : TokenKind :=
  if inCondition then
    if operators.contains word then .operator
    else if isVariable word then .variableName
    else .word
  else if word = "if".toList then .ifKeyword
  else if word = "set".toList then .setKeyword
  else if word = "include".toList then .includeKeyword
  else if word = "geo".toList then .geoKeyword
  else if isLuaKeyword word then .luaKeyword
  else if isVariable word then .variableName
  else .word

/-- Whether a character ends a line on its own or as part of a pair. -/
def isLineEnd (c : Char) : Bool := c == '\n' || c == '\r'

/-- Whether a character is a blank within a line. -/
def isInlineBlank (c : Char) : Bool := isBlank c && !isLineEnd c

/-- The punctuation token of a character, where it is one. -/
def punctuation? (mode : Mode) (c : Char) : Option TokenKind :=
  if c = ';' then some .semicolon
  else if c = '{' then some .leftBrace
  else if c = '}' then some .rightBrace
  else if c = '(' ∧ mode = .afterIf then some .leftParen
  else if c = ')' ∧ mode = .condition 0 then some .rightParen
  else none

/-- A lexeme with the mode after it and the text that follows. -/
structure LexStep where
  lexeme : Lexeme
  mode : Mode
  rest : Text
deriving DecidableEq, Repr

namespace LexStep

/-- The step that takes a lexeme in a mode. -/
def ofLexeme (mode : Mode) (lexeme : Lexeme) (rest : Text) : LexStep :=
  ⟨lexeme, mode.after lexeme.kind, rest⟩

/-- The lexeme of a word, a string or a punctuation mark that begins with `c`. -/
def significant (mode : Mode) (c : Char) (rest : Text) : LexStep :=
  if c = '"' ∨ c = '\'' then
    match scanQuoted c rest with
    | some (quoted, after) => ofLexeme mode (.token .string (c :: quoted)) after
    | none => ofLexeme mode (.malformed .unterminatedString (c :: rest)) []
  else
    match punctuation? mode c with
    | some kind => ofLexeme mode (.token kind [c]) rest
    | none =>
      let scan := scanWord mode.depth? (c :: rest)
      let kind := classifyWord mode.depth?.isSome scan.word
      ofLexeme (mode.withDepth scan.depth) (.token kind scan.word) scan.rest

/-- The lexeme that begins with `c`, where no script begins. -/
def plain (mode : Mode) (c : Char) (rest : Text) : LexStep :=
  if c = '\n' then ofLexeme mode (.trivia .newline [c]) rest
  else if c = '\r' ∧ rest.head? = some '\n' then
    ofLexeme mode (.trivia .newline [c, '\n']) rest.tail
  else if isBlank c then
    ofLexeme mode (.trivia .whitespace (c :: rest.takeWhile isInlineBlank))
      (rest.dropWhile isInlineBlank)
  else if c = '#' then
    ofLexeme mode (.trivia .comment (c :: rest.takeWhile (!isLineEnd ·)))
      (rest.dropWhile (!isLineEnd ·))
  else significant mode c rest

end LexStep

/-- The first lexeme of a text, where no script begins. -/
def lexPlain (mode : Mode) : Text → Option LexStep
  | [] => none
  | c :: rest => some (.plain mode c rest)

/-- The first lexeme of a text. -/
def lexStep (mode : Mode) (s : Text) : Option LexStep :=
  if mode = .luaBody then
    match Lua.body 0 s with
    | none => some (.ofLexeme .normal (.malformed .unterminatedLua s) [])
    | some ([], _) => lexPlain .normal s
    | some (code, rest) => some (.ofLexeme .normal (.token .luaCode code) rest)
  else lexPlain mode s

/-! ## Nothing is lost -/

namespace LexStep

theorem significant_append (mode : Mode) (c : Char) (rest : Text) :
    (significant mode c rest).lexeme.text ++ (significant mode c rest).rest = c :: rest := by
  unfold significant
  split
  · split
    · next quoted after h =>
      simp [ofLexeme, Lexeme.token, scanQuoted_append h]
    · simp [ofLexeme, Lexeme.malformed]
  · split
    · rfl
    · simp only [ofLexeme, Lexeme.token]
      exact scanWord_append _ _

theorem plain_append (mode : Mode) (c : Char) (rest : Text) :
    (plain mode c rest).lexeme.text ++ (plain mode c rest).rest = c :: rest := by
  unfold plain
  split
  · rfl
  · split
    · next h =>
      cases rest with
      | nil => simp at h
      | cons d rest =>
        simp only [List.head?_cons, Option.some.injEq] at h
        simp [ofLexeme, Lexeme.trivia, h.2]
    · split
      · simp [ofLexeme, Lexeme.trivia]
      · split
        · simp [ofLexeme, Lexeme.trivia]
        · exact significant_append mode c rest

theorem significant_text_ne_nil (mode : Mode) (c : Char) (rest : Text) :
    (significant mode c rest).lexeme.text ≠ [] := by
  unfold significant
  split
  · split <;> simp [ofLexeme, Lexeme.token, Lexeme.malformed]
  · split
    · simp [ofLexeme, Lexeme.token]
    · exact scanWord_word_ne_nil _ (by simp)

theorem plain_text_ne_nil (mode : Mode) (c : Char) (rest : Text) :
    (plain mode c rest).lexeme.text ≠ [] := by
  unfold plain
  repeat' split
  all_goals first
    | exact significant_text_ne_nil mode c rest
    | simp [ofLexeme, Lexeme.trivia]

/-- Less is left after a lexeme that begins with a character of the text. -/
theorem length_plain_lt (mode : Mode) (c : Char) (rest : Text) :
    (plain mode c rest).rest.length < (c :: rest).length := by
  have h1 := congrArg List.length (plain_append mode c rest)
  have h2 := List.length_pos_iff.2 (plain_text_ne_nil mode c rest)
  simp only [List.length_append] at h1
  omega

end LexStep

/-- **A lexeme and what follows it are the text.** -/
theorem lexStep_append {mode : Mode} {s : Text} {step : LexStep}
    (h : lexStep mode s = some step) : step.lexeme.text ++ step.rest = s := by
  have plain : ∀ {m}, lexPlain m s = some step → step.lexeme.text ++ step.rest = s := by
    intro m hm
    cases s with
    | nil => cases hm
    | cons c rest => cases hm; exact LexStep.plain_append _ c rest
  unfold lexStep at h
  split at h
  · split at h
    · cases h; simp [LexStep.ofLexeme, Lexeme.malformed]
    · exact plain h
    · next code rest _ hbody => cases h; exact Lua.body_append hbody
  · exact plain h

/-- The measure by which lexing ends: each step makes it smaller. -/
theorem lexStep_weight {mode : Mode} {s : Text} {step : LexStep}
    (h : lexStep mode s = some step) :
    2 * step.rest.length + step.mode.weight < 2 * s.length + mode.weight := by
  have plain : ∀ {m}, lexPlain m s = some step → step.rest.length < s.length := by
    intro m hm
    cases s with
    | nil => cases hm
    | cons c rest => cases hm; exact LexStep.length_plain_lt _ c rest
  have hweight := step.mode.weight_le
  have hlength := congrArg List.length (lexStep_append h)
  rw [List.length_append] at hlength
  unfold lexStep at h
  split at h
  · next hmode =>
    subst hmode
    split at h
    · cases h
      simp only [LexStep.ofLexeme, Mode.after, Lexeme.malformed, Mode.afterToken, Mode.weight,
        List.length_nil]
      omega
    · have := plain h
      omega
    · next code rest hne hbody =>
      cases h
      have : code.length ≠ 0 := by
        intro hcode
        exact hne (List.length_eq_zero_iff.1 hcode)
      simp only [LexStep.ofLexeme, Lexeme.token] at hlength hweight ⊢
      omega
  · have := plain h
    omega

/-! ## Whole texts -/

/-- The lexemes of a text that begins in a mode. -/
def lexFrom (mode : Mode) (s : Text) : List Lexeme :=
  match _h : lexStep mode s with
  | none => []
  | some step => step.lexeme :: lexFrom step.mode step.rest
termination_by 2 * s.length + mode.weight
decreasing_by exact lexStep_weight _h

theorem lexFrom_of_none {mode : Mode} {s : Text} (h : lexStep mode s = none) :
    lexFrom mode s = [] := by
  rw [lexFrom]
  split <;> simp_all

theorem lexFrom_of_some {mode : Mode} {s : Text} {step : LexStep}
    (h : lexStep mode s = some step) :
    lexFrom mode s = step.lexeme :: lexFrom step.mode step.rest := by
  rw [lexFrom]
  split <;> simp_all

/-- The lexemes of a text. -/
def lex (s : Text) : List Lexeme := lexFrom .normal s

/--
The lexemes of the part of a text after `offset` bytes, as if a text began there. There is no
answer when the offset is not between two characters.
-/
def lexAfter? (s : Text) (offset : Nat) : Option (List Lexeme) :=
  (Text.splitAt? s offset).map fun (_, rest) => lex rest

/-- Lexemes with the ranges that they cover when the first one begins at an offset. -/
def placeLexemes (offset : Nat) : List Lexeme → List (Lexeme × Span)
  | [] => []
  | l :: ls => (l, ⟨offset, offset + l.size⟩) :: placeLexemes (offset + l.size) ls

end NginxConf
