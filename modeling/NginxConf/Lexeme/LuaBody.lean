import NginxConf.Text

/-!
# Lua bodies

A script between braces is opaque to the configuration; all the lexer needs is where it ends. The
script is read in *pieces*: a short string, a long bracket, a comment, or a single character. The
body ends before the first `}` that is a piece of its own and has no `{` of its own to close.

A short string cannot span lines: one that is not closed ends before the line feed. A long bracket
`[==[` ends with the first `]==]` with as many equal signs.

## Termination

A piece takes at least one character; the recursions on a piece are on the text itself.
-/

namespace NginxConf.Lua

/-- The rest of a short string, up to and with the closing quote. -/
def shortString (quote : Char) : Text → Text × Text
  | [] => ([], [])
  | ['\\'] => (['\\'], [])
  | '\\' :: c :: rest =>
    let more := shortString quote rest
    ('\\' :: c :: more.1, more.2)
  | c :: rest =>
    if c = '\n' then ([], c :: rest)
    else if c = quote then ([c], rest)
    else
      let more := shortString quote rest
      (c :: more.1, more.2)

/-- The number of equal signs of the long bracket that opens at the start of a text, if one does. -/
def longBracketLevel : Text → Option Nat
  | '[' :: rest =>
    match rest.dropWhile (· == '=') with
    | '[' :: _ => some (rest.takeWhile (· == '=')).length
    | _ => none
  | _ => none

/-- Whether the closing half of a long bracket, its first `]` aside, stands here. -/
def closesLongBracket (level : Nat) (s : Text) : Bool :=
  (s.takeWhile (· == '=')).length == level && (s.drop level).head? == some ']'

/-- The rest of a long bracket after its opening half, up to and with the closing half. -/
def longBracket (level : Nat) : Text → Text × Text
  | [] => ([], [])
  | c :: rest =>
    if c = ']' ∧ closesLongBracket level rest then
      (c :: rest.take (level + 1), rest.drop (level + 1))
    else
      let more := longBracket level rest
      (c :: more.1, more.2)

/-- A whole long bracket with `level` equal signs. -/
def bracketed (level : Nat) (s : Text) : Text × Text :=
  let inner := longBracket level (s.drop (level + 2))
  (s.take (level + 2) ++ inner.1, inner.2)

/-- The rest of a comment after its two dashes: a long bracket, or all up to the end of the line. -/
def comment (s : Text) : Text × Text :=
  match longBracketLevel s with
  | some level => bracketed level s
  | none => (s.takeWhile (· != '\n'), s.dropWhile (· != '\n'))

/-- One piece of a script. -/
def piece : Text → Text × Text
  | [] => ([], [])
  | '-' :: '-' :: rest => let c := comment rest; ('-' :: '-' :: c.1, c.2)
  | c :: rest =>
    if c = '"' ∨ c = '\'' then
      let s := shortString c rest
      (c :: s.1, s.2)
    else
      match longBracketLevel (c :: rest) with
      | some level => bracketed level (c :: rest)
      | none => ([c], rest)

theorem shortString_append (quote : Char) (s : Text) :
    (shortString quote s).1 ++ (shortString quote s).2 = s := by
  fun_induction shortString quote s <;> simp_all +zetaDelta

theorem longBracket_append (level : Nat) (s : Text) :
    (longBracket level s).1 ++ (longBracket level s).2 = s := by
  fun_induction longBracket level s <;> simp_all +zetaDelta

theorem bracketed_append (level : Nat) (s : Text) :
    (bracketed level s).1 ++ (bracketed level s).2 = s := by
  simp only [bracketed, List.append_assoc, longBracket_append, List.take_append_drop]

theorem comment_append (s : Text) : (comment s).1 ++ (comment s).2 = s := by
  unfold comment
  split
  · exact bracketed_append _ s
  · exact List.takeWhile_append_dropWhile

/-- **A piece and what follows it are the text.** -/
theorem piece_append (s : Text) : (piece s).1 ++ (piece s).2 = s := by
  unfold piece
  split
  · rfl
  · simp [comment_append]
  · split
    · simp [shortString_append]
    · split
      · exact bracketed_append _ _
      · rfl

/-- A piece takes something where something is left. -/
theorem piece_fst_ne_nil {s : Text} (h : s ≠ []) : (piece s).1 ≠ [] := by
  unfold piece
  split
  · exact absurd rfl h
  · simp
  · split
    · simp
    · split
      · simp [bracketed]
      · simp

/-- Where something is left, less is left after a piece. -/
theorem length_piece_lt {s : Text} (h : s ≠ []) : (piece s).2.length < s.length := by
  have h1 := congrArg List.length (piece_append s)
  have h2 := List.length_pos_iff.2 (piece_fst_ne_nil h)
  simp only [List.length_append] at h1
  omega

/--
The body of a script and what follows it, beginning with the `}` that closes it, when `depth` more
braces are open. There is no answer when nothing closes the body.
-/
def body (depth : Nat) (s : Text) : Option (Text × Text) :=
  match s with
  | [] => none
  | c :: rest =>
    if c = '{' then
      (body (depth + 1) rest).map fun (b, after) => (c :: b, after)
    else if c = '}' then
      match depth with
      | 0 => some ([], c :: rest)
      | depth + 1 => (body depth rest).map fun (b, after) => (c :: b, after)
    else
      (body depth (piece (c :: rest)).2).map fun (b, after) => ((piece (c :: rest)).1 ++ b, after)
termination_by s.length
decreasing_by
  · simp
  · simp
  · exact length_piece_lt (by simp)

/-- **A body and what follows it are the text.** -/
theorem body_append {depth : Nat} {s a b : Text} (h : body depth s = some (a, b)) : a ++ b = s := by
  fun_induction body depth s generalizing a with
  | case1 => cases h
  | case2 depth rest ih =>
    simp only [Option.map_eq_some_iff, Prod.mk.injEq, Prod.exists] at h
    obtain ⟨x, y, hxy, rfl, rfl⟩ := h
    simp [ih hxy]
  | case3 => simp at h; simp [← h.1, ← h.2]
  | case4 rest _ depth ih =>
    simp only [Option.map_eq_some_iff, Prod.mk.injEq, Prod.exists] at h
    obtain ⟨x, y, hxy, rfl, rfl⟩ := h
    simp [ih hxy]
  | case5 depth c rest _ _ ih =>
    simp only [Option.map_eq_some_iff, Prod.mk.injEq, Prod.exists] at h
    obtain ⟨x, y, hxy, rfl, rfl⟩ := h
    rw [List.append_assoc, ih hxy, piece_append]

/-- What follows a body begins with the `}` that closes it. -/
theorem body_snd {depth : Nat} {s a b : Text} (h : body depth s = some (a, b)) :
    b.head? = some '}' := by
  fun_induction body depth s generalizing a with
  | case1 => cases h
  | case2 depth rest ih =>
    simp only [Option.map_eq_some_iff, Prod.mk.injEq, Prod.exists] at h
    obtain ⟨x, y, hxy, rfl, rfl⟩ := h
    exact ih hxy
  | case3 => simp at h; simp [← h.2]
  | case4 rest _ depth ih =>
    simp only [Option.map_eq_some_iff, Prod.mk.injEq, Prod.exists] at h
    obtain ⟨x, y, hxy, rfl, rfl⟩ := h
    exact ih hxy
  | case5 depth c rest _ _ ih =>
    simp only [Option.map_eq_some_iff, Prod.mk.injEq, Prod.exists] at h
    obtain ⟨x, y, hxy, rfl, rfl⟩ := h
    exact ih hxy

end NginxConf.Lua
