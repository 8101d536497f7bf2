import NginxConf.Text.Blank

/-!
# Words

A word is a run of *units*: an escape pair, a braced variable such as `${name}`, or any other
single character. A word ends before a blank, `;`, `{` or `}` that is not part of such a unit.
Inside the parentheses of a condition it also ends before the `)` that closes the condition; for
that the scan counts the parentheses that it meets.

## Termination

`scanWord` goes on only where something is left, and there a unit takes at least one character.
-/

namespace NginxConf

/-- The characters that end a word wherever they stand on their own. -/
def endsWord (c : Char) : Bool := isBlank c || c == ';' || c == '{' || c == '}'

/--
Cuts the first unit of a word off a text: an escape pair (or a backslash that ends the text), a
`${` run with its `}` if one comes next, or a single character.
-/
def takeUnit : Text → Text × Text
  | [] => ([], [])
  | '\\' :: c :: rest => (['\\', c], rest)
  | '$' :: '{' :: rest =>
    match rest.dropWhile (!endsWord ·) with
    | '}' :: after => ('$' :: '{' :: (rest.takeWhile (!endsWord ·) ++ ['}']), after)
    | after => ('$' :: '{' :: rest.takeWhile (!endsWord ·), after)
  | c :: rest => ([c], rest)

/-- **The two parts that `takeUnit` returns are the text.** -/
theorem takeUnit_append (s : Text) : (takeUnit s).1 ++ (takeUnit s).2 = s := by
  unfold takeUnit
  split
  · rfl
  · rfl
  · next rest =>
    have h := List.takeWhile_append_dropWhile (p := (!endsWord ·)) (l := rest)
    split
    · next after hd => rw [hd] at h; simp only [List.cons_append, List.append_assoc,
        List.nil_append, h]
    · simp only [List.cons_append, h]
  · rfl

/-- A unit takes something where something is left. -/
theorem takeUnit_fst_ne_nil {s : Text} (h : s ≠ []) : (takeUnit s).1 ≠ [] := by
  unfold takeUnit
  split
  · exact absurd rfl h
  · simp
  · split <;> simp
  · simp

/-- Where something is left, less is left after a unit. -/
theorem length_takeUnit_lt {s : Text} (h : s ≠ []) : (takeUnit s).2.length < s.length := by
  have h1 := congrArg List.length (takeUnit_append s)
  have h2 := List.length_pos_iff.2 (takeUnit_fst_ne_nil h)
  simp only [List.length_append] at h1
  omega

/--
The number of parentheses open after a unit. Outside a condition (`none`) nothing is counted, and
only a parenthesis that is a unit of its own counts.
-/
def countParens : Option Nat → Text → Option Nat
  | some depth, ['('] => some (depth + 1)
  | some depth, [')'] => some (depth - 1)
  | depth, _ => depth

/-- Whether a word ends here, with so many parentheses open. -/
def stopsWord (depth : Option Nat) : Text → Bool
  | [] => true
  | c :: _ => endsWord c || (c == ')' && depth == some 0)

/-- A word, the parentheses open after it, and the text that follows. -/
structure WordScan where
  word : Text
  depth : Option Nat
  rest : Text
deriving DecidableEq, Repr

/-- Reads a word whose first unit has been recognised as the start of one. -/
def scanWord (depth : Option Nat) (s : Text) : WordScan :=
  let first := takeUnit s
  let depth := countParens depth first.1
  if stopsWord depth first.2 then
    ⟨first.1, depth, first.2⟩
  else
    let more := scanWord depth first.2
    { more with word := first.1 ++ more.word }
termination_by s.length
decreasing_by
  apply length_takeUnit_lt
  rintro rfl
  simp_all [first, takeUnit, stopsWord]

/-- **A word and what follows it are the text.** -/
theorem scanWord_append (depth : Option Nat) (s : Text) :
    (scanWord depth s).word ++ (scanWord depth s).rest = s := by
  fun_induction scanWord depth s with
  | case1 depth s first d h => exact takeUnit_append s
  | case2 depth s first d h more ih =>
    rw [List.append_assoc, ih]
    exact takeUnit_append s

/-- A word takes something where something is left. -/
theorem scanWord_word_ne_nil (depth : Option Nat) {s : Text} (h : s ≠ []) :
    (scanWord depth s).word ≠ [] := by
  rw [scanWord]
  split
  · exact takeUnit_fst_ne_nil h
  · simp [takeUnit_fst_ne_nil h]

/--
Reads the rest of a string up to and with the closing quote. A backslash takes the next character
with it. There is no answer when the text ends first.
-/
def scanQuoted (quote : Char) : Text → Option (Text × Text)
  | [] => none
  | ['\\'] => none
  | '\\' :: c :: rest => (scanQuoted quote rest).map fun (s, after) => ('\\' :: c :: s, after)
  | c :: rest =>
    if c = quote then some ([c], rest)
    else (scanQuoted quote rest).map fun (s, after) => (c :: s, after)

/-- **A string and what follows it are the text.** -/
theorem scanQuoted_append {quote : Char} {s a b : Text} (h : scanQuoted quote s = some (a, b)) :
    a ++ b = s := by
  fun_induction scanQuoted quote s generalizing a with
  | case1 => cases h
  | case2 => cases h
  | case3 c rest ih =>
    simp only [Option.map_eq_some_iff, Prod.mk.injEq, Prod.exists] at h
    obtain ⟨x, y, hxy, rfl, rfl⟩ := h
    simp [ih hxy]
  | case4 c => simp at h; simp [← h.1, ← h.2]
  | case5 c rest _ _ _ ih =>
    simp only [Option.map_eq_some_iff, Prod.mk.injEq, Prod.exists] at h
    obtain ⟨x, y, hxy, rfl, rfl⟩ := h
    simp [ih hxy]

/-! ## What a word is -/

/-- The operators of conditions. -/
def operators : List Text :=
  [['='], ['!', '='], ['~'], ['~', '*'], ['!', '~'], ['!', '~', '*'], ['-', 'f'], ['!', '-', 'f'],
   ['-', 'd'], ['!', '-', 'd'], ['-', 'e'], ['!', '-', 'e'], ['-', 'x'], ['!', '-', 'x']]

/-- The characters of a variable's name. -/
def isNameChar (c : Char) : Bool := c.isAlphanum || c == '_'

/-- A name without the braces around it, if it has both. -/
def unbrace : Text → Text
  | '{' :: name => if name.getLast? = some '}' then name.dropLast else '{' :: name
  | name => name

/-- Whether a word is exactly one variable: `$name` or `${name}`. -/
def isVariable : Text → Bool
  | '$' :: name => !(unbrace name).isEmpty && (unbrace name).all isNameChar
  | _ => false

/-- Whether a word is the keyword of a statement with an embedded script. -/
def isLuaKeyword (word : Text) : Bool := "_by_lua_block".toList.isSuffixOf word

end NginxConf
