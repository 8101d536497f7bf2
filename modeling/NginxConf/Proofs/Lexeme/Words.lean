import NginxConf.Proofs.Lexeme.Relayout

/-!
# What words are made of

A word is a row of units (`WordUnit`). What a unit is depends on what follows it: a `$` begins a
braced variable where a `{` comes next, and takes a `}` with it where one ends the name.

The lexer reads a word unit by unit. `scanUnits` keeps the units apart, each with the parentheses
that are open before it; they are the word that is read (`flatten_scanUnits`,
`wordUnits_scanUnits`), which goes on as far as it can (`stopsWord_scanWord`). Each token that is in
no script is read as a word, a string or a punctuation mark (`exists_readsToken`), so its kind tells
how it was read (`lexStep_word`, `lexStep_punctuation`).
-/

namespace NginxConf

/-- A unit of a word, and the text that follows it. -/
inductive WordUnit : Text → Text → Prop
  /-- A backslash takes the next character with it, whatever that is. -/
  | escape (c : Char) (rest : Text) : WordUnit ['\\', c] rest
  | lastBackslash : WordUnit ['\\'] []
  | closedRun {name : Text} (hname : ∀ c ∈ name, endsWord c = false) (rest : Text) :
      WordUnit ('$' :: '{' :: (name ++ ['}'])) rest
  /-- A run without its `}` goes on to another character that ends words. -/
  | openRun {name rest : Text} (hname : ∀ c ∈ name, endsWord c = false)
      (hrest : ∀ c ∈ rest.head?, endsWord c = true ∧ c ≠ '}') : WordUnit ('$' :: '{' :: name) rest
  | single {c : Char} {rest : Text} (hc : endsWord c = false) (hescape : c ≠ '\\')
      (hrun : ¬ (c = '$' ∧ rest.head? = some '{')) : WordUnit [c] rest

/-- Units one after the other, and the text that follows them. -/
inductive WordUnits : List Text → Text → Prop
  | nil {rest} : WordUnits [] rest
  | cons {u us rest} (hunit : WordUnit u (us.flatten ++ rest)) (hmore : WordUnits us rest) :
      WordUnits (u :: us) rest

/-- The kinds that a word can have. -/
def TokenKind.isWordlike : TokenKind → Bool
  | word | variableName | operator => true
  | ifKeyword | setKeyword | includeKeyword | geoKeyword | luaKeyword => true
  | _ => false

variable {depth : Option Nat} {mode : Mode} {s : Text} {step : LexStep} {kind : TokenKind}

/-! ## Units as they are read -/

/-- What does not end a word begins a unit, and the lexer cuts it off. -/
theorem wordUnit_takeUnit {c : Char} (hc : endsWord c = false) (s : Text) :
    WordUnit (takeUnit (c :: s)).1 (takeUnit (c :: s)).2 := by
  generalize hs : c :: s = t
  fun_cases takeUnit t with
  | case1 => cases hs
  | case2 d rest => exact .escape d rest
  | case3 rest after hdrop =>
    exact .closedRun (fun d hd => by simpa using List.all_eq_true.1 List.all_takeWhile d hd) after
  | case4 rest hdrop =>
    refine .openRun (fun d hd => by simpa using List.all_eq_true.1 List.all_takeWhile d hd)
      fun d hd => ⟨by simpa using Trivia.not_head?_dropWhile (p := (!endsWord ·)) rest d hd, ?_⟩
    rintro rfl
    obtain ⟨after, hafter⟩ := List.head?_eq_some_iff.1 hd
    exact hdrop after hafter
  | case5 d rest hescape hrun =>
    obtain ⟨rfl, rfl⟩ := List.cons.inj hs
    by_cases hd : c = '\\'
    · subst hd
      cases s with
      | nil => exact .lastBackslash
      | cons d s => exact (hescape d s rfl rfl).elim
    · refine .single hc hd ?_
      rintro ⟨rfl, hhead⟩
      obtain ⟨rest, hrest⟩ := List.head?_eq_some_iff.1 hhead
      exact hrun rest rfl hrest

/-- The units of a word as they are read, each with the parentheses that are open before it. -/
def scanUnits (depth : Option Nat) (s : Text) : List (Option Nat × Text) :=
  let first := takeUnit s
  let next := countParens depth first.1
  (depth, first.1) :: if stopsWord next first.2 then [] else scanUnits next first.2
termination_by s.length
decreasing_by
  apply length_takeUnit_lt
  rintro rfl
  simp_all [first, takeUnit, stopsWord]

/-- **The units that are read are the word.** -/
theorem flatten_scanUnits (depth : Option Nat) (s : Text) :
    ((scanUnits depth s).map Prod.snd).flatten = (scanWord depth s).word := by
  fun_induction scanWord depth s with
  | case1 depth s first d hstop =>
    rw [scanUnits, if_pos hstop]
    simp [first]
  | case2 depth s first d hstop more ih =>
    rw [scanUnits, if_neg hstop, List.map_cons, List.flatten_cons, ih]

/-- The parentheses open after a word are those that its units count. -/
theorem depth_scanWord (depth : Option Nat) (s : Text) :
    (scanWord depth s).depth = ((scanUnits depth s).map Prod.snd).foldl countParens depth := by
  fun_induction scanWord depth s with
  | case1 depth s first d hstop =>
    rw [scanUnits, if_pos hstop]
    rfl
  | case2 depth s first d hstop more ih =>
    rw [scanUnits, if_neg hstop, List.map_cons, List.foldl_cons]
    exact ih

/-- **A word ends only where words end.** -/
theorem stopsWord_scanWord (depth : Option Nat) (s : Text) :
    stopsWord (scanWord depth s).depth (scanWord depth s).rest = true := by
  fun_induction scanWord depth s with
  | case1 depth s first d hstop => exact hstop
  | case2 depth s first d hstop more ih => exact ih

/-- Where a word does not stop, a unit begins. -/
theorem exists_cons_of_stopsWord (h : ¬ stopsWord depth s = true) :
    ∃ c rest, s = c :: rest ∧ endsWord c = false := by
  cases s with
  | nil => exact absurd rfl h
  | cons c rest =>
    refine ⟨c, rest, rfl, ?_⟩
    rw [stopsWord, Bool.or_eq_true, not_or] at h
    simpa using h.1

/-- **What is read of a word are units.** -/
theorem wordUnits_scanUnits (depth : Option Nat) (s : Text)
    (hs : ∃ c rest, s = c :: rest ∧ endsWord c = false) :
    WordUnits ((scanUnits depth s).map Prod.snd) (scanWord depth s).rest := by
  fun_induction scanWord depth s with
  | case1 depth s first d hstop =>
    obtain ⟨c, rest, rfl, hc⟩ := hs
    rw [scanUnits, if_pos hstop]
    exact .cons (wordUnit_takeUnit hc rest) .nil
  | case2 depth s first d hstop more ih =>
    obtain ⟨c, rest, rfl, hc⟩ := hs
    rw [scanUnits, if_neg hstop]
    refine .cons ?_ (ih (exists_cons_of_stopsWord hstop))
    rw [flatten_scanUnits, scanWord_append]
    exact wordUnit_takeUnit hc rest

/-! ## Lexemes that are words -/

theorem isWordlike_classifyWord (inCondition : Bool) (word : Text) :
    (classifyWord inCondition word).isWordlike = true := by
  unfold classifyWord
  repeat' split
  all_goals rfl

/-- No word is punctuation. -/
theorem isWordlike_of_punctuation? {c : Char}
    (h : punctuation? mode c = some kind) : kind.isWordlike = false := by
  unfold punctuation? at h
  repeat' split at h
  all_goals
    cases h
    try rfl

/-- What is no punctuation mark and no blank does not end a word. -/
theorem endsWord_of_punctuation? {c : Char} (hblank : isBlank c = false)
    (h : punctuation? mode c = none) : endsWord c = false := by
  unfold punctuation? at h
  repeat' split at h
  all_goals cases h
  simp [endsWord, *]

/-- A token is read where no script begins, by the character that it begins with. -/
theorem exists_significant (h : lexStep mode s = some step) (hmode : mode ≠ .luaBody)
    (hkind : step.lexeme.kind = .token kind) :
    ∃ c rest, s = c :: rest ∧ isBlank c = false ∧ step = .significant mode c rest := by
  rw [lexStep, if_neg hmode] at h
  cases s with
  | nil => cases h
  | cons c rest =>
    cases h
    obtain ⟨hblank, hcomment⟩ := LexStep.significant_of_kind hkind
    exact ⟨c, rest, rfl, hblank, LexStep.plain_eq_significant hblank hcomment mode rest⟩

/-- Where a script begins, no other tokens are read than its code, its end, or what is malformed. -/
theorem ne_luaBody_of_kind (h : lexStep mode s = some step) (hkind : step.lexeme.kind = .token kind)
    (hscript : kind ∉ [.malformed, .rightBrace, .luaCode]) : mode ≠ .luaBody := by
  rintro rfl
  have hmem := kind_of_luaBody h
  rw [hkind] at hmem
  simp only [List.mem_cons, List.not_mem_nil, or_false, LeafKind.token.injEq] at hmem
  simp only [List.mem_cons, List.not_mem_nil, or_false] at hscript
  exact hscript hmem

/-- How a token of some kind is read, where a text goes on with a character that is no trivia. -/
inductive ReadsToken (mode : Mode) (c : Char) (rest : Text) : TokenKind → LexStep → Prop
  | string {quoted after : Text} (hquote : c = '"' ∨ c = '\'')
      (hscan : scanQuoted c rest = some (quoted, after)) :
      ReadsToken mode c rest .string (.ofLexeme mode (.token .string (c :: quoted)) after)
  | malformed (hquote : c = '"' ∨ c = '\'') (hscan : scanQuoted c rest = none) :
      ReadsToken mode c rest .malformed
        (.ofLexeme mode (.malformed .unterminatedString (c :: rest)) [])
  | punctuation {kind : TokenKind} (hkind : punctuation? mode c = some kind) :
      ReadsToken mode c rest kind (.ofLexeme mode (.token kind [c]) rest)
  | word {kind : TokenKind} (hkind : kind.isWordlike = true) (hpunct : punctuation? mode c = none)
      (hc : endsWord c = false) :
      ReadsToken mode c rest kind
        (.ofLexeme (mode.withDepth (scanWord mode.depth? (c :: rest)).depth)
          (.token kind (scanWord mode.depth? (c :: rest)).word)
          (scanWord mode.depth? (c :: rest)).rest)

/-- **Each token that stands in no script is read in one of these ways.** -/
theorem exists_readsToken (h : lexStep mode s = some step) (hmode : mode ≠ .luaBody)
    (hkind : step.lexeme.kind = .token kind) :
    ∃ c rest, s = c :: rest ∧ ReadsToken mode c rest kind step := by
  obtain ⟨c, rest, rfl, hblank, rfl⟩ := exists_significant h hmode hkind
  refine ⟨c, rest, rfl, ?_⟩
  unfold LexStep.significant at hkind ⊢
  by_cases hquote : c = '"' ∨ c = '\''
  · rw [if_pos hquote] at hkind ⊢
    cases hscan : scanQuoted c rest with
    | none =>
      rw [hscan] at hkind
      cases hkind
      exact .malformed hquote hscan
    | some cut =>
      rw [hscan] at hkind
      cases hkind
      exact .string hquote hscan
  · rw [if_neg hquote] at hkind ⊢
    cases hpunct : punctuation? mode c with
    | some mark =>
      rw [hpunct] at hkind
      cases hkind
      exact .punctuation hpunct
    | none =>
      rw [hpunct] at hkind
      cases hkind
      exact .word (isWordlike_classifyWord _ _) hpunct (endsWord_of_punctuation? hblank hpunct)

/-- **A lexeme of the kind of a word is one that was read as a word.** -/
theorem lexStep_word (h : lexStep mode s = some step) (hkind : step.lexeme.kind = .token kind)
    (hword : kind.isWordlike = true) :
    ∃ c rest, s = c :: rest ∧ endsWord c = false ∧ punctuation? mode c = none ∧
      step = .ofLexeme (mode.withDepth (scanWord mode.depth? s).depth)
        (.token kind (scanWord mode.depth? s).word) (scanWord mode.depth? s).rest := by
  have hmode := ne_luaBody_of_kind h hkind fun hscript => by
    simp only [List.mem_cons, List.not_mem_nil, or_false] at hscript
    rcases hscript with rfl | rfl | rfl <;> cases hword
  obtain ⟨c, rest, rfl, hread⟩ := exists_readsToken h hmode hkind
  cases hread with
  | string | malformed => cases hword
  | punctuation hpunct =>
    rw [isWordlike_of_punctuation? hpunct] at hword
    cases hword
  | word _ hpunct hc => exact ⟨c, rest, rfl, hc, hpunct, rfl⟩

/-- Other tokens are read as punctuation, where no script or string is. -/
theorem lexStep_punctuation (h : lexStep mode s = some step)
    (hkind : step.lexeme.kind = .token kind) (hword : kind.isWordlike = false)
    (hother : kind ∉ [.malformed, .rightBrace, .luaCode, .string]) :
    ∃ c rest, s = c :: rest ∧ punctuation? mode c = some kind ∧
      step = .ofLexeme mode (.token kind [c]) rest := by
  have hmode := ne_luaBody_of_kind h hkind fun hscript => hother (List.mem_append_left [_] hscript)
  obtain ⟨c, rest, rfl, hread⟩ := exists_readsToken h hmode hkind
  cases hread with
  | string | malformed => simp at hother
  | punctuation hpunct => exact ⟨c, rest, rfl, hpunct, rfl⟩
  | word hread =>
    rw [hword] at hread
    cases hread

end NginxConf
