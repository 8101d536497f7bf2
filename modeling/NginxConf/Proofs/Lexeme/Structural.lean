import NginxConf.Proofs.Lexeme.Words

/-!
# Structural characters

A `;`, a `{` or a `}` ends a statement or opens or closes a block, unless something hides it. What
hides one is an escape pair of a word, the braces of a variable in a word (`HiddenIn`), a string, a
comment, a script, or what is malformed. Nothing else does: each structural character of a text that
is not hidden is a token of its own (`StandsIn`, `lexStep_standsIn`).

Words and strings end where they must, so neither of them takes more than that or less
(`keepsStructure_lex`).
-/

namespace NginxConf

variable {mode : Mode} {s : Text} {step : LexStep} {c : Char} {kind : TokenKind}

/-- The token that a structural character is, where it stands for itself. -/
def structuralKind? (c : Char) : Option TokenKind :=
  if c = ';' then some .semicolon
  else if c = '{' then some .leftBrace
  else if c = '}' then some .rightBrace
  else none

theorem structuralKind?_cases (h : structuralKind? c = some kind) :
    (c = ';' ∧ kind = .semicolon) ∨ (c = '{' ∧ kind = .leftBrace) ∨
      (c = '}' ∧ kind = .rightBrace) := by
  unfold structuralKind? at h
  split at h
  · next hc => exact .inl ⟨hc, (Option.some.inj h).symm⟩
  · split at h
    · next hc => exact .inr (.inl ⟨hc, (Option.some.inj h).symm⟩)
    · split at h
      · next hc => exact .inr (.inr ⟨hc, (Option.some.inj h).symm⟩)
      · cases h

/-- A structural character ends words, and is no blank. -/
theorem endsWord_of_structuralKind? (h : structuralKind? c = some kind) :
    endsWord c = true ∧ isBlank c = false := by
  rcases structuralKind?_cases h with ⟨rfl, -⟩ | ⟨rfl, -⟩ | ⟨rfl, -⟩ <;> decide

/-- A structural character is read as its own token. -/
theorem punctuation?_of_structuralKind? (mode : Mode) (h : structuralKind? c = some kind) :
    punctuation? mode c = some kind := by
  rcases structuralKind?_cases h with ⟨rfl, rfl⟩ | ⟨rfl, rfl⟩ | ⟨rfl, rfl⟩ <;> rfl

/-! ## In words -/

/-- A character of a unit that does not stand for itself, between the parts of the unit before it
and behind it. -/
inductive HiddenIn : Text → Char → Text → Prop
  | escaped (c : Char) : HiddenIn ['\\'] c []
  | opening (rest : Text) : HiddenIn ['$'] '{' rest
  | closing (name : Text) : HiddenIn ('$' :: '{' :: name) '}' []

/-- A structural character of a run is its `{`, or stands behind it. -/
theorem cases_of_run {x y body : Text} (hu : x ++ c :: y = '$' :: '{' :: body)
    (hc : structuralKind? c = some kind) :
    (x = ['$'] ∧ c = '{') ∨ ∃ x', x = '$' :: '{' :: x' ∧ x' ++ c :: y = body := by
  match x, hu with
  | [], hu =>
    rw [(List.cons.inj hu).1] at hc
    cases hc
  | [d], hu =>
    obtain ⟨rfl, htail⟩ := List.cons.inj hu
    exact .inl ⟨rfl, (List.cons.inj htail).1⟩
  | d :: e :: x', hu =>
    obtain ⟨rfl, htail⟩ := List.cons.inj hu
    obtain ⟨rfl, hbody⟩ := List.cons.inj htail
    exact .inr ⟨x', rfl, hbody⟩

/-- **Where a unit has a structural character, it hides it.** -/
theorem WordUnit.hiddenIn {x y rest : Text} (h : WordUnit (x ++ c :: y) rest)
    (hc : structuralKind? c = some kind) : HiddenIn x c y := by
  have hends := (endsWord_of_structuralKind? hc).1
  -- a name has no such character
  have hname : ∀ {name : Text}, (∀ d ∈ name, endsWord d = false) → c ∉ name := by
    intro name hname hmem
    rw [hname c hmem] at hends
    cases hends
  generalize hu : x ++ c :: y = u at h
  cases h with
  | escape d rest =>
    match x, hu with
    | [], hu =>
      rw [(List.cons.inj hu).1] at hc
      cases hc
    | [a], hu =>
      obtain ⟨rfl, htail⟩ := List.cons.inj hu
      obtain ⟨rfl, rfl⟩ := List.cons.inj htail
      exact .escaped c
    | a :: b :: x, hu => simp at hu
  | lastBackslash =>
    match x, hu with
    | [], hu =>
      rw [(List.cons.inj hu).1] at hc
      cases hc
    | a :: x, hu => simp at hu
  | closedRun hrun rest =>
    rcases cases_of_run hu hc with ⟨rfl, rfl⟩ | ⟨x', rfl, hbody⟩
    · exact .opening y
    · rcases List.eq_nil_or_concat y with rfl | ⟨y, d, rfl⟩
      · obtain ⟨rfl, hlast⟩ := List.append_inj' hbody rfl
        obtain rfl := (List.cons.inj hlast).1
        exact .closing x'
      · rw [List.concat_eq_append, ← List.cons_append, ← List.append_assoc] at hbody
        exact absurd (by rw [← (List.append_inj' hbody rfl).1]; simp) (hname hrun)
  | openRun hrun hrest =>
    rcases cases_of_run hu hc with ⟨rfl, rfl⟩ | ⟨x', rfl, rfl⟩
    · exact .opening y
    · exact absurd (by simp) (hname hrun)
  | single hd hescape hrun =>
    match x, hu with
    | [], hu =>
      rw [(List.cons.inj hu).1, hd] at hends
      cases hends
    | a :: x, hu => simp at hu

/-- An element of some lists, written one after the other, is an element of one of them. -/
theorem exists_of_flatMap_eq {α β : Type} {f : α → List β} {xs : List α} {a b : List β} {c : β}
    (h : xs.flatMap f = a ++ c :: b) :
    ∃ before x after front back, xs = before ++ x :: after ∧ f x = front ++ c :: back ∧
      a = before.flatMap f ++ front ∧ b = back ++ after.flatMap f := by
  induction xs generalizing a with
  | nil => simp at h
  | cons x xs ih =>
    rw [List.flatMap_cons] at h
    rcases List.append_eq_append_iff.1 h with ⟨z, ha, hz⟩ | ⟨z, hx, hz⟩
    · obtain ⟨before, x', after, front, back, rfl, hx', rfl, hb⟩ := ih hz
      exact ⟨x :: before, x', after, front, back, rfl, hx', by rw [ha]; simp, hb⟩
    · cases z with
      | nil =>
        obtain ⟨before, x', after, front, back, rfl, hx', hfront, hb⟩ := ih (a := []) hz.symm
        obtain ⟨hbefore, rfl⟩ := List.append_eq_nil_iff.1 hfront.symm
        exact ⟨x :: before, x', after, [], back, rfl, hx', by simp [hx, hbefore], hb⟩
      | cons d z =>
        obtain ⟨rfl, rfl⟩ := List.cons.inj hz
        exact ⟨[], x, xs, a, z, rfl, hx, by simp, rfl⟩

/-- A unit among others, before all that follows it. -/
theorem WordUnits.unit {us us' : List Text} {u rest : Text} (h : WordUnits (us ++ u :: us') rest) :
    WordUnit u (us'.flatten ++ rest) := by
  induction us with
  | nil =>
    cases h with
    | cons hunit hmore => exact hunit
  | cons v us ih =>
    cases h with
    | cons hunit hmore => exact ih hmore

/-! ## In strings -/

/-- What stands between the quotes of a string: escape pairs, and characters that are neither a
backslash nor the quote. -/
inductive QuotedBody (quote : Char) : Text → Prop
  | nil : QuotedBody quote []
  | escape (c : Char) {s : Text} (hs : QuotedBody quote s) : QuotedBody quote ('\\' :: c :: s)
  | char {c : Char} {s : Text} (hescape : c ≠ '\\') (hquote : c ≠ quote) (hs : QuotedBody quote s) :
      QuotedBody quote (c :: s)

/-- **A string ends at the first quote that is not escaped.** -/
theorem exists_quotedBody {quote : Char} {a b : Text} (h : scanQuoted quote s = some (a, b)) :
    ∃ body, QuotedBody quote body ∧ a = body ++ [quote] := by
  fun_induction scanQuoted quote s generalizing a with
  | case1 => cases h
  | case2 => cases h
  | case3 c rest ih =>
    simp only [Option.map_eq_some_iff, Prod.mk.injEq, Prod.exists] at h
    obtain ⟨x, y, hxy, rfl, rfl⟩ := h
    obtain ⟨body, hbody, rfl⟩ := ih hxy
    exact ⟨'\\' :: c :: body, .escape c hbody, rfl⟩
  | case4 =>
    cases h
    exact ⟨[], .nil, rfl⟩
  | case5 c rest hend hescape hquote ih =>
    simp only [Option.map_eq_some_iff, Prod.mk.injEq, Prod.exists] at h
    obtain ⟨x, y, hxy, rfl, rfl⟩ := h
    obtain ⟨body, hbody, rfl⟩ := ih hxy
    exact ⟨c :: body, .char (ne_backslash hend hescape) hquote hbody, rfl⟩

/-! ## In lexemes -/

/-- Where a structural character can stand in a lexeme, between the parts of the lexeme before it
and behind it, if such a text follows the lexeme. -/
inductive StandsIn (l : Lexeme) (behind : Text) : Text → Char → Text → Prop
  | itself {c : Char} {kind : TokenKind} (hc : structuralKind? c = some kind)
      (hl : l = .token kind [c]) : StandsIn l behind [] c []
  | opaquely (x : Text) (c : Char) (y : Text)
      (hkind : l.kind ∈ [.token .string, .trivia .comment, .token .luaCode, .token .malformed]) :
      StandsIn l behind x c y
  | inUnit {x y : Text} {c : Char} {kind : TokenKind} {us us' : List Text}
      (hkind : l.kind = .token kind) (hword : kind.isWordlike = true)
      (hunits : WordUnits (us ++ (x ++ c :: y) :: us') behind) (hhidden : HiddenIn x c y) :
      StandsIn l behind (us.flatten ++ x) c (y ++ us'.flatten)

/-- In a word, each structural character is hidden by a unit. -/
theorem standsIn_of_word {l : Lexeme} {behind x y : Text} {k : TokenKind} {us : List Text}
    (hkind : l.kind = .token k) (hword : k.isWordlike = true) (hunits : WordUnits us behind)
    (htext : us.flatten = x ++ c :: y) (hc : structuralKind? c = some kind) :
    StandsIn l behind x c y := by
  rw [← List.flatMap_id] at htext
  obtain ⟨before, u, after, front, back, rfl, hu, rfl, rfl⟩ := exists_of_flatMap_eq htext
  rw [List.flatMap_id, List.flatMap_id]
  rw [show u = front ++ c :: back from hu] at hunits
  exact .inUnit hkind hword hunits (hunits.unit.hiddenIn hc)

theorem LexStep.significant_standsIn {x y rest : Text} {ch : Char}
    (hword : ∀ k, (significant mode ch rest).lexeme.kind = .token k → k.isWordlike = false)
    (htext : (significant mode ch rest).lexeme.text = x ++ c :: y)
    (hc : structuralKind? c = some kind) :
    StandsIn (significant mode ch rest).lexeme (significant mode ch rest).rest x c y := by
  unfold significant at hword htext ⊢
  by_cases hquote : ch = '"' ∨ ch = '\''
  · rw [if_pos hquote] at htext ⊢
    split
    · exact .opaquely _ _ _ (by simp [ofLexeme, Lexeme.token])
    · exact .opaquely _ _ _ (by simp [ofLexeme, Lexeme.malformed])
  · rw [if_neg hquote] at hword htext ⊢
    cases hpunct : punctuation? mode ch with
    | some mark =>
      rw [hpunct] at htext
      cases x with
      | nil =>
        obtain ⟨rfl, rfl⟩ := List.cons.inj htext
        rw [punctuation?_of_structuralKind? mode hc] at hpunct
        cases hpunct
        exact .itself hc rfl
      | cons d x => simp [ofLexeme, Lexeme.token] at htext
    | none =>
      rw [hpunct] at hword
      have := hword _ rfl
      rw [isWordlike_classifyWord] at this
      cases this

/-- Trivia but a comment is blank. -/
theorem LexStep.plain_standsIn {x y rest : Text} {ch : Char}
    (hword : ∀ k, (plain mode ch rest).lexeme.kind = .token k → k.isWordlike = false)
    (htext : (plain mode ch rest).lexeme.text = x ++ c :: y) (hc : structuralKind? c = some kind) :
    StandsIn (plain mode ch rest).lexeme (plain mode ch rest).rest x c y := by
  have hnot : ∀ {t : Text}, (∀ d ∈ t, isBlank d = true) → t ≠ x ++ c :: y := by
    rintro t ht rfl
    have hblank := (endsWord_of_structuralKind? hc).2
    rw [ht c (by simp)] at hblank
    cases hblank
  unfold plain at hword htext ⊢
  split at hword
  · next hfeed =>
    rw [if_pos hfeed, hfeed] at htext
    exact absurd htext (hnot (List.forall_mem_singleton.2 (by decide)))
  next hfeed =>
  rw [if_neg hfeed] at htext ⊢
  split at hword
  · next hreturn =>
    rw [if_pos hreturn, hreturn.1] at htext
    exact absurd htext (hnot (List.forall_mem_cons.2
      ⟨by decide, List.forall_mem_singleton.2 (by decide)⟩))
  next hreturn =>
  rw [if_neg hreturn] at htext ⊢
  split at hword
  · next hblank =>
    rw [if_pos hblank] at htext
    refine absurd htext (hnot fun d hd => ?_)
    rcases List.mem_cons.1 hd with rfl | hd
    · exact hblank
    · have hinline := List.all_eq_true.1 List.all_takeWhile d hd
      rw [isInlineBlank, Bool.and_eq_true] at hinline
      exact hinline.1
  next hblank =>
  rw [if_neg hblank] at htext ⊢
  split at hword
  · next hcomment =>
    rw [if_pos hcomment]
    exact .opaquely _ _ _ (by simp [ofLexeme, Lexeme.trivia])
  next hcomment =>
  rw [if_neg hcomment] at htext ⊢
  exact significant_standsIn hword htext hc

/-- **A structural character stands for itself, or something hides it.** -/
theorem lexStep_standsIn {x y : Text} (h : lexStep mode s = some step)
    (htext : step.lexeme.text = x ++ c :: y) (hc : structuralKind? c = some kind) :
    StandsIn step.lexeme step.rest x c y := by
  by_cases hword : ∃ k, step.lexeme.kind = .token k ∧ k.isWordlike = true
  · obtain ⟨k, hkind, hword⟩ := hword
    obtain ⟨d, rest, hs, hd, -, hstep⟩ := lexStep_word h hkind hword
    have hunits := wordUnits_scanUnits mode.depth? s ⟨d, rest, hs, hd⟩
    have hflatten : ((scanUnits mode.depth? s).map Prod.snd).flatten = x ++ c :: y := by
      rw [flatten_scanUnits, ← htext, hstep]
      rfl
    rw [hstep] at hkind ⊢
    exact standsIn_of_word hkind hword hunits hflatten hc
  have hplain : ∀ {m}, lexPlain m s = some step → StandsIn step.lexeme step.rest x c y := by
    intro m hm
    cases s with
    | nil => cases hm
    | cons ch rest =>
      cases hm
      exact LexStep.plain_standsIn
        (fun k hkind => Bool.eq_false_iff.2 fun hk => hword ⟨k, hkind, hk⟩) htext hc
  unfold lexStep at h
  split at h
  · split at h
    · cases h
      exact .opaquely _ _ _ (by simp [LexStep.ofLexeme, Lexeme.malformed])
    · exact hplain h
    · cases h
      exact .opaquely _ _ _ (by simp [LexStep.ofLexeme, Lexeme.token])
  · exact hplain h

/-! ## In texts -/

/-- Nothing that a text means by its structural characters gets lost in these lexemes. -/
structure KeepsStructure (s : Text) (ls : List Lexeme) : Prop where
  /-- A word is units, and ends at the end of the text, before a character that ends words, or
  before the `)` that closes its condition. -/
  word : ∀ before l after kind, ls = before ++ l :: after → l.kind = .token kind →
    kind.isWordlike = true →
    (∃ us, us ≠ [] ∧ us.flatten = l.text ∧ WordUnits us (after.flatMap Lexeme.text)) ∧
    (after = [] ∨ (∃ c ∈ (after.flatMap Lexeme.text).head?, endsWord c = true) ∨
      after.head? = some (.token .rightParen [')']))
  /-- A string ends at the first quote of its kind that is not escaped. -/
  string : ∀ l ∈ ls, l.kind = .token .string → ∃ quote body, (quote = '"' ∨ quote = '\'') ∧
    QuotedBody quote body ∧ l.text = quote :: (body ++ [quote])
  /-- Each structural character is a token of its own, or something hides it. -/
  structural : ∀ a c b kind, s = a ++ c :: b → structuralKind? c = some kind →
    ∃ before l after x y, ls = before ++ l :: after ∧ l.text = x ++ c :: y ∧
      a = before.flatMap Lexeme.text ++ x ∧ b = y ++ after.flatMap Lexeme.text ∧
      StandsIn l (after.flatMap Lexeme.text) x c y

/-- Parentheses are counted in conditions only. -/
theorem foldl_countParens_none (us : List Text) : us.foldl countParens none = none := by
  induction us with
  | nil => rfl
  | cons u us ih => exact ih

/-- Where a word ends because a condition does, the `)` that closes the condition comes next. -/
theorem head?_lexFrom_of_word {rest : Text} (hword : kind.isWordlike = true)
    (hdepth : (scanWord mode.depth? s).depth = some 0) :
    (lexFrom ((mode.withDepth (scanWord mode.depth? s).depth).afterToken kind) (')' :: rest)).head?
      = some (.token .rightParen [')']) := by
  have hmode : (mode.withDepth (scanWord mode.depth? s).depth).afterToken kind = .condition 0 := by
    cases mode with
    | condition depth =>
      rw [hdepth]
      cases kind <;> first | rfl | cases hword
    | _ =>
      have hnone := depth_scanWord none s
      rw [foldl_countParens_none] at hnone
      cases hnone.symm.trans hdepth
  have hstep : lexStep (.condition 0) (')' :: rest)
      = some ⟨.token .rightParen [')'], .normal, rest⟩ := rfl
  rw [hmode, lexFrom_of_some hstep]
  rfl

/-- **A word is units and goes on as far as it can.** -/
theorem lexStep_word_ends (h : lexStep mode s = some step) (hkind : step.lexeme.kind = .token kind)
    (hword : kind.isWordlike = true) :
    (∃ us, us ≠ [] ∧ us.flatten = step.lexeme.text ∧ WordUnits us step.rest) ∧
      (lexFrom step.mode step.rest = [] ∨ (∃ c ∈ step.rest.head?, endsWord c = true) ∨
        (lexFrom step.mode step.rest).head? = some (.token .rightParen [')'])) := by
  obtain ⟨c, rest, hs, hc, -, rfl⟩ := lexStep_word h hkind hword
  refine ⟨⟨(scanUnits mode.depth? s).map Prod.snd, ?_, flatten_scanUnits _ s,
    wordUnits_scanUnits mode.depth? s ⟨c, rest, hs, hc⟩⟩, ?_⟩
  · rw [scanUnits]
    exact List.cons_ne_nil _ _
  have hstop := stopsWord_scanWord mode.depth? s
  simp only [LexStep.ofLexeme]
  cases hrest : (scanWord mode.depth? s).rest with
  | nil =>
    refine .inl (lexFrom_nil fun hbody => ?_)
    rw [Mode.eq_leftBrace_of_after hbody] at hword
    cases hword
  | cons d more =>
    rw [hrest, stopsWord, Bool.or_eq_true, Bool.and_eq_true, beq_iff_eq, beq_iff_eq] at hstop
    rcases hstop with hd | ⟨rfl, hdepth⟩
    · exact .inr (.inl ⟨d, rfl, hd⟩)
    · exact .inr (.inr (head?_lexFrom_of_word hword hdepth))

/-- **A string is quoted by what it begins with.** -/
theorem lexStep_string (h : lexStep mode s = some step)
    (hkind : step.lexeme.kind = .token .string) :
    ∃ quote body, (quote = '"' ∨ quote = '\'') ∧ QuotedBody quote body ∧
      step.lexeme.text = quote :: (body ++ [quote]) := by
  obtain ⟨c, rest, rfl, hread⟩ := exists_readsToken h (ne_luaBody_of_kind h hkind (by decide)) hkind
  generalize hstring : TokenKind.string = kind at hread
  cases hread with
  | string hquote hscan =>
    obtain ⟨body, hbody, rfl⟩ := exists_quotedBody hscan
    exact ⟨c, body, hquote, hbody, rfl⟩
  | malformed => cases hstring
  | punctuation hpunct =>
    subst hstring
    unfold punctuation? at hpunct
    repeat' split at hpunct
    all_goals cases hpunct
  | word hword =>
    subst hstring
    cases hword

/--
**No structural character is swallowed or split.** Words are made of units and strings of what is
between their quotes, and neither of them ends too early or too late. A `;`, a `{` or a `}` that is
not escaped, not a brace of a variable, and not in a string, a comment, a script or a malformed
token is a token of its own.
-/
theorem keepsStructure_lex (s : Text) : KeepsStructure s (lex s) := by
  constructor
  · intro before l after kind hls hkind hword
    obtain ⟨mode, t, step, -, hstep, rfl, rfl⟩ := exists_step_of_lexFrom hls
    rw [flatMap_text_lexFrom]
    exact lexStep_word_ends hstep hkind hword
  · intro l hl hkind
    obtain ⟨before, after, hls⟩ := List.append_of_mem hl
    obtain ⟨mode, t, step, -, hstep, rfl, -⟩ := exists_step_of_lexFrom hls
    exact lexStep_string hstep hkind
  · intro a c b kind hs hc
    have htext : (lex s).flatMap Lexeme.text = a ++ c :: b := by
      rw [← hs]
      exact flatMap_text_lexFrom .normal s
    obtain ⟨before, l, after, x, y, hls, hl, ha, hb⟩ := exists_of_flatMap_eq htext
    refine ⟨before, l, after, x, y, hls, hl, ha, hb, ?_⟩
    obtain ⟨mode, t, step, -, hstep, rfl, rfl⟩ := exists_step_of_lexFrom hls
    rw [flatMap_text_lexFrom]
    exact lexStep_standsIn hstep hl hc

end NginxConf
