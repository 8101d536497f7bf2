import NginxConf.Lexeme.Scanner
import NginxConf.Proofs.Lexeme.LuaBytes
import NginxConf.Proofs.Lexeme.Restart

/-!
# The scanner never halts

What a scanner has read so far, what belongs to the piece under way, and what the cursor has ahead
are the text (`Scanner.Within`). From this follow the ranges and slices that it computes, and, read
by read, that it finds what `lexStep` says (`Scanner.next_of_some`). A whole scan therefore gives
the lexemes of the text at their places (`scanFrom_eq`), and these tile it
(`scanFrom_partitions`).

The parentheses counted in a condition are never more than the bytes that were read.
-/

namespace NginxConf

variable {m m' : Scanner} {before piece : Text} {first : Char}

namespace Scanner

/-- The mode of the lexer. -/
def lexMode (m : Scanner) : Mode :=
  match m.mode with
  | .normal => .normal
  | .afterIf => .afterIf
  | .condition => .condition m.depth
  | .afterLuaKeyword => .afterLuaKeyword
  | .luaBody => .luaBody

/-- A scanner that has read a text, and after it a part of a piece. -/
structure Within (m : Scanner) (before piece : Text) : Prop where
  text : m.text = before ++ (piece ++ m.rest)
  ahead : m.ahead = Text.size (piece ++ m.rest)
  size_lt : Text.size m.text < Overflow.offsetBound
  depth_lt : m.depth + Text.size m.rest < Overflow.offsetBound

theorem lexMode_eq_luaBody (m : Scanner) : m.lexMode = .luaBody ↔ m.mode = .luaBody := by
  unfold lexMode
  cases m.mode <;> simp

/-! ## Ranges -/

theorem byteCount_eq {s : Text} (h : Text.size s < Overflow.offsetBound) :
    byteCount s = .ok (Text.size s) := by
  rw [byteCount, ScanHalt.add, Nat.zero_add, if_pos h]

theorem cut_append (a b : Text) : cut (a ++ b) (Text.size a) = .ok (a, b) := by
  rw [cut, Text.splitAt?_eq_some.2 ⟨rfl, rfl⟩]

namespace Within

theorem size_eq (h : m.Within before piece) :
    Text.size m.text = Text.size before + Text.size piece + Text.size m.rest := by
  rw [h.text, Text.size_append, Text.size_append, Nat.add_assoc]

theorem byteCount_rest (h : m.Within before piece) :
    byteCount m.rest = .ok (Text.size m.rest) :=
  byteCount_eq (by have h1 := h.size_eq; have h2 := h.size_lt; omega)

/-- **The range of a piece is computed from what is left.** -/
theorem span_eq (h : m.Within before piece) :
    m.span = .ok ⟨Text.size before, Text.size before + Text.size piece⟩ := by
  have hsize := h.size_eq
  have hahead := h.ahead
  rw [Text.size_append] at hahead
  have hoffset : m.offset = .ok (Text.size before + Text.size piece) := by
    rw [offset, byteCount_eq h.size_lt, h.byteCount_rest]
    simp only [bind, Except.bind, ScanHalt.sub]
    rw [if_pos (by omega), hsize, Nat.add_sub_cancel]
  rw [span, hoffset, h.byteCount_rest]
  simp only [bind, Except.bind, ScanHalt.sub]
  rw [if_pos (by omega)]
  simp only
  rw [if_pos (by omega)]
  simp only
  rw [if_pos (by omega)]
  congr 2
  omega

theorem pieceText_eq (h : m.Within before piece) : m.pieceText = .ok piece := by
  rw [pieceText, h.span_eq]
  simp only [bind, Except.bind]
  rw [h.text, cut_append]
  simp only
  rw [Nat.add_sub_cancel_left, cut_append]
  rfl

end Within

/-! ## Words -/

theorem depth?_getD (m : Scanner) : m.lexMode.depth?.getD m.depth = m.depth := by
  unfold lexMode
  cases m.mode <;> rfl

theorem depth?_isSome (m : Scanner) : m.lexMode.depth?.isSome = decide (m.mode = .condition) := by
  unfold lexMode
  cases m.mode <;> rfl

/-- Counting parentheses does not say whether they are counted. -/
theorem isSome_countParens (depth : Option Nat) (unit : Text) :
    (countParens depth unit).isSome = depth.isSome := by
  unfold countParens
  split <;> rfl

/-- The depth of a scanner that has counted on. -/
theorem depth?_of_counted {depth : Option Nat} {rest : Text} (h : depth.isSome = m.lexMode.depth?.isSome) :
    ({ m with rest, depth := depth.getD m.depth } : Scanner).lexMode.depth? = depth := by
  rw [depth?_isSome] at h
  unfold lexMode
  cases hmode : m.mode <;> cases depth <;> simp_all [Mode.depth?]

/-- A unit of a word that is no parenthesis changes no count. -/
theorem countParens_of_ne {unit : Text} (hopen : unit ≠ ['(']) (hclose : unit ≠ [')'])
    (depth : Option Nat) : countParens depth unit = depth := by
  unfold countParens
  split
  · exact absurd rfl hopen
  · exact absurd rfl hclose
  · rfl

/-- A unit takes more bytes than it opens parentheses. -/
theorem countParens_le (depth : Option Nat) {s : Text} (hs : s ≠ []) (n : Nat) :
    (countParens depth (takeUnit s).1).getD n + Text.size (takeUnit s).2
      ≤ depth.getD n + Text.size s := by
  have happend := congrArg Text.size (takeUnit_append s)
  have hpos := Text.size_eq_zero.not.2 (takeUnit_fst_ne_nil hs)
  rw [Text.size_append] at happend
  unfold countParens
  split
  · simp only [Option.getD_some]
    omega
  · simp only [Option.getD_some]
    omega
  · omega

/-- A character that begins neither an escape nor a braced variable is a unit of its own. -/
theorem takeUnit_single {rest : Text} (hescape : first ≠ '\\')
    (hbrace : ¬ (first = '$' ∧ rest.head? = some '{')) :
    takeUnit (first :: rest) = ([first], rest) := by
  rw [takeUnit]
  · rintro c more rfl rfl
    exact hescape rfl
  · rintro more rfl rfl
    exact hbrace ⟨rfl, rfl⟩

/-- A braced variable ends after its `}`, if it has one. -/
theorem takeUnit_braced (rest : Text) :
    (takeUnit ('$' :: '{' :: rest)).2
        = (if (rest.dropWhile (!endsWord ·)).head? = some '}'
          then (rest.dropWhile (!endsWord ·)).tail else rest.dropWhile (!endsWord ·)) ∧
      ∀ depth, countParens depth (takeUnit ('$' :: '{' :: rest)).1 = depth := by
  rw [takeUnit]
  split
  · next after hafter =>
    rw [hafter]
    exact ⟨rfl, countParens_of_ne (by simp) (by simp)⟩
  · next hafter =>
    rw [if_neg]
    · exact ⟨rfl, countParens_of_ne (by simp) (by simp)⟩
    · intro hhead
      obtain ⟨after, heq⟩ := List.head?_eq_some_iff.1 hhead
      exact hafter after heq

/-- **The cursor moves over a unit of a word.** -/
theorem readUnit_eq (h : m.depth + 1 < Overflow.offsetBound) : m.readUnit first
    = .ok { m with
        rest := (takeUnit (first :: m.rest)).2
        depth := (countParens m.lexMode.depth? (takeUnit (first :: m.rest)).1).getD m.depth } := by
  by_cases hescape : first = '\\'
  · subst hescape
    rw [readUnit, if_pos rfl]
    cases hrest : m.rest with
    | nil =>
      rw [show takeUnit ['\\'] = (['\\'], []) from rfl, countParens_of_ne (by decide) (by decide),
        depth?_getD]
      rfl
    | cons c rest =>
      rw [show takeUnit ('\\' :: c :: rest) = (['\\', c], rest) from rfl,
        countParens_of_ne (by simp) (by simp), depth?_getD]
      rfl
  by_cases hbrace : first = '$' ∧ m.rest.head? = some '{'
  · rw [readUnit, if_neg hescape, if_pos hbrace]
    obtain ⟨rfl, hhead⟩ := hbrace
    obtain ⟨rest, hrest⟩ := List.head?_eq_some_iff.1 hhead
    obtain ⟨hafter, hcount⟩ := takeUnit_braced rest
    -- a `}` ends a word as well
    have hends : (fun c => c != '}' && !endsWord c) = (!endsWord ·) := by
      funext c
      by_cases hc : c = '}'
      · subst hc
        rfl
      · rw [bne_iff_ne.2 hc, Bool.true_and]
    simp only [hrest, List.tail_cons, hends, hafter, hcount, depth?_getD]
  have hsingle := takeUnit_single hescape hbrace
  rw [readUnit, if_neg hescape, if_neg hbrace, hsingle]
  by_cases hopen : first = '(' ∧ m.mode = .condition
  · rw [if_pos hopen, ScanHalt.add, if_pos h, lexMode, hopen.1, hopen.2]
    rfl
  by_cases hclose : first = ')' ∧ m.mode = .condition
  · rw [if_neg hopen, if_pos hclose, lexMode, hclose.1, hclose.2]
    rfl
  rw [if_neg hopen, if_neg hclose]
  have hcount : countParens m.lexMode.depth? [first] = m.lexMode.depth? := by
    cases hdepth : m.lexMode.depth? with
    | none => rfl
    | some depth =>
      have hmode : m.mode = .condition := by
        have hsome := depth?_isSome m
        rw [hdepth] at hsome
        exact of_decide_eq_true hsome.symm
      exact countParens_of_ne (by simpa using fun hf => hopen ⟨hf, hmode⟩)
        (by simpa using fun hf => hclose ⟨hf, hmode⟩) _
  rw [hcount, depth?_getD]

/-- Where a word stops follows from the mode and the count. -/
theorem stopsWord_iff (m : Scanner) (c : Char) (rest : Text) :
    stopsWord m.lexMode.depth? (c :: rest) = true ↔
      endsWord c ∨ (c = ')' ∧ m.mode = .condition ∧ m.depth = 0) := by
  rw [stopsWord, Bool.or_eq_true, Bool.and_eq_true, beq_iff_eq, beq_iff_eq]
  refine or_congr_right (and_congr_right fun _ => ?_)
  unfold lexMode
  cases m.mode <;> simp [Mode.depth?]

/-- After a unit of a word, the count is the one of the unit and still fits. -/
theorem of_readUnit {next : Scanner} (h : m.depth + Text.size (first :: m.rest) < Overflow.offsetBound)
    (hread : m.readUnit first = .ok next) :
    next = { m with rest := (takeUnit (first :: m.rest)).2, depth := next.depth } ∧
      next.lexMode.depth? = countParens m.lexMode.depth? (takeUnit (first :: m.rest)).1 ∧
      next.depth + Text.size next.rest < Overflow.offsetBound := by
  have hpos := first.utf8Size_pos
  have hle := countParens_le m.lexMode.depth? (List.cons_ne_nil first m.rest) m.depth
  rw [depth?_getD] at hle
  rw [readUnit_eq (by rw [Text.size_cons] at h; omega)] at hread
  cases hread
  exact ⟨rfl, depth?_of_counted (isSome_countParens _ _), Nat.lt_of_le_of_lt hle h⟩

/-- **The cursor moves over a word.** -/
theorem readWord_eq (first : Char) (m : Scanner)
    (h : m.depth + Text.size (first :: m.rest) < Overflow.offsetBound) :
    ∃ depth, m.readWord first = .ok { m with
        rest := (scanWord m.lexMode.depth? (first :: m.rest)).rest, depth } ∧
      ({ m with depth } : Scanner).lexMode.depth?
        = (scanWord m.lexMode.depth? (first :: m.rest)).depth ∧
      depth + Text.size (scanWord m.lexMode.depth? (first :: m.rest)).rest
        < Overflow.offsetBound := by
  fun_induction readWord first m with
  | case1 first m halt hread =>
    rw [readUnit_eq (by have := first.utf8Size_pos; rw [Text.size_cons] at h; omega)] at hread
    cases hread
  | case2 first m next hread hrest =>
    obtain ⟨hnext, hdepth, hbound⟩ := of_readUnit h hread
    have hunit : (takeUnit (first :: m.rest)).2 = [] := by rw [← hrest, hnext]
    rw [scanWord, if_pos (by rw [hunit]; rfl)]
    rw [hnext] at hdepth hbound
    exact ⟨next.depth, congrArg _ hnext, hdepth, hbound⟩
  | case3 first m next hread c rest hrest hstop =>
    obtain ⟨hnext, hdepth, hbound⟩ := of_readUnit h hread
    have hunit : (takeUnit (first :: m.rest)).2 = c :: rest := by rw [← hrest, hnext]
    have hstops := (stopsWord_iff _ c rest).2 hstop
    rw [hdepth, ← hunit] at hstops
    rw [scanWord, if_pos hstops]
    rw [hnext] at hdepth hbound
    exact ⟨next.depth, congrArg _ hnext, hdepth, hbound⟩
  | case4 first m next hread c rest hrest hstop ih =>
    obtain ⟨hnext, hdepth, hbound⟩ := of_readUnit h hread
    have hunit : (takeUnit (first :: m.rest)).2 = c :: rest := by rw [← hrest, hnext]
    have hstops := (stopsWord_iff _ c rest).not.2 hstop
    rw [hdepth, ← hunit] at hstops
    rw [hrest] at hbound
    obtain ⟨depth, hword, hcount, hmore⟩ := ih hbound
    rw [show ({ next with rest } : Scanner).lexMode = next.lexMode from rfl] at hword hcount hmore
    rw [hdepth, ← hunit] at hword hcount hmore
    rw [scanWord, if_neg hstops]
    refine ⟨depth, ?_, ?_, hmore⟩
    · rw [hword, hnext]
    · rw [hnext] at hcount
      exact hcount

/-! ## Pieces -/

/-- A scanner has read the piece of a step. -/
structure Follows (m m' : Scanner) (step : LexStep) : Prop where
  text : m'.text = m.text
  ahead : m'.ahead = m.ahead
  rest : m'.rest = step.rest
  depth_lt : m'.depth + Text.size m'.rest < Overflow.offsetBound
  lexMode : (m'.transitionLeaf step.lexeme.kind).lexMode = step.mode

theorem lexMode_transition (m : Scanner) (kind : TokenKind) :
    (m.transition kind).lexMode = m.lexMode.afterToken kind := by
  unfold transition lexMode
  cases hmode : m.mode <;> cases kind <;> simp [Mode.afterToken, hmode]

/-- **The mode of the scanner changes as that of the lexer.** -/
theorem lexMode_transitionLeaf (m : Scanner) (kind : LeafKind) :
    (m.transitionLeaf kind).lexMode = m.lexMode.after kind := by
  cases kind with
  | trivia kind => rfl
  | token kind => exact lexMode_transition m kind

/-- A scanner that only moved its cursor has read a piece. -/
theorem Follows.of_rest {l : Lexeme} {rest : Text} (hrest : rest <:+ m.rest)
    (hdepth : m.depth + Text.size m.rest < Overflow.offsetBound) :
    m.Follows { m with rest } (.ofLexeme m.lexMode l rest) := by
  obtain ⟨skipped, hskipped⟩ := hrest
  refine ⟨rfl, rfl, rfl, ?_, lexMode_transitionLeaf _ _⟩
  rw [← hskipped, Text.size_append] at hdepth
  simp only
  omega

/-- The cursor moves over a string. -/
theorem skipString_eq (quote : Char) (s : Text) : skipString quote s
    = match scanQuoted quote s with
      | some (_, after) => (true, after)
      | none => (false, []) := by
  fun_induction skipString quote s with
  | case1 => rfl
  | case2 => rfl
  | case3 c rest ih =>
    rw [ih, scanQuoted]
    cases scanQuoted quote rest <;> rfl
  | case4 rest hend hescape =>
    rw [scanQuoted, if_pos rfl]
    · exact hend
    · exact hescape
  | case5 c rest hend hescape hquote ih =>
    rw [ih, scanQuoted, if_neg hquote]
    · cases scanQuoted quote rest <;> rfl
    · exact hend
    · exact hescape

/-- A word is sliced out of the text and classified. -/
theorem readWord_follows (h : ({ m with rest := first :: m.rest } : Scanner).Within before []) :
    ∃ m', (do
        let m ← m.readWord first
        return (((.token (classifyWord (m.mode = .condition) (← m.pieceText)), none), m) :
          Found × Scanner)) = Except.ok ((.token (classifyWord m.lexMode.depth?.isSome
            (scanWord m.lexMode.depth? (first :: m.rest)).word), none), m') ∧
      m.Follows m' (.ofLexeme (m.lexMode.withDepth (scanWord m.lexMode.depth? (first :: m.rest)).depth)
        (.token (classifyWord m.lexMode.depth?.isSome
          (scanWord m.lexMode.depth? (first :: m.rest)).word)
          (scanWord m.lexMode.depth? (first :: m.rest)).word)
        (scanWord m.lexMode.depth? (first :: m.rest)).rest) := by
  obtain ⟨depth, hword, hcount, hmore⟩ := readWord_eq first m h.depth_lt
  have happend := scanWord_append m.lexMode.depth? (first :: m.rest)
  have hwithin : ({ m with
      rest := (scanWord m.lexMode.depth? (first :: m.rest)).rest, depth } : Scanner).Within before
      (scanWord m.lexMode.depth? (first :: m.rest)).word := by
    refine ⟨?_, ?_, h.size_lt, hmore⟩
    · simp only [happend]
      exact h.text
    · simp only [happend]
      exact h.ahead
  rw [hword]
  simp only [bind, Except.bind, hwithin.pieceText_eq, pure, Except.pure]
  rw [depth?_isSome]
  refine ⟨_, rfl, rfl, rfl, rfl, hmore, ?_⟩
  rw [lexMode_transitionLeaf]
  simp only [LexStep.ofLexeme]
  congr 1
  rw [← hcount]
  unfold lexMode
  cases m.mode <;> rfl

/-- **A piece where no script begins.** -/
theorem readFrom_eq (first : Char) (m : Scanner)
    (h : ({ m with rest := first :: m.rest } : Scanner).Within before []) :
    ∃ m', m.readFrom first = .ok (((LexStep.plain m.lexMode first m.rest).lexeme.kind,
        (LexStep.plain m.lexMode first m.rest).lexeme.fault), m') ∧
      m.Follows m' (LexStep.plain m.lexMode first m.rest) := by
  have hbound := h.depth_lt
  have hpos := first.utf8Size_pos
  have hdepth : m.depth + Text.size m.rest < Overflow.offsetBound := by
    rw [Text.size_cons] at hbound
    simp only at hbound
    omega
  -- both try the first character in the same order, and each leaves the end of the rest
  unfold readFrom LexStep.plain
  by_cases hfeed : first = '\n'
  · rw [if_pos hfeed, if_pos hfeed]
    exact ⟨_, rfl, .of_rest (List.suffix_refl _) hdepth⟩
  rw [if_neg hfeed, if_neg hfeed]
  by_cases hreturn : first = '\r' ∧ m.rest.head? = some '\n'
  · rw [if_pos hreturn, if_pos hreturn]
    exact ⟨_, rfl, .of_rest (List.tail_suffix _) hdepth⟩
  rw [if_neg hreturn, if_neg hreturn]
  by_cases hblank : isBlank first = true
  · rw [if_pos hblank, if_pos hblank]
    exact ⟨_, rfl, .of_rest (List.dropWhile_suffix _) hdepth⟩
  rw [if_neg hblank, if_neg hblank]
  by_cases hcomment : first = '#'
  · rw [if_pos hcomment, if_pos hcomment]
    exact ⟨_, rfl, .of_rest (List.dropWhile_suffix _) hdepth⟩
  rw [if_neg hcomment, if_neg hcomment]
  unfold LexStep.significant punctuation?
  by_cases hsemicolon : first = ';'
  · subst hsemicolon
    exact ⟨_, rfl, .of_rest (List.suffix_refl _) hdepth⟩
  rw [if_neg hsemicolon, if_neg hsemicolon]
  by_cases hopen : first = '{'
  · subst hopen
    exact ⟨_, rfl, .of_rest (List.suffix_refl _) hdepth⟩
  rw [if_neg hopen, if_neg hopen]
  by_cases hclose : first = '}'
  · subst hclose
    exact ⟨_, rfl, .of_rest (List.suffix_refl _) hdepth⟩
  rw [if_neg hclose, if_neg hclose]
  by_cases hquote : first = '"' ∨ first = '\''
  · rw [if_pos hquote, if_pos hquote, skipString_eq]
    cases hscan : scanQuoted first m.rest with
    | none => exact ⟨_, rfl, .of_rest (List.nil_suffix) hdepth⟩
    | some cut =>
      obtain ⟨quoted, after⟩ := cut
      exact ⟨_, rfl, .of_rest ⟨quoted, scanQuoted_append hscan⟩ hdepth⟩
  rw [if_neg hquote, if_neg hquote]
  have hif : m.lexMode = .afterIf ↔ m.mode = .afterIf := by
    unfold lexMode
    cases m.mode <;> simp
  have hcondition : m.lexMode = .condition 0 ↔ m.mode = .condition ∧ m.depth = 0 := by
    unfold lexMode
    cases m.mode <;> simp
  simp only [hif, hcondition]
  by_cases hleft : first = '(' ∧ m.mode = .afterIf
  · rw [if_pos hleft, if_pos hleft]
    obtain ⟨rfl, -⟩ := hleft
    exact ⟨_, rfl, .of_rest (List.suffix_refl _) hdepth⟩
  rw [if_neg hleft, if_neg hleft]
  by_cases hright : first = ')' ∧ m.mode = .condition ∧ m.depth = 0
  · rw [if_pos hright, if_pos hright]
    exact ⟨_, rfl, .of_rest (List.suffix_refl _) hdepth⟩
  rw [if_neg hright, if_neg hright]
  exact readWord_follows h

theorem readPlain_eq {step : LexStep} (h : m.Within before [])
    (hstep : lexPlain m.lexMode m.rest = some step) :
    ∃ m', m.readPlain = .ok (some (step.lexeme.kind, step.lexeme.fault), m') ∧
      m.Follows m' step := by
  cases hrest : m.rest with
  | nil =>
    rw [hrest] at hstep
    cases hstep
  | cons first rest =>
    rw [hrest] at hstep
    cases hstep
    obtain ⟨m', hread, hfollows⟩ := readFrom_eq first { m with rest }
      (by rw [← hrest]; exact h)
    refine ⟨m', ?_, hfollows.text, hfollows.ahead, hfollows.rest, hfollows.depth_lt,
      hfollows.lexMode⟩
    rw [readPlain, hrest]
    simp only [bind, Except.bind, hread]
    rfl

/-- **A script is scanned by bytes and cut off.** -/
theorem readScript_eq {step : LexStep} (h : m.Within before []) (hmode : m.mode = .normal)
    (hstep : lexStep .luaBody m.rest = some step) :
    ∃ m', m.readScript = .ok (some (step.lexeme.kind, step.lexeme.fault), m') ∧
      m.Follows m' step := by
  have hnormal : m.lexMode = .normal := by rw [lexMode, hmode]
  have hsize : Text.size m.rest < Overflow.offsetBound := by
    have h1 := h.size_eq
    have h2 := h.size_lt
    omega
  rw [lexStep, if_pos rfl] at hstep
  rw [readScript, Lua.bodyEnd_eq hsize]
  cases hcut : Lua.body 0 m.rest with
  | none =>
    have hskip := cut_append m.rest []
    rw [List.append_nil] at hskip
    rw [hcut] at hstep
    cases hstep
    refine ⟨{ m with rest := [] }, ?_, hnormal ▸ .of_rest List.nil_suffix h.depth_lt⟩
    simp only [bind, Except.bind, Option.map_none, skipBytes, hskip]
    rfl
  | some parts =>
    obtain ⟨code, after⟩ := parts
    have happend := Lua.body_append hcut
    rw [hcut] at hstep
    cases code with
    | nil => exact readPlain_eq h (hnormal ▸ hstep)
    | cons c code =>
      have hskip := cut_append (c :: code) after
      rw [happend] at hskip
      obtain ⟨n, hn⟩ := Nat.exists_eq_succ_of_ne_zero
        (Text.size_eq_zero.not.2 (List.cons_ne_nil c code))
      cases hstep
      refine ⟨{ m with rest := after }, ?_, hnormal ▸ .of_rest ⟨c :: code, happend⟩ h.depth_lt⟩
      rw [hn] at hskip
      simp only [bind, Except.bind, Option.map_some, hn, skipBytes, hskip]
      rfl

/-- **A piece, be it a script.** -/
theorem read_eq {step : LexStep} (h : m.Within before [])
    (hstep : lexStep m.lexMode m.rest = some step) :
    ∃ m', m.read = .ok (some (step.lexeme.kind, step.lexeme.fault), m') ∧ m.Follows m' step := by
  by_cases hbody : m.mode = .luaBody
  · rw [(lexMode_eq_luaBody m).2 hbody] at hstep
    obtain ⟨m', hread, hfollows⟩ := readScript_eq (m := { m with mode := .normal })
      ⟨h.text, h.ahead, h.size_lt, h.depth_lt⟩ rfl hstep
    rw [read, if_pos hbody]
    exact ⟨m', hread, hfollows.text, hfollows.ahead, hfollows.rest, hfollows.depth_lt,
      hfollows.lexMode⟩
  · rw [lexStep, if_neg ((lexMode_eq_luaBody m).not.2 hbody)] at hstep
    rw [read, if_neg hbody]
    exact readPlain_eq h hstep

/-! ## All pieces -/

theorem weight_eq (m : Scanner) : m.weight = 2 * m.rest.length + m.lexMode.weight := by
  unfold weight lexMode
  cases m.mode <;> rfl

/-- The scanner ends where the lexer does. -/
theorem next_of_none (h : lexStep m.lexMode m.rest = none) : m.next = .ok none := by
  have hend : m.rest = [] ∧ m.mode ≠ .luaBody := by
    unfold lexStep at h
    split at h
    · split at h
      · cases h
      · next hbody =>
        obtain ⟨after, hafter⟩ := List.head?_eq_some_iff.1 (Lua.body_snd hbody)
        rw [← Lua.body_append hbody, hafter] at h
        cases h
      · cases h
    · next hmode =>
      refine ⟨?_, (lexMode_eq_luaBody m).not.1 hmode⟩
      cases hrest : m.rest with
      | nil => rfl
      | cons c rest =>
        rw [hrest] at h
        cases h
  rw [next, if_pos hend]

theorem rest_transitionLeaf (m : Scanner) (kind : LeafKind) : (m.transitionLeaf kind).rest = m.rest ∧
    (m.transitionLeaf kind).text = m.text ∧ (m.transitionLeaf kind).ahead = m.ahead ∧
    (m.transitionLeaf kind).depth ≤ m.depth := by
  cases kind with
  | trivia kind => exact ⟨rfl, rfl, rfl, Nat.le_refl _⟩
  | token kind =>
    unfold transitionLeaf transition
    simp only
    split <;> simp

/-- **A scanner finds the piece that the lexer does, and goes on as it.** -/
theorem next_of_some {step : LexStep} (h : m.Within before [])
    (hstep : lexStep m.lexMode m.rest = some step) :
    ∃ more, m.next = .ok (some (⟨step.lexeme.kind, ⟨Text.size before,
        Text.size before + step.lexeme.size⟩, step.lexeme.fault⟩, more)) ∧
      more.Within (before ++ step.lexeme.text) [] ∧
      more.rest = step.rest ∧ more.lexMode = step.mode := by
  have hmore : ¬ (m.rest = [] ∧ m.mode ≠ .luaBody) := by
    rintro ⟨hrest, hmode⟩
    rw [lexStep, if_neg ((lexMode_eq_luaBody m).not.2 hmode), hrest] at hstep
    cases hstep
  obtain ⟨m', hread, hfollows⟩ := read_eq h hstep
  have happend := lexStep_append hstep
  have hwithin : m'.Within before step.lexeme.text := by
    refine ⟨?_, ?_, ?_, hfollows.depth_lt⟩
    · rw [hfollows.text, hfollows.rest, happend]
      exact h.text
    · rw [hfollows.ahead, hfollows.rest, happend]
      exact h.ahead
    · rw [hfollows.text]
      exact h.size_lt
  obtain ⟨hrest, htext, hahead, hdepth⟩ := rest_transitionLeaf
    { m' with ahead := Text.size m'.rest } step.lexeme.kind
  refine ⟨({ m' with ahead := Text.size m'.rest } : Scanner).transitionLeaf step.lexeme.kind, ?_,
    ⟨?_, ?_, ?_, ?_⟩, ?_, ?_⟩
  · rw [next, if_neg hmore]
    simp only [bind, Except.bind, hread, hwithin.span_eq, hwithin.byteCount_rest, pure,
      Except.pure]
    rfl
  · rw [hrest, htext, hwithin.text, List.append_assoc]
    rfl
  · rw [hahead, hrest]
    rfl
  · rw [htext]
    exact hwithin.size_lt
  · rw [hrest]
    exact Nat.lt_of_le_of_lt (Nat.add_le_add_right hdepth _) hfollows.depth_lt
  · rw [hrest]
    exact hfollows.rest
  · rw [← hfollows.lexMode, lexMode_transitionLeaf, lexMode_transitionLeaf]
    rfl

end Scanner

/-- A lexeme at its place, without its text. -/
def ScanToken.ofPlaced (placed : Lexeme × Span) : ScanToken :=
  ⟨placed.1.kind, placed.2, placed.1.fault⟩

/-- **A scanner finds all lexemes that are left, at their places.** -/
theorem Scanner.run_eq (m : Scanner) (h : m.Within before []) :
    m.run = .ok ((placeLexemes (Text.size before) (lexFrom m.lexMode m.rest)).map
      ScanToken.ofPlaced) := by
  induction hn : m.weight using Nat.strong_induction_on generalizing m before with
  | _ n ih =>
    cases hstep : lexStep m.lexMode m.rest with
    | none =>
      rw [run, next_of_none hstep, lexFrom_of_none hstep]
      rfl
    | some step =>
      obtain ⟨more, hnext, hwithin, hrest, hmode⟩ := next_of_some h hstep
      have hweight : more.weight < m.weight := by
        rw [weight_eq, weight_eq, hrest, hmode]
        exact lexStep_weight hstep
      have hmore := ih more.weight (hn ▸ hweight) more hwithin rfl
      rw [run, hnext, lexFrom_of_some hstep]
      simp only [if_pos hweight]
      rw [hmore, hrest, hmode, Text.size_append]
      rfl

/-- **A scan never halts, and gives the lexemes of the text at their places.** -/
theorem scanFrom_eq {s : Text} {offset : Nat} {ls : List Lexeme}
    (hs : Text.size s < Overflow.offsetBound) (h : lexAfter? s offset = some ls) :
    scanFrom s offset = .ok ((placeLexemes offset ls).map ScanToken.ofPlaced) := by
  obtain ⟨⟨before, rest⟩, hcut, rfl⟩ := Option.map_eq_some_iff.1 h
  obtain ⟨rfl, rfl⟩ := Text.splitAt?_eq_some.1 hcut
  have hsize : Text.size rest < Overflow.offsetBound := by
    rw [Text.size_append] at hs
    omega
  rw [scanFrom, Scanner.startAt, Scanner.cut_append]
  simp only [bind, Except.bind, Scanner.byteCount_eq hsize, pure, Except.pure]
  refine Scanner.run_eq ⟨before ++ rest, rest, Text.size rest, .normal, 0⟩ ⟨rfl, rfl, hs, ?_⟩
  simp only [Nat.zero_add]
  exact hsize

end NginxConf
