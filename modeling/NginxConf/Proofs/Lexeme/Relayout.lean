import NginxConf.Proofs.Lexeme.Adjoin
import NginxConf.Token

/-!
# Other trivia between the same tokens

A text is tokens, each with trivia in front of it. When the trivia is exchanged and the tokens stay,
the lexer finds the same tokens with the new trivia between them (`Relaid.lexFrom`), on these
conditions (`Relaid`): the new trivia is such as the lexer would cut (`Trivia.Cut`), each token
adjoins the text behind it, and where no blank stood between the `{` of a script and what follows it,
none stands there now.

The last condition is about a mode that is not seen in the tokens: after a `{` that opens a script,
blanks would be code.
-/

namespace NginxConf

variable {mode : Mode} {s next : Text} {step : LexStep}

/-! ## Trivia by itself -/

namespace Trivia

@[simp]
theorem textOf_nil : textOf [] = [] := rfl

@[simp]
theorem textOf_cons (t : Trivia) (ts : List Trivia) : textOf (t :: ts) = t.text ++ textOf ts := rfl

@[simp]
theorem textOf_append (ss ts : List Trivia) : textOf (ss ++ ts) = textOf ss ++ textOf ts := by
  simp [textOf]

/-- The lexer would cut the piece off where such a text follows it. -/
def Fits (t : Trivia) (next : Text) : Prop :=
  match t.kind with
  | .newline => t.text = ['\n'] ∨ t.text = ['\r', '\n']
  | .whitespace => ∃ c run, t.text = c :: run ∧ isBlank c = true ∧ c ≠ '\n' ∧
      (∀ d ∈ run, isInlineBlank d = true) ∧ (∀ d ∈ next.head?, isInlineBlank d = false) ∧
      (c = '\r' → (run ++ next).head? ≠ some '\n')
  | .comment => ∃ run, t.text = '#' :: run ∧ (∀ d ∈ run, isLineEnd d = false) ∧
      ∀ d ∈ next.head?, isLineEnd d = true

/-- The lexer would cut the trivia into these pieces where such a text follows it. -/
def Cut (next : Text) : List Trivia → Prop
  | [] => True
  | t :: ts => t.Fits (textOf ts ++ next) ∧ Cut next ts

theorem cut_append {ss ts : List Trivia} :
    Cut next (ss ++ ts) ↔ Cut (textOf ts ++ next) ss ∧ Cut next ts := by
  induction ss with
  | nil => simp [Cut]
  | cons t ss ih =>
    rw [List.cons_append, Cut, Cut, ih, textOf_append, List.append_assoc, and_assoc]

/-- The lexer cuts off a piece that fits. -/
theorem Fits.lexPlain {t : Trivia} (h : t.Fits next) (mode : Mode) :
    lexPlain mode (t.text ++ next) = some ⟨t.lexeme, mode, next⟩ := by
  obtain ⟨kind, text⟩ := t
  cases kind with
  | newline =>
    rcases h with rfl | rfl
    · rfl
    · rfl
  | whitespace =>
    obtain ⟨c, run, rfl, hblank, hfeed, hrun, hnext, hreturn⟩ := h
    obtain ⟨htake, hdrop⟩ := takeWhile_append_stop hrun hnext
    rw [List.cons_append, NginxConf.lexPlain, LexStep.plain, if_neg hfeed,
      if_neg fun hr => hreturn hr.1 hr.2, if_pos hblank, htake, hdrop]
    rfl
  | comment =>
    obtain ⟨run, rfl, hrun, hnext⟩ := h
    obtain ⟨htake, hdrop⟩ := takeWhile_append_stop (p := (!isLineEnd ·))
      (fun d hd => by simp [hrun d hd]) (fun d hd => by simp [hnext d hd])
    rw [List.cons_append, NginxConf.lexPlain, LexStep.plain, htake, hdrop]
    rfl

/-- What a run leaves does not begin with one of its elements. -/
theorem not_head?_dropWhile {p : Char → Bool} (s : Text) :
    ∀ d ∈ (s.dropWhile p).head?, p d = false := by
  intro d hd
  obtain ⟨r, hr⟩ := List.head?_eq_some_iff.1 hd
  have hne : s.dropWhile p ≠ [] := by simp [hr]
  have hnot := List.head_dropWhile_not p hne
  simpa [hr] using hnot

/-- Trivia that the lexer cuts off fits, and changes nothing. -/
theorem fits_of_lexPlain {kind : TriviaKind} (h : NginxConf.lexPlain mode s = some step)
    (hkind : step.lexeme.kind = .trivia kind) :
    step.mode = mode ∧ step.lexeme = Trivia.lexeme ⟨kind, step.lexeme.text⟩ ∧
      Fits ⟨kind, step.lexeme.text⟩ step.rest := by
  cases s with
  | nil => cases h
  | cons c rest =>
    cases h
    unfold LexStep.plain at hkind ⊢
    by_cases hfeed : c = '\n'
    · rw [if_pos hfeed] at hkind ⊢
      cases hkind
      exact ⟨rfl, rfl, .inl (by rw [hfeed]; rfl)⟩
    rw [if_neg hfeed] at hkind ⊢
    by_cases hreturn : c = '\r' ∧ rest.head? = some '\n'
    · rw [if_pos hreturn] at hkind ⊢
      cases hkind
      exact ⟨rfl, rfl, .inr (by rw [hreturn.1]; rfl)⟩
    rw [if_neg hreturn] at hkind ⊢
    by_cases hblank : isBlank c = true
    · rw [if_pos hblank] at hkind ⊢
      cases hkind
      refine ⟨rfl, rfl, c, rest.takeWhile isInlineBlank, rfl, hblank, hfeed,
        List.all_eq_true.1 List.all_takeWhile, not_head?_dropWhile rest, fun hc => ?_⟩
      rw [show rest.takeWhile isInlineBlank ++ (LexStep.ofLexeme mode _ _).rest = rest from
        List.takeWhile_append_dropWhile]
      exact fun hhead => hreturn ⟨hc, hhead⟩
    rw [if_neg hblank] at hkind ⊢
    by_cases hcomment : c = '#'
    · rw [if_pos hcomment] at hkind ⊢
      cases hkind
      refine ⟨rfl, rfl, rest.takeWhile (!isLineEnd ·), by rw [hcomment]; rfl, fun d hd => ?_,
        fun d hd => ?_⟩
      · have hrun := List.all_eq_true.1 (List.all_takeWhile (l := rest) (p := (!isLineEnd ·))) d hd
        simpa using hrun
      · simpa using not_head?_dropWhile (p := (!isLineEnd ·)) rest d hd
    rw [if_neg hcomment] at hkind ⊢
    obtain ⟨k, hk⟩ := LexStep.exists_kind_significant mode c rest
    rw [hk] at hkind
    cases hkind

end Trivia

open Trivia

/-- Where a script begins, the first lexeme is its code, its end, or malformed. -/
theorem kind_of_luaBody (h : lexStep .luaBody s = some step) :
    step.lexeme.kind ∈ [.token .malformed, .token .rightBrace, LeafKind.token .luaCode] := by
  rw [lexStep, if_pos rfl] at h
  split at h
  · cases h
    exact List.mem_cons_self
  · next hbody =>
    obtain ⟨t, ht⟩ := List.head?_eq_some_iff.1 (Lua.body_snd hbody)
    have hs := Lua.body_append hbody
    rw [ht, List.nil_append] at hs
    rw [← hs] at h
    cases h
    exact List.mem_cons_of_mem _ List.mem_cons_self
  · cases h
    exact List.mem_cons_of_mem _ (List.mem_cons_of_mem _ List.mem_cons_self)

/-- Only a `{` is followed by a script. -/
theorem Mode.eq_leftBrace_of_after {mode : Mode} {kind : TokenKind}
    (h : mode.after (.token kind) = .luaBody) : kind = .leftBrace := by
  rw [Mode.after] at h
  unfold Mode.afterToken at h
  repeat' split at h
  all_goals first
    | assumption
    | cases h

/-- Where a script begins, there is a lexeme even at the end of the text. -/
theorem lexFrom_luaBody_ne_nil (s : Text) : lexFrom .luaBody s ≠ [] := by
  cases hstep : lexStep .luaBody s with
  | some step => simp [lexFrom_of_some hstep]
  | none =>
    rw [lexStep, if_pos rfl] at hstep
    split at hstep
    · cases hstep
    · next hbody =>
      obtain ⟨t, ht⟩ := List.head?_eq_some_iff.1 (Lua.body_snd hbody)
      have hs := Lua.body_append hbody
      rw [ht, List.nil_append] at hs
      rw [← hs] at hstep
      cases hstep
    · cases hstep

theorem lexFrom_nil (hmode : mode ≠ .luaBody) : lexFrom mode [] = [] :=
  lexFrom_of_none (by rw [lexStep, if_neg hmode]; rfl)

/-- Trivia is cut as it would be, wherever no script begins. -/
theorem lexFrom_cut (hmode : mode ≠ .luaBody) {ts : List Trivia} (h : Cut next ts) :
    lexFrom mode (textOf ts ++ next) = ts.map lexeme ++ lexFrom mode next := by
  induction ts with
  | nil => rfl
  | cons t ts ih =>
    have hstep : lexStep mode (textOf (t :: ts) ++ next)
        = some ⟨t.lexeme, mode, textOf ts ++ next⟩ := by
      rw [lexStep, if_neg hmode, textOf_cons, List.append_assoc]
      exact h.1.lexPlain mode
    rw [lexFrom_of_some hstep, ih h.2]
    rfl

/-- A text that begins with a lexeme is lexed further from behind it. -/
theorem lexFrom_eq_cons {l : Lexeme} {ls : List Lexeme} (h : lexFrom mode (l.text ++ next) = l :: ls) :
    ∃ mode', lexStep mode (l.text ++ next) = some ⟨l, mode', next⟩ ∧ lexFrom mode' next = ls := by
  cases hstep : lexStep mode (l.text ++ next) with
  | none =>
    rw [lexFrom_of_none hstep] at h
    cases h
  | some step =>
    obtain ⟨l', mode', rest⟩ := step
    rw [lexFrom_of_some hstep] at h
    obtain ⟨rfl, hrest⟩ := List.cons.inj h
    obtain rfl := List.append_cancel_left (lexStep_append hstep)
    exact ⟨mode', rfl, hrest⟩

/-- The pieces of trivia that a text begins with fit, and no script begins before them. -/
theorem cut_of_lexFrom {ts : List Trivia} {ls : List Lexeme}
    (h : lexFrom mode (textOf ts ++ next) = ts.map lexeme ++ ls) :
    Cut next ts ∧ lexFrom mode next = ls ∧ (mode = .luaBody → ts = []) := by
  induction ts with
  | nil => exact ⟨trivial, h, fun _ => rfl⟩
  | cons t ts ih =>
    rw [textOf_cons, List.append_assoc] at h
    obtain ⟨mode', hstep, hrest⟩ := lexFrom_eq_cons (l := t.lexeme) h
    have hmode : mode ≠ .luaBody := by
      rintro rfl
      have hkind := kind_of_luaBody hstep
      simp [Trivia.lexeme, Lexeme.trivia] at hkind
    rw [lexStep, if_neg hmode] at hstep
    obtain ⟨rfl, -, hfits⟩ := fits_of_lexPlain hstep (show _ = LeafKind.trivia t.kind from rfl)
    obtain ⟨hcut, hls, -⟩ := ih hrest
    exact ⟨⟨hfits, hcut⟩, hls, fun hbody => absurd hbody hmode⟩

/-! ## Rows -/

/-- A token with the trivia before it. -/
structure Row where
  trivia : List Trivia
  kind : TokenKind
  text : Text
deriving DecidableEq, Repr

namespace Row

/-- The text of tokens with the trivia before each. -/
def textOf (rows : List Row) : Text := rows.flatMap fun r => Trivia.textOf r.trivia ++ r.text

/-- The lexemes of tokens with the trivia before each. -/
def lexemesOf (rows : List Row) : List Lexeme :=
  rows.flatMap fun r => r.trivia.map Trivia.lexeme ++ [.token r.kind r.text]

@[simp]
theorem textOf_cons (r : Row) (rows : List Row) :
    textOf (r :: rows) = Trivia.textOf r.trivia ++ (r.text ++ textOf rows) := by
  simp [textOf]

@[simp]
theorem lexemesOf_cons (r : Row) (rows : List Row) : lexemesOf (r :: rows)
    = r.trivia.map Trivia.lexeme ++ .token r.kind r.text :: lexemesOf rows := by
  simp [lexemesOf]

theorem flatMap_text_lexemesOf (rows : List Row) :
    (lexemesOf rows).flatMap Lexeme.text = textOf rows := by
  induction rows with
  | nil => rfl
  | cons r rows ih =>
    rw [lexemesOf_cons, List.flatMap_append, List.flatMap_cons, ih, List.flatMap_map, textOf_cons]
    rfl

end Row

/-- A row as the lexer finds it before such a text. -/
structure Row.Placed (r : Row) (next : Text) : Prop where
  cut : Cut (r.text ++ next) r.trivia
  /-- The code of a script stands right behind its `{`. -/
  code : r.kind = .luaCode → r.trivia = []
  /-- Nothing but the code of a script begins with a blank. -/
  head : ∃ c w, r.text = c :: w ∧ (r.kind ≠ .luaCode → isBlank c = false)
  semicolon : r.kind = .semicolon → r.text = [';']

/-- Rows as the lexer finds them before such a text. -/
def Row.AllPlaced (next : Text) : List Row → Prop
  | [] => True
  | r :: rows => r.Placed (textOf rows ++ next) ∧ AllPlaced next rows

/-- A token that the lexer finds is not malformed unless it says why. -/
theorem ne_malformed_of_mem {kind : TokenKind} {text : Text}
    (h : Lexeme.token kind text ∈ lexFrom mode s) : kind ≠ .malformed ∧ text ≠ [] := by
  have hshaped := lexFrom_shaped h
  refine ⟨?_, hshaped.text_ne_nil rfl⟩
  rintro rfl
  cases hshaped.isFaulty_iff.2 rfl

/-- **The rows of a text stand as the lexer finds them**, and the lexer goes on behind them. -/
theorem Row.allPlaced_of_lexFrom {rows : List Row} {ls : List Lexeme}
    (h : lexFrom mode (textOf rows ++ next) = lexemesOf rows ++ ls) :
    AllPlaced next rows ∧ ∃ mode', lexFrom mode' next = ls := by
  induction rows generalizing mode with
  | nil => exact ⟨trivial, mode, h⟩
  | cons r rows ih =>
    rw [textOf_cons, lexemesOf_cons, List.append_assoc, List.append_assoc r.text,
      List.append_assoc] at h
    obtain ⟨hcut, htoken, hempty⟩ := cut_of_lexFrom h
    rw [List.cons_append] at htoken
    obtain ⟨hfault, hne⟩ : r.kind ≠ .malformed ∧ r.text ≠ [] :=
      ne_malformed_of_mem (htoken ▸ List.mem_cons_self)
    obtain ⟨mode', hstep, hrest⟩ := lexFrom_eq_cons (l := .token r.kind r.text) htoken
    have hshaped : (Lexeme.token r.kind r.text).Shaped :=
      lexFrom_shaped (htoken ▸ List.mem_cons_self)
    obtain ⟨hplaced, hmore⟩ := ih hrest
    refine ⟨⟨⟨hcut, fun hcode => hempty ?_, ?_,
      fun hk => hshaped.semicolon (congrArg LeafKind.token hk)⟩, hplaced⟩, hmore⟩
    · refine Decidable.byContradiction fun hmode => ?_
      rw [lexStep, if_neg hmode] at hstep
      exact lexPlain_ne_luaCode hstep (congrArg LeafKind.token hcode)
    · obtain ⟨c, w, hw⟩ := List.exists_cons_of_ne_nil hne
      refine ⟨c, w, hw, fun hcode => ?_⟩
      by_cases hmode : mode = .luaBody
      · subst hmode
        have hkind := kind_of_luaBody hstep
        simp only [Lexeme.token, List.mem_cons, LeafKind.token.injEq, hfault, hcode,
          List.not_mem_nil, or_false, false_or] at hkind
        have hbrace := hshaped.rightBrace (congrArg LeafKind.token hkind)
        rw [show (Lexeme.token r.kind r.text).text = r.text from rfl, hw] at hbrace
        rw [(List.cons.inj hbrace).1]
        decide
      · rw [lexStep, if_neg hmode, show (Lexeme.token r.kind r.text).text = c :: w from hw,
          List.cons_append, lexPlain] at hstep
        have hlexeme : (LexStep.plain mode c (w ++ (textOf rows ++ next))).lexeme.kind
            = .token r.kind := by
          rw [Option.some.inj hstep]
          rfl
        exact (LexStep.significant_of_kind hlexeme).1

/--
Rows with other trivia before each token, such that no token changes. The old ones are followed by
one text and the new ones by another; the kind is that of the token before the rows.
-/
inductive Relaid (old new : Text) : Option TokenKind → List Row → List Row → Prop
  | nil {previous} (hadjoins : ∀ kind ∈ previous, Adjoins kind old new) : Relaid old new previous [] []
  | cons {previous row rows trivia rows'}
    (hadjoins : ∀ kind ∈ previous, Adjoins kind (Row.textOf (row :: rows) ++ old)
      (Row.textOf ({ row with trivia := trivia } :: rows') ++ new))
    (hscript : previous = some .leftBrace → row.trivia = [] →
      row.kind ∈ [.rightBrace, .luaCode] → trivia = [])
    (hcut : Cut (row.text ++ (Row.textOf rows' ++ new)) trivia)
    (h : Relaid old new (some row.kind) rows rows') :
    Relaid old new previous (row :: rows) ({ row with trivia := trivia } :: rows')

namespace Relaid

variable {old new : Text} {previous : Option TokenKind} {rows rows' : List Row}

theorem adjoins (h : Relaid old new previous rows rows') :
    ∀ kind ∈ previous, Adjoins kind (Row.textOf rows ++ old) (Row.textOf rows' ++ new) := by
  cases h with
  | nil hadjoins => exact hadjoins
  | cons hadjoins => exact hadjoins

/-- **The lexer finds the same tokens with other trivia between them.** -/
theorem lexFrom (h : Relaid old new previous rows rows') {ls : List Lexeme}
    (hlex : lexFrom mode (Row.textOf rows ++ old) = Row.lexemesOf rows ++ ls)
    (hmode : mode = .luaBody → previous = some .leftBrace) :
    ∃ mode', NginxConf.lexFrom mode' old = ls ∧
      NginxConf.lexFrom mode (Row.textOf rows' ++ new)
        = Row.lexemesOf rows' ++ NginxConf.lexFrom mode' new := by
  induction h generalizing mode with
  | nil => exact ⟨mode, hlex, rfl⟩
  | @cons previous row rows trivia rows' hadjoins hscript hcut h ih =>
    rw [Row.textOf_cons, Row.lexemesOf_cons, List.append_assoc, List.append_assoc row.text,
      List.append_assoc] at hlex
    obtain ⟨-, htoken, hempty⟩ := cut_of_lexFrom hlex
    rw [List.cons_append] at htoken
    have hfault : row.kind ≠ .malformed :=
      (ne_malformed_of_mem (htoken ▸ List.mem_cons_self)).1
    -- the token itself, with what is now behind it
    obtain ⟨mode₁, hstep, hrest⟩ := lexFrom_eq_cons (l := .token row.kind row.text) htoken
    have hstep' : lexStep mode (row.text ++ (Row.textOf rows' ++ new))
        = some ⟨.token row.kind row.text, mode₁, Row.textOf rows' ++ new⟩ :=
      lexStep_adjoins hstep rfl hfault (h.adjoins row.kind rfl)
    have hmode₁ : mode₁ = .luaBody → some row.kind = some TokenKind.leftBrace := by
      rintro rfl
      obtain ⟨before, hbefore, -⟩ := exists_mode_eq hstep
      exact congrArg some (Mode.eq_leftBrace_of_after hbefore.symm)
    obtain ⟨mode', hold, hnew⟩ := ih hrest hmode₁
    refine ⟨mode', hold, ?_⟩
    have hrow : NginxConf.lexFrom mode (row.text ++ (Row.textOf rows' ++ new))
        = .token row.kind row.text :: Row.lexemesOf rows' ++ NginxConf.lexFrom mode' new := by
      rw [lexFrom_of_some hstep', hnew]
      rfl
    rw [Row.textOf_cons, Row.lexemesOf_cons, List.append_assoc, List.append_assoc row.text,
      List.append_assoc]
    by_cases hbody : mode = .luaBody
    · -- inside a script no trivia can be put before a token, so there is none
      subst hbody
      have hnone : trivia = [] := by
        refine hscript (hmode rfl) (hempty rfl) ?_
        have hkind := kind_of_luaBody hstep
        simpa [Lexeme.token, hfault] using hkind
      subst hnone
      exact hrow
    · rw [lexFrom_cut hbody hcut, hrow]

end Relaid

/-- **A text whose tokens have other trivia between them is cut into these tokens and this trivia.**
The trivia at the end of the text stands behind the last token. -/
theorem lex_relaid {stop stop' : List Trivia} {rows rows' : List Row}
    (h : Relaid (textOf stop) (textOf stop') none rows rows')
    (hlex : lex (Row.textOf rows ++ textOf stop) = Row.lexemesOf rows ++ stop.map lexeme)
    (hcut : Cut [] stop') :
    lex (Row.textOf rows' ++ textOf stop') = Row.lexemesOf rows' ++ stop'.map lexeme := by
  obtain ⟨mode, hold, hnew⟩ := h.lexFrom hlex (fun hmode => by cases hmode)
  have hmode : mode ≠ .luaBody := by
    rintro rfl
    have hnil : lexFrom .luaBody (textOf stop ++ []) = stop.map lexeme ++ [] := by
      rw [List.append_nil, List.append_nil]
      exact hold
    exact lexFrom_luaBody_ne_nil [] (cut_of_lexFrom hnil).2.1
  have hlast := lexFrom_cut hmode hcut
  rw [List.append_nil, lexFrom_nil hmode, List.append_nil] at hlast
  rw [lex, hnew, hlast]

end NginxConf
