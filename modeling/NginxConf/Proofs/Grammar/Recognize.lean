import NginxConf.Proofs.Grammar.Accepts
import NginxConf.Proofs.Grammar.Language

/-!
# The rules for parts of statements accept the language

Each rule of the grammar accepts what the language says, and nothing else. What has to be shown is
that a rule needs no more than the next token to find a derivation where there is one, although the
productions are ambiguous, and that each repair leaves a report. This is the part without blocks.
-/

namespace NginxConf

variable {α : Type} [Lexical α]

open Phrase

namespace Rule

variable [Inhabited α] [LawfulLexical α] {room : Nat} {rule no : Rule α} {t : α}
  {ts rest left : List α} {p : TokenKind → Bool}

/-! ## Parts of statements -/

/-- A token that must be there, with a rule for what follows it. -/
theorem accepts_demand (hp : p .malformed = false)
    (hn : ∀ rest left, ¬ Accepts room no rest left) :
    Accepts room (ifNext p (.advance ++ rule) no) rest left
      ↔ ∃ t ts, rest = t :: ts ∧ p (Lexical.kind t) = true ∧ Accepts room rule ts left := by
  cases rest with
  | nil =>
    rw [accepts_ifNext_nil]
    simp [hn]
  | cons t ts =>
    rw [accepts_ifNext_cons]
    by_cases h : p (Lexical.kind t) = true
    · have hne : Lexical.kind t ≠ .malformed := fun e => by simp [e, hp] at h
      rw [if_pos h, accepts_append]
      simp only [accepts_advance]
      constructor
      · rintro ⟨middle, ⟨-, rfl⟩, hrule⟩
        exact ⟨t, ts, rfl, h, hrule⟩
      · rintro ⟨u, us, hu, -, hrule⟩
        cases hu
        exact ⟨ts, ⟨hne, rfl⟩, hrule⟩
    · rw [if_neg h]
      constructor
      · exact fun hno => absurd hno (hn _ _)
      · rintro ⟨u, us, hu, hpu, -⟩
        cases hu
        exact absurd hpu h

/-- A first token of a kind that is not malformed, and then a rule. -/
theorem accepts_advance_append (h : Lexical.kind t ≠ .malformed) :
    Accepts room (.advance ++ rule) (t :: ts) left ↔ Accepts room rule ts left := by
  rw [accepts_append]
  simp only [accepts_advance]
  constructor
  · rintro ⟨middle, ⟨-, rfl⟩, hrule⟩
    exact hrule
  · exact fun hrule => ⟨ts, ⟨h, rfl⟩, hrule⟩

omit [LawfulLexical α] in
theorem not_accepts_complainAcross {problem : Problem} (h : problem.isWarning = false) :
    ¬ Accepts room (complainAcross problem rule) (t :: ts) left := by
  rw [complainAcross, accepts_withNext, accepts_append]
  rintro ⟨middle, -, hcomplain⟩
  exact not_accepts_complainSince h hcomplain

theorem accepts_value {what : Missing} : Accepts room (value what) rest left
    ↔ ∃ v, rest = v :: left ∧ IsValue v :=
  accepts_expect rfl fun _ _ => not_accepts_lacking

omit [LawfulLexical α] in
/-- Tokens that must not be there. -/
theorem accepts_forbid {kind : NodeKind} {problem : Problem} (h : problem.isWarning = false) :
    Accepts room (ifNext p (.wrap kind (complainAcross problem rule)) .done) rest left
      ↔ (∀ t ∈ rest.head?, p (Lexical.kind t) = false) ∧ rest = left := by
  cases rest with
  | nil =>
    rw [accepts_ifNext_nil, accepts_done]
    simp
  | cons t ts =>
    rw [accepts_ifNext_cons]
    by_cases hp : p (Lexical.kind t) = true
    · rw [if_pos hp, accepts_wrap]
      constructor
      · exact fun hno => absurd hno (not_accepts_complainAcross h)
      · exact fun hno => absurd hp (by simp [hno.1 t rfl])
    · rw [if_neg hp, accepts_done]
      simp [hp]

omit [LawfulLexical α] in
theorem accepts_extraValues : Accepts room extraValues rest left
    ↔ (∀ t ∈ rest.head?, ¬ IsValue t) ∧ rest = left := by
  rw [extraValues, accepts_forbid rfl]
  simp [IsValue]

theorem accepts_semicolon : Accepts room semicolon rest left
    ↔ ∃ t, rest = t :: left ∧ Lexical.kind t = .semicolon := by
  have hstop : Accepts room (ifNext (· == .semicolon) .advance (lacking .semicolon)) rest left
      ↔ ∃ t, rest = t :: left ∧ (Lexical.kind t == .semicolon) = true :=
    accepts_expect rfl fun _ _ => not_accepts_lacking
  rw [semicolon, accepts_append]
  constructor
  · rintro ⟨middle, hextra, hsemicolon⟩
    obtain ⟨-, rfl⟩ := accepts_extraValues.1 hextra
    obtain ⟨t, ht, hk⟩ := hstop.1 hsemicolon
    exact ⟨t, ht, by simpa using hk⟩
  · rintro ⟨t, rfl, hk⟩
    refine ⟨t :: left, accepts_extraValues.2 ⟨?_, rfl⟩, hstop.2 ⟨t, rfl, by simp [hk]⟩⟩
    simp [IsValue, hk, TokenKind.isValue]

/-! ## Conditions -/

/-- Values and operators, where a value follows each operator. -/
inductive IsConditionRow : List α → Prop
  | nil : IsConditionRow []
  | value {v row} (hv : IsValue v) (h : IsConditionRow row) : IsConditionRow (v :: row)
  | operator {operator v row} (ho : Lexical.kind operator = .operator) (hv : IsValue v)
    (h : IsConditionRow row) : IsConditionRow (operator :: v :: row)

omit [Inhabited α] [LawfulLexical α] in
theorem isConditionRow_flatten {ws : List (List α)} (h : ∀ w ∈ ws, IsCondition w) :
    IsConditionRow ws.flatten := by
  induction ws with
  | nil => exact .nil
  | cons w ws ih =>
    obtain ⟨hw, hws⟩ := List.forall_mem_cons.1 h
    cases hw with
    | value hv => exact .value hv (ih hws)
    | comparison hv ho hw => exact .value hv (.operator ho hw (ih hws))
    | test ho hv => exact .operator ho hv (ih hws)

omit [Inhabited α] [LawfulLexical α] in
theorem startsCondition_iff :
    startsCondition (Lexical.kind t) = true ↔ IsValue t ∨ Lexical.kind t = .operator := by
  simp [startsCondition, IsValue]

/-- A condition that begins with an operator. -/
theorem accepts_condition_operator (ho : Lexical.kind t = .operator) :
    Accepts room condition (t :: ts) left ↔ ∃ v, ts = v :: left ∧ IsValue v := by
  rw [condition, accepts_wrap, accepts_ifNext_cons, if_pos (by simp [ho]),
    accepts_advance_append (by simp [ho]), accepts_value]

/-- A condition that begins with a value takes the operator that follows, if one does. -/
theorem accepts_condition_value (hv : IsValue t) : Accepts room condition (t :: ts) left
    ↔ (∃ operator w, ts = operator :: w :: left ∧ Lexical.kind operator = .operator ∧ IsValue w)
      ∨ ((∀ u ∈ ts.head?, Lexical.kind u ≠ .operator) ∧ ts = left) := by
  rw [condition, accepts_wrap, accepts_ifNext_cons, if_neg (by simpa using hv.not_operator),
    accepts_advance_append hv.not_malformed]
  cases ts with
  | nil =>
    rw [accepts_ifNext_nil, accepts_done]
    simp
  | cons u us =>
    rw [accepts_ifNext_cons]
    by_cases ho : Lexical.kind u = .operator
    · rw [if_pos (by simp [ho]), accepts_advance_append (by simp [ho]), accepts_value]
      constructor
      · rintro ⟨w, rfl, hw⟩
        exact .inl ⟨u, w, rfl, ho, hw⟩
      · rintro (⟨operator, w, hu, -, hw⟩ | ⟨hno, -⟩)
        · cases hu
          exact ⟨w, rfl, hw⟩
        · exact absurd ho (hno u rfl)
    · rw [if_neg (by simpa using ho), accepts_done]
      constructor
      · rintro rfl
        exact .inr ⟨by simpa using ho, rfl⟩
      · rintro (⟨operator, w, hu, ho', -⟩ | ⟨-, h⟩)
        · cases hu
          exact absurd ho' ho
        · exact h

theorem accepts_condition_sound (h : Accepts room condition (t :: ts) left)
    (hs : startsCondition (Lexical.kind t) = true) :
    ∃ w, t :: ts = w ++ left ∧ IsCondition w := by
  rcases startsCondition_iff.1 hs with hv | ho
  · rcases (accepts_condition_value hv).1 h with ⟨operator, w, rfl, ho, hw⟩ | ⟨-, rfl⟩
    · exact ⟨[t, operator, w], rfl, .comparison hv ho hw⟩
    · exact ⟨[t], rfl, .value hv⟩
  · obtain ⟨v, rfl, hv⟩ := (accepts_condition_operator ho).1 h
    exact ⟨[t, v], rfl, .test ho hv⟩

theorem many_condition_sound (h : Accepts room (.many startsCondition condition) rest left) :
    ∃ ws : List (List α), rest = ws.flatten ++ left ∧ ∀ w ∈ ws, IsCondition w := by
  induction hn : rest.length using Nat.strongRecOn generalizing rest with
  | _ n ih =>
    by_cases hstop : ∀ t ∈ rest.head?, startsCondition (Lexical.kind t) = false
    · exact ⟨[], (accepts_many_of_stop hstop).1 h, by simp⟩
    · cases rest with
      | nil => simp at hstop
      | cons t ts =>
        have hs : startsCondition (Lexical.kind t) = true := by simpa using hstop
        obtain ⟨middle, hturn, hmore⟩ := (accepts_many_cons hs condition_soundAt).1 h
        obtain ⟨w, hw, hcondition⟩ := accepts_condition_sound hturn hs
        have hlt : middle.length < n := by
          have hlen := congrArg List.length hw
          have hpos : 0 < w.length := by cases hcondition <;> simp
          simp only [List.length_append, List.length_cons] at hlen hn
          omega
        obtain ⟨ws, rfl, hws⟩ := ih _ hlt hmore rfl
        exact ⟨w :: ws, by simpa using hw, List.forall_mem_cons.2 ⟨hcondition, hws⟩⟩

/-- The greedy choice is never wrong: any row of conditions is read to its end. -/
theorem many_condition_complete {row : List α} (h : IsConditionRow row)
    (hleft : ∀ t ∈ left.head?, startsCondition (Lexical.kind t) = false) :
    Accepts room (.many startsCondition condition) (row ++ left) left := by
  induction hn : row.length using Nat.strongRecOn generalizing row with
  | _ n ih =>
    cases h with
    | nil => exact (accepts_many_of_stop hleft).2 rfl
    | @operator o v row ho hv hrow =>
      refine (accepts_many_cons (startsCondition_iff.2 (.inr ho)) condition_soundAt).2
        ⟨row ++ left, ?_, ih _ (by rw [← hn, List.length_cons, List.length_cons]; omega) hrow rfl⟩
      exact (accepts_condition_operator ho).2 ⟨v, rfl, hv⟩
    | @value v row hv hrow =>
      refine (accepts_many_cons (startsCondition_iff.2 (.inl hv)) condition_soundAt).2 ?_
      have hnoop : ∀ {rest : List α}, IsConditionRow row → rest = row ++ left →
          (∀ u ∈ row.head?, Lexical.kind u ≠ .operator) →
          ∀ u ∈ rest.head?, Lexical.kind u ≠ .operator := by
        rintro rest - rfl hhead u hu
        cases row with
        | nil =>
          intro ho
          have := hleft u hu
          simp [startsCondition, ho] at this
        | cons x xs => exact hhead u hu
      cases hrow with
      | nil =>
        refine ⟨left, ?_, ih 0 (by rw [← hn]; simp) .nil rfl⟩
        exact (accepts_condition_value hv).2 (.inr ⟨hnoop .nil rfl (by simp), rfl⟩)
      | @value u us hu hus =>
        refine ⟨u :: us ++ left, ?_, ih _ (by rw [← hn]; simp) (.value hu hus) rfl⟩
        exact (accepts_condition_value hv).2 (.inr ⟨by simpa using hu.not_operator, rfl⟩)
      | @operator o u us ho hu hus =>
        refine ⟨us ++ left, ?_, ih _ (by simp only [← hn, List.length_cons]; omega) hus rfl⟩
        exact (accepts_condition_value hv).2 (.inl ⟨o, u, rfl, ho, hu⟩)

omit [LawfulLexical α] in
/-- Conditions are read as a loop, except that there must be one. -/
theorem accepts_conditions : Accepts room conditions rest left
    ↔ (∃ t ts, rest = t :: ts ∧ startsCondition (Lexical.kind t) = true)
      ∧ Accepts room (.many startsCondition condition) rest left := by
  cases rest with
  | nil =>
    rw [conditions, accepts_ifNext_nil]
    simp [not_accepts_lacking]
  | cons t ts =>
    rw [conditions, accepts_ifNext_cons]
    by_cases hs : startsCondition (Lexical.kind t) = true
    · rw [if_pos hs, accepts_append, accepts_many_cons hs condition_soundAt]
      have hmore : ∀ middle, Accepts room (ifNext startsCondition (complainAcross .extraConditions
          (.many startsCondition condition)) .done) middle left
          ↔ Accepts room (.many startsCondition condition) middle left := by
        intro middle
        cases middle with
        | nil => rw [accepts_ifNext_nil, accepts_done, accepts_many_of_stop (by simp)]
        | cons u us =>
          rw [accepts_ifNext_cons]
          by_cases hu : startsCondition (Lexical.kind u) = true
          · rw [if_pos hu, complainAcross, accepts_withNext, accepts_append]
            simp only [accepts_complainSince]
            simp [Problem.isWarning]
          · rw [if_neg hu, accepts_done, accepts_many_of_stop (by simpa using hu)]
      simp only [hmore]
      simp [hs]
    · rw [if_neg hs]
      simp [hs, not_accepts_lacking]

/-! ## Scripts and entries of a geo block -/

theorem accepts_closeScript : Accepts room (closeScript t) rest left
    ↔ ∃ closing, rest = closing :: left ∧ Lexical.kind closing = .rightBrace := by
  rw [closeScript, accepts_expect rfl fun _ _ => not_accepts_complainAt rfl]
  simp

/-- A script is accepted if it is closed. -/
theorem accepts_script (ht : Lexical.kind t = .leftBrace) : Accepts room script (t :: ts) left
    ↔ ∃ w, t :: ts = w ++ left ∧ IsScript w := by
  rw [script, accepts_withNext, accepts_advance_append (by simp [ht]), accepts_peek]
  constructor
  · intro h
    unfold scriptBody at h
    cases ts with
    | nil => simp [accepts_closeScript] at h
    | cons u us =>
      simp only [List.head?_cons, Option.map_some] at h
      split at h
      · next hk =>
        have hk : Lexical.kind u = .malformed := by simpa using hk
        obtain ⟨middle, hadvance, -⟩ := accepts_append.1 h
        exact absurd hk (accepts_advance.1 hadvance).1
      · next hk =>
        have hk : Lexical.kind u = .luaCode := by simpa using hk
        obtain ⟨closing, rfl, hr⟩ :=
          accepts_closeScript.1 ((accepts_advance_append (by simp [hk])).1 h)
        exact ⟨[t, u, closing], rfl, @IsScript.braces _ _ t closing (some u) ht (by simpa using hk) hr⟩
      · obtain ⟨closing, hcl, hr⟩ := accepts_closeScript.1 h
        cases hcl
        exact ⟨[t, u], rfl, @IsScript.braces _ _ t u none ht (by simp) hr⟩
  · rintro ⟨w, hw, hscript⟩
    cases hscript with
    | @braces opening closing code hl hc hr =>
      cases code with
      | none =>
        cases hw
        show Accepts room (scriptBody t (some (Lexical.kind closing))) (closing :: left) left
        rw [hr]
        exact accepts_closeScript.2 ⟨closing, rfl, hr⟩
      | some c =>
        cases hw
        have hk : Lexical.kind c = .luaCode := hc c rfl
        show Accepts room (scriptBody t (some (Lexical.kind c))) (c :: closing :: left) left
        rw [hk]
        exact (accepts_advance_append (by simp [hk])).2
          (accepts_closeScript.2 ⟨closing, rfl, hr⟩)

omit [Inhabited α] [LawfulLexical α] in
theorem geoKeyword_eq {word : String} (h : word ≠ "") :
    geoKeyword t = word ↔ Lexical.kind t = .word ∧ Lexical.text t = word.toList := by
  unfold geoKeyword
  by_cases hk : Lexical.kind t = .word
  · rw [if_pos hk]
    constructor
    · rintro rfl
      exact ⟨hk, String.toList_ofList.symm⟩
    · rintro ⟨-, ht⟩
      rw [ht, String.ofList_toList]
  · rw [if_neg hk]
    simp [hk, h.symm]

theorem accepts_operand {kind : NodeKind} {what : Missing} (ht : Lexical.kind t ≠ .malformed) :
    Accepts room (.wrap kind (.advance ++ geoOperand true what)) (t :: ts) left
      ↔ ∃ v, ts = v :: left ∧ IsValue v := by
  rw [accepts_wrap, accepts_advance_append ht]
  exact accepts_value

/-- A flag is an entry by itself. -/
theorem accepts_geoEntry_flag (hk : Lexical.kind t = .word) (ht : Lexical.text t ∈ flagWords) :
    Accepts room (geoEntry true) (t :: ts) left ↔ ts = left := by
  have hadvance : ∀ {kind : NodeKind},
      Accepts room (.wrap kind .advance) (t :: ts) left ↔ ts = left := by
    intro kind
    rw [accepts_wrap, accepts_advance]
    simp [hk]
  have hkeyword : geoKeyword t = String.ofList (Lexical.text t) := if_pos hk
  rw [geoEntry, accepts_withNext, if_neg (by simp [hk]), hkeyword]
  simp only [flagWords, List.mem_cons, List.not_mem_nil, or_false] at ht
  rcases ht with ht | ht
  · rw [ht, String.ofList_toList]
    exact hadvance
  · rw [ht, String.ofList_toList]
    exact hadvance

/-- Every other entry needs an operand. -/
theorem accepts_geoEntry_operand (hm : Lexical.kind t ≠ .malformed)
    (ht : ¬ (Lexical.kind t = .word ∧ Lexical.text t ∈ flagWords)) :
    Accepts room (geoEntry true) (t :: ts) left ↔ ∃ v, ts = v :: left ∧ IsValue v := by
  rw [geoEntry, accepts_withNext]
  split
  · exact accepts_operand hm
  · split
    · exact accepts_operand hm
    · split
      · exact accepts_operand hm
      · split
        · exact accepts_operand hm
        · split
          · next hword =>
            obtain ⟨hk, htext⟩ := (geoKeyword_eq (by decide)).1 hword
            exact absurd ⟨hk, by simp [flagWords, htext]⟩ ht
          · split
            · next hword =>
              obtain ⟨hk, htext⟩ := (geoKeyword_eq (by decide)).1 hword
              exact absurd ⟨hk, by simp [flagWords, htext]⟩ ht
            · exact accepts_operand hm

theorem accepts_geoEntry (hs : startsGeoEntry (Lexical.kind t) = true) :
    Accepts room (geoEntry true) (t :: ts) left ↔ ∃ w, t :: ts = w ++ left ∧ IsEntry w := by
  have hm : Lexical.kind t ≠ .malformed := fun e => by
    simp [startsGeoEntry, e, TokenKind.isValue] at hs
  by_cases hflag : Lexical.kind t = .word ∧ Lexical.text t ∈ flagWords
  · rw [accepts_geoEntry_flag hflag.1 hflag.2]
    constructor
    · rintro rfl
      exact ⟨[t], rfl, .flag hflag.1 hflag.2⟩
    · rintro ⟨w, hw, hentry⟩
      cases hentry with
      | inclusion hk => cases hw; simp [hk] at hflag
      | operand hk ht =>
        cases hw
        have hdisjoint : ∀ word ∈ operandWords, word ∉ flagWords := by decide
        exact absurd hflag.2 (hdisjoint _ ht)
      | flag => cases hw; rfl
      | pair hn ht =>
        cases hw
        exact absurd (List.mem_append_right _ hflag.2) (ht hflag.1)
  · rw [accepts_geoEntry_operand hm hflag]
    constructor
    · rintro ⟨v, rfl, hv⟩
      refine ⟨[t, v], rfl, ?_⟩
      by_cases hk : Lexical.kind t = .includeKeyword
      · exact .inclusion hk hv
      · have hn : IsValue t := by simpa [startsGeoEntry, hk, IsValue] using hs
        by_cases ho : Lexical.kind t = .word ∧ Lexical.text t ∈ operandWords
        · exact .operand ho.1 ho.2 hv
        · refine .pair hn (fun hword hmem => ?_) hv
          rcases List.mem_append.1 hmem with h | h
          · exact ho ⟨hword, h⟩
          · exact hflag ⟨hword, h⟩
    · rintro ⟨w, hw, hentry⟩
      cases hentry with
      | inclusion hk hv | operand hk ht hv | pair hn ht hv =>
        cases hw
        exact ⟨_, rfl, hv⟩
      | flag hk ht => cases hw; exact absurd ⟨hk, ht⟩ hflag

theorem accepts_wholeGeoItem (hs : startsGeoEntry (Lexical.kind t) = true) :
    Accepts room wholeGeoItem (t :: ts) left ↔ ∃ w, t :: ts = w ++ left ∧ IsItem w := by
  rw [wholeGeoItem, accepts_wrap]
  simp only [seq]
  rw [accepts_append]
  constructor
  · rintro ⟨middle, hfirst, hrest⟩
    obtain ⟨w, hw, hentry⟩ := (accepts_geoEntry hs).1 hfirst
    obtain ⟨middle', hextra, hstop⟩ := accepts_append.1 hrest
    obtain ⟨-, rfl⟩ := (accepts_forbid rfl).1 hextra
    obtain ⟨stop, rfl, hk⟩ := (accepts_expect rfl fun _ _ => not_accepts_lacking).1 hstop
    exact ⟨w ++ [stop], by rw [hw, List.append_assoc]; rfl, .entry hentry (by simpa using hk)⟩
  · rintro ⟨w, hw, hitem⟩
    cases hitem with
    | @entry entry stop he hk =>
      rw [List.append_assoc] at hw
      refine ⟨stop :: left, (accepts_geoEntry hs).2 ⟨entry, hw, he⟩, accepts_append.2 ?_⟩
      refine ⟨stop :: left, (accepts_forbid rfl).2 ⟨?_, rfl⟩, ?_⟩
      · simp [startsGeoEntry, hk, TokenKind.isValue]
      · exact (accepts_expect rfl fun _ _ => not_accepts_lacking).2 ⟨stop, rfl, by simp [hk]⟩

end Rule

end NginxConf
