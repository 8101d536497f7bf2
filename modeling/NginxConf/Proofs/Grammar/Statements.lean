import NginxConf.Proofs.Grammar.Sound
import NginxConf.Proofs.Grammar.Recognize

/-!
# The rules accept the language

Statements are accepted as far as blocks are (`BlocksRecognized`); the induction on the room for
nested blocks closes the circle.
-/

namespace NginxConf

variable {α : Type} [Lexical α]

namespace Phrase

/-- What a block of a shape looks like. -/
def IsBlockOf : BlockShape → Nat → List α → Prop
  | .plain => IsBlock
  | .geo => IsGeoBlock

/-- What a block of a shape is made of. -/
def IsItemOf (room : Nat) : BlockShape → List α → Prop
  | .plain => IsStatement room
  | .geo => IsItem

theorem isBlockOf_succ {shape : BlockShape} {room : Nat} {w : List α} :
    IsBlockOf shape (room + 1) w ↔ ∃ opening items closing,
      w = opening :: (List.flatten items ++ [closing]) ∧ Lexical.kind opening = .leftBrace
        ∧ (∀ i ∈ items, IsItemOf room shape i) ∧ Lexical.kind closing = .rightBrace := by
  cases shape with
  | plain =>
    constructor
    · intro h
      cases h with
      | statements hl hs hr => exact ⟨_, _, _, rfl, hl, hs, hr⟩
    · rintro ⟨opening, items, closing, rfl, hl, hs, hr⟩
      exact .statements hl hs hr
  | geo =>
    constructor
    · intro h
      cases h with
      | items hl hi hr => exact ⟨_, _, _, rfl, hl, hi, hr⟩
    · rintro ⟨opening, items, closing, rfl, hl, hi, hr⟩
      exact .items hl hi hr

theorem not_isBlockOf_zero {shape : BlockShape} {w : List α} : ¬ IsBlockOf shape 0 w := by
  cases shape with
  | plain => exact fun h => nomatch h
  | geo => exact fun h => nomatch h

/-- A block begins with a `{`. -/
theorem IsBlockOf.head {shape : BlockShape} {room : Nat} {w : List α} (h : IsBlockOf shape room w) :
    ∃ t ts, w = t :: ts ∧ Lexical.kind t = .leftBrace := by
  cases room with
  | zero => exact absurd h not_isBlockOf_zero
  | succ room =>
    obtain ⟨opening, items, closing, rfl, hl, -, -⟩ := isBlockOf_succ.1 h
    exact ⟨opening, _, rfl, hl⟩

/-- The keywords that begin a statement. -/
def statementKeywords : List TokenKind :=
  [.ifKeyword, .setKeyword, .includeKeyword, .geoKeyword, .luaKeyword]

/-- A statement begins with a value or a keyword. -/
theorem IsStatement.head {room : Nat} {w : List α} (h : IsStatement room w) :
    ∃ t ts, w = t :: ts ∧ (IsValue t ∨ Lexical.kind t ∈ statementKeywords) := by
  cases h with
  | directive hn | directiveBlock hn => exact ⟨_, _, rfl, .inl hn⟩
  | ifBlock hk | setVariable hk | inclusion hk | geo hk | lua hk =>
    exact ⟨_, _, rfl, .inr (by simp [statementKeywords, hk])⟩

section Inversion

variable {room : Nat} {t : α} {ts left : List α}

/-- What is known of a statement that begins a row of tokens is known of what follows its first
token. -/
theorem exists_isStatement_iff : (∃ w, t :: ts = w ++ left ∧ IsStatement room w)
    ↔ ∃ w, ts = w ++ left ∧ IsStatement room (t :: w) := by
  constructor
  · rintro ⟨w, hw, hs⟩
    obtain ⟨u, us, rfl, -⟩ := hs.head
    cases hw
    exact ⟨us, rfl, hs⟩
  · rintro ⟨w, rfl, hs⟩
    exact ⟨t :: w, rfl, hs⟩

theorem isStatement_if_iff (hk : Lexical.kind t = .ifKeyword) : IsStatement room (t :: ts)
    ↔ ∃ opening conditions closing body, ts = opening :: (List.flatten conditions ++ closing :: body)
      ∧ Lexical.kind opening = .leftParen ∧ conditions ≠ [] ∧ (∀ c ∈ conditions, IsCondition c)
      ∧ Lexical.kind closing = .rightParen ∧ IsBlock room body := by
  constructor
  · intro h
    cases h with
    | directive hn | directiveBlock hn => simp [IsValue, hk, TokenKind.isValue] at hn
    | setVariable hk' | inclusion hk' | geo hk' | lua hk' => simp [hk] at hk'
    | ifBlock _ ho hne hc hcl hb => exact ⟨_, _, _, _, rfl, ho, hne, hc, hcl, hb⟩
  · rintro ⟨opening, conditions, closing, body, rfl, ho, hne, hc, hcl, hb⟩
    exact .ifBlock hk ho hne hc hcl hb

theorem isStatement_set_iff (hk : Lexical.kind t = .setKeyword) : IsStatement room (t :: ts)
    ↔ ∃ name v stop, ts = [name, v, stop]
      ∧ (Lexical.kind name = .variableName ∨ Lexical.kind name = .word) ∧ IsValue v
      ∧ Lexical.kind stop = .semicolon := by
  constructor
  · intro h
    cases h with
    | directive hn | directiveBlock hn => simp [IsValue, hk, TokenKind.isValue] at hn
    | ifBlock hk' | inclusion hk' | geo hk' | lua hk' => simp [hk] at hk'
    | setVariable _ hn hv hs => exact ⟨_, _, _, rfl, hn, hv, hs⟩
  · rintro ⟨name, v, stop, rfl, hn, hv, hs⟩
    exact .setVariable hk hn hv hs

theorem isStatement_include_iff (hk : Lexical.kind t = .includeKeyword) : IsStatement room (t :: ts)
    ↔ ∃ path stop, ts = [path, stop] ∧ IsValue path ∧ Lexical.kind stop = .semicolon := by
  constructor
  · intro h
    cases h with
    | directive hn | directiveBlock hn => simp [IsValue, hk, TokenKind.isValue] at hn
    | ifBlock hk' | setVariable hk' | geo hk' | lua hk' => simp [hk] at hk'
    | inclusion _ hp hs => exact ⟨_, _, rfl, hp, hs⟩
  · rintro ⟨path, stop, rfl, hp, hs⟩
    exact .inclusion hk hp hs

theorem isStatement_geo_iff (hk : Lexical.kind t = .geoKeyword) : IsStatement room (t :: ts)
    ↔ ∃ (v : α) (w : Option α) (body : List α), ts = v :: (w.toList ++ body) ∧ IsValue v
      ∧ (∀ u ∈ w, IsValue u) ∧ IsGeoBlock room body := by
  constructor
  · intro h
    cases h with
    | directive hn | directiveBlock hn => simp [IsValue, hk, TokenKind.isValue] at hn
    | ifBlock hk' | setVariable hk' | inclusion hk' | lua hk' => simp [hk] at hk'
    | geo _ hv hw hb => exact ⟨_, _, _, rfl, hv, hw, hb⟩
  · rintro ⟨v, w, body, rfl, hv, hw, hb⟩
    exact .geo hk hv hw hb

theorem isStatement_lua_iff (hk : Lexical.kind t = .luaKeyword) : IsStatement room (t :: ts)
    ↔ ∃ (v : Option α) (body : List α), ts = v.toList ++ body ∧ (∀ u ∈ v, IsValue u)
      ∧ (v.isSome ↔ Lexical.text t = "set_by_lua_block".toList) ∧ IsScript body := by
  constructor
  · intro h
    cases h with
    | directive hn | directiveBlock hn => simp [IsValue, hk, TokenKind.isValue] at hn
    | ifBlock hk' | setVariable hk' | inclusion hk' | geo hk' => simp [hk] at hk'
    | lua _ hv ht hb => exact ⟨_, _, rfl, hv, ht, hb⟩
  · rintro ⟨v, body, rfl, hv, ht, hb⟩
    exact .lua hk hv ht hb

end Inversion

/-- An entry of a geo block begins with a word or with `include`. -/
theorem IsItem.head {w : List α} (h : IsItem w) :
    ∃ t ts, w = t :: ts ∧ Rule.startsGeoEntry (Lexical.kind t) = true := by
  cases h with
  | entry he =>
    cases he with
    | inclusion hk | operand hk | flag hk =>
      exact ⟨_, _, rfl, by simp [Rule.startsGeoEntry, hk, TokenKind.isValue]⟩
    | pair hn =>
      refine ⟨_, _, rfl, ?_⟩
      rw [Rule.startsGeoEntry, show TokenKind.isValue _ = true from hn]
      rfl

end Phrase

open Phrase

namespace Rule

variable [Inhabited α] [LawfulLexical α] {room : Nat} {no : Rule α} {t : α}
  {ts rest left : List α}

/-- Blocks are accepted where the language has one. -/
def BlocksRecognized (α : Type) [Lexical α] (room : Nat) : Prop :=
  ∀ (shape : BlockShape) (t : α) (ts left : List α), Lexical.kind t = .leftBrace →
    (Accepts room (block shape) (t :: ts) left
      ↔ ∃ w, t :: ts = w ++ left ∧ IsBlockOf shape room w)

section Blocks

variable (hblocks : BlocksRecognized α room)

include hblocks

omit [LawfulLexical α] [Inhabited α] in
/-- A block that must be there. -/
theorem accepts_ifBlock {shape : BlockShape} (hn : ∀ rest left, ¬ Accepts room no rest left) :
    Accepts room (ifNext (· == .leftBrace) (block shape) no) rest left
      ↔ ∃ w, rest = w ++ left ∧ IsBlockOf shape room w := by
  cases rest with
  | nil =>
    rw [accepts_ifNext_nil]
    constructor
    · exact fun h => absurd h (hn _ _)
    · rintro ⟨w, hw, hblock⟩
      obtain ⟨t, ts, rfl, -⟩ := hblock.head
      cases hw
  | cons t ts =>
    rw [accepts_ifNext_cons]
    by_cases hk : Lexical.kind t = .leftBrace
    · rw [if_pos (by simp [hk]), hblocks shape t ts left hk]
    · rw [if_neg (by simpa using hk)]
      constructor
      · exact fun h => absurd h (hn _ _)
      · rintro ⟨w, hw, hblock⟩
        obtain ⟨u, us, rfl, hu⟩ := hblock.head
        cases hw
        exact absurd hu hk

/-! ## Directives -/

theorem accepts_directive (hv : IsValue t) : Accepts room directive (t :: ts) left
    ↔ ∃ args middle, ts = args ++ middle ∧ (∀ x ∈ args, IsValue x) ∧
      ((∃ stop, middle = stop :: left ∧ Lexical.kind stop = .semicolon)
        ∨ ∃ w, middle = w ++ left ∧ IsBlock room w) := by
  rw [directive, accepts_withNext, accepts_wrapBy]
  simp only [accepts_advance_append hv.not_malformed, accepts_acceptAll]
  constructor
  · rintro ⟨middle, ⟨hargs, rfl⟩, hend⟩
    have hsplit := List.takeWhile_append_dropWhile
      (p := fun t : α => isArgument (Lexical.kind t)) (l := ts)
    refine ⟨_, _, hsplit.symm, fun x hx => ?_, ?_⟩
    · have hmem := List.all_eq_true.1 List.all_takeWhile x hx
      simpa [isArgument, hargs x hx, IsValue] using hmem
    · generalize ts.dropWhile (fun t => isArgument (Lexical.kind t)) = middle at hend ⊢
      cases middle with
      | nil => exact absurd hend (not_accepts_complainSince rfl)
      | cons u us =>
        simp only [List.head?_cons, Option.map_some] at hend
        unfold directiveEnd at hend
        split at hend
        · next hk =>
          obtain ⟨-, rfl⟩ := accepts_advance.1 hend
          exact .inl ⟨u, rfl, by simpa using hk⟩
        · next hk => exact .inr ((hblocks .plain u us left (by simpa using hk)).1 hend)
        · exact absurd hend (not_accepts_complainSince rfl)
  · rintro ⟨args, middle, rfl, hargs, hend⟩
    have hall : ∀ x ∈ args, isArgument (Lexical.kind x) = true := fun x hx => by
      rw [isArgument, show TokenKind.isValue _ = true from hargs x hx]
      rfl
    have hstop : ∃ u us, middle = u :: us ∧ isArgument (Lexical.kind u) = false ∧
        Accepts room (directiveEnd t (some (Lexical.kind u))) middle left := by
      rcases hend with ⟨stop, rfl, hk⟩ | ⟨w, rfl, hblock⟩
      · refine ⟨stop, left, rfl, by simp [isArgument, hk, TokenKind.isValue], ?_⟩
        rw [hk]
        exact accepts_advance.2 ⟨by simp [hk], rfl⟩
      · have hbrace : IsBlockOf .plain room w := hblock
        obtain ⟨u, us, rfl, hk⟩ := hbrace.head
        refine ⟨u, us ++ left, rfl, by simp [isArgument, hk, TokenKind.isValue], ?_⟩
        rw [hk]
        exact (hblocks .plain u (us ++ left) left hk).2 ⟨u :: us, rfl, hblock⟩
    obtain ⟨u, us, rfl, hu, haccepts⟩ := hstop
    refine ⟨u :: us, ⟨?_, ?_⟩, haccepts⟩
    · rw [List.takeWhile_append_of_pos hall, List.takeWhile_cons, if_neg (by simp [hu]),
        List.append_nil]
      exact fun x hx => (hargs x hx).not_malformed
    · rw [List.dropWhile_append_of_pos hall, List.dropWhile_cons, if_neg (by simp [hu])]

theorem accepts_directive_iff (hv : IsValue t) : Accepts room directive (t :: ts) left
    ↔ ∃ w, t :: ts = w ++ left ∧ IsStatement room w := by
  rw [accepts_directive hblocks hv]
  constructor
  · rintro ⟨args, middle, rfl, hargs, ⟨stop, rfl, hs⟩ | ⟨w, rfl, hw⟩⟩
    · exact ⟨t :: (args ++ [stop]), by simp, .directive hv hargs hs⟩
    · exact ⟨t :: (args ++ w), by simp, .directiveBlock hv hargs hw⟩
  · rintro ⟨w, hw, hs⟩
    cases hs with
    | directive hn ha hs =>
      cases hw
      exact ⟨_, _, by simp, ha, .inl ⟨_, rfl, hs⟩⟩
    | directiveBlock hn ha hb =>
      cases hw
      exact ⟨_, _, by simp, ha, .inr ⟨_, rfl, hb⟩⟩
    | ifBlock hk | setVariable hk | inclusion hk | geo hk | lua hk =>
      cases hw
      simp [IsValue, hk, TokenKind.isValue] at hv

/-! ## Statements with keywords -/

theorem accepts_ifStatement (hk : Lexical.kind t = .ifKeyword) :
    Accepts room ifStatement (t :: ts) left ↔ ∃ opening conditions closing w,
      ts = opening :: (List.flatten conditions ++ closing :: (w ++ left))
        ∧ Lexical.kind opening = .leftParen ∧ conditions ≠ []
        ∧ (∀ c ∈ conditions, IsCondition c) ∧ Lexical.kind closing = .rightParen
        ∧ IsBlock room w := by
  have hlacking : ∀ (what : Missing) (rule : Rule α) rest left,
      ¬ Accepts room (lacking what ++ rule) rest left :=
    fun _ _ _ _ => not_accepts_append_left fun _ => not_accepts_lacking
  have hblock : ∀ rest left, Accepts room
      (ifNext (· == .leftBrace) (block .plain) (lacking .openingBrace)) rest left
        ↔ ∃ w, rest = w ++ left ∧ IsBlock room w :=
    fun rest left => accepts_ifBlock hblocks fun _ _ => not_accepts_lacking
  rw [ifStatement, accepts_wrap, accepts_advance_append (by simp [hk])]
  simp only [seq]
  rw [accepts_demand rfl (hlacking _ _)]
  constructor
  · rintro ⟨opening, us, rfl, ho, haccepts⟩
    obtain ⟨middle, hconditions, hend⟩ := accepts_append.1 haccepts
    obtain ⟨⟨u, us', rfl, hu⟩, hmany⟩ := accepts_conditions.1 hconditions
    obtain ⟨ws, hws, hall⟩ := many_condition_sound hmany
    obtain ⟨closing, vs, rfl, hc, hbody⟩ := (accepts_demand rfl (hlacking _ _)).1 hend
    obtain ⟨w, rfl, hw⟩ := (hblock _ _).1 hbody
    refine ⟨opening, ws, closing, w, by rw [hws], by simpa using ho, ?_, hall,
      by simpa using hc, hw⟩
    -- Something is read, as the first token begins a condition and `)` does not.
    rintro rfl
    rw [List.flatten_nil, List.nil_append] at hws
    cases hws
    rw [show Lexical.kind u = .rightParen by simpa using hc] at hu
    cases hu
  · rintro ⟨opening, ws, closing, w, rfl, ho, hne, hall, hc, hw⟩
    refine ⟨opening, _, rfl, by simp [ho], accepts_append.2 ⟨closing :: (w ++ left), ?_, ?_⟩⟩
    · refine accepts_conditions.2 ⟨?_, many_condition_complete (isConditionRow_flatten hall) ?_⟩
      · obtain ⟨c, cs, rfl⟩ := List.exists_cons_of_ne_nil hne
        cases hall c List.mem_cons_self with
        | value hv | comparison hv => exact ⟨_, _, rfl, startsCondition_iff.2 (.inl hv)⟩
        | test ho => exact ⟨_, _, rfl, startsCondition_iff.2 (.inr ho)⟩
      · simp [startsCondition, hc, TokenKind.isValue]
    · exact (accepts_demand rfl (hlacking _ _)).2
        ⟨closing, w ++ left, rfl, by simp [hc], (hblock _ _).2 ⟨w, rfl, hw⟩⟩

theorem accepts_geoStatement (hk : Lexical.kind t = .geoKeyword) :
    Accepts room geoStatement (t :: ts) left ↔ ∃ (v : α) (x : Option α) (w : List α),
      ts = v :: (x.toList ++ (w ++ left)) ∧ IsValue v ∧ (∀ u ∈ x, IsValue u)
        ∧ IsGeoBlock room w := by
  have hblock : ∀ rest left, Accepts room
      (ifNext (· == .leftBrace) (block .geo) (lacking .openingBrace)) rest left
        ↔ ∃ w, rest = w ++ left ∧ IsGeoBlock room w :=
    fun rest left => accepts_ifBlock hblocks fun _ _ => not_accepts_lacking
  have hnovalue : ∀ {w : List α}, IsGeoBlock room w → ∀ u ∈ (w ++ left).head?, ¬ IsValue u := by
    intro w hw u hu
    have hbrace : IsBlockOf .geo room w := hw
    obtain ⟨t, ts, rfl, hk⟩ := hbrace.head
    cases hu
    simp [IsValue, hk, TokenKind.isValue]
  rw [geoStatement, accepts_wrap]
  simp only [seq]
  rw [accepts_advance_append (by simp [hk]), accepts_append]
  constructor
  · rintro ⟨middle, hvalues, hrest⟩
    obtain ⟨v, us, rfl, hv, haccept⟩ :=
      (accepts_demand rfl fun _ _ => not_accepts_lacking).1 hvalues
    obtain ⟨middle', hextra, hbody⟩ := accepts_append.1 hrest
    obtain ⟨-, rfl⟩ := accepts_extraValues.1 hextra
    obtain ⟨w, rfl, hw⟩ := (hblock _ _).1 hbody
    rcases (accepts_accept rfl).1 haccept with ⟨x, rfl, hx⟩ | ⟨-, rfl⟩
    · exact ⟨v, some x, w, rfl, hv, by simpa [IsValue] using hx, hw⟩
    · exact ⟨v, none, w, rfl, hv, by simp, hw⟩
  · rintro ⟨v, x, w, rfl, hv, hx, hw⟩
    refine ⟨w ++ left, (accepts_demand rfl fun _ _ => not_accepts_lacking).2
      ⟨v, _, rfl, hv, (accepts_accept rfl).2 ?_⟩, accepts_append.2
        ⟨w ++ left, accepts_extraValues.2 ⟨hnovalue hw, rfl⟩, (hblock _ _).2 ⟨w, rfl, hw⟩⟩⟩
    cases x with
    | none => exact .inr ⟨by simpa [IsValue] using hnovalue hw, rfl⟩
    | some x => exact .inl ⟨x, rfl, hx x rfl⟩

omit hblocks

theorem accepts_setStatement (hk : Lexical.kind t = .setKeyword) :
    Accepts room setStatement (t :: ts) left ↔ ∃ name v stop, ts = name :: v :: stop :: left
      ∧ (Lexical.kind name = .variableName ∨ Lexical.kind name = .word) ∧ IsValue v
      ∧ Lexical.kind stop = .semicolon := by
  rw [setStatement, accepts_wrap]
  simp only [seq]
  rw [accepts_advance_append (by simp [hk]), accepts_append]
  constructor
  · rintro ⟨middle, hassign, hstop⟩
    obtain ⟨name, us, rfl, hname, hvalue⟩ :=
      (accepts_demand rfl fun _ _ => not_accepts_lacking).1 hassign
    obtain ⟨v, rfl, hv⟩ := accepts_value.1 hvalue
    obtain ⟨stop, rfl, hs⟩ := accepts_semicolon.1 hstop
    exact ⟨name, v, stop, rfl, by simpa using hname, hv, hs⟩
  · rintro ⟨name, v, stop, rfl, hname, hv, hs⟩
    refine ⟨stop :: left, (accepts_demand rfl fun _ _ => not_accepts_lacking).2
      ⟨name, _, rfl, by simpa using hname, accepts_value.2 ⟨v, rfl, hv⟩⟩,
      accepts_semicolon.2 ⟨stop, rfl, hs⟩⟩

theorem accepts_includeStatement (hk : Lexical.kind t = .includeKeyword) :
    Accepts room includeStatement (t :: ts) left
      ↔ ∃ path stop, ts = path :: stop :: left ∧ IsValue path ∧ Lexical.kind stop = .semicolon := by
  rw [includeStatement, accepts_wrap]
  simp only [seq]
  rw [accepts_advance_append (by simp [hk]), accepts_append]
  simp only [accepts_value, accepts_semicolon]
  constructor
  · rintro ⟨middle, ⟨path, rfl, hp⟩, stop, rfl, hs⟩
    exact ⟨path, stop, rfl, hp, hs⟩
  · rintro ⟨path, stop, rfl, hp, hs⟩
    exact ⟨stop :: left, ⟨path, rfl, hp⟩, stop, rfl, hs⟩

omit [Inhabited α] [LawfulLexical α] in
theorem luaKind_eq_setLua :
    luaKind t = .setLua ↔ Lexical.text t = "set_by_lua_block".toList := by
  have hname : ∀ name : String, NodeKind.ofLuaKeyword name = .setLua ↔ name = "set_by_lua_block" := by
    intro name
    unfold NodeKind.ofLuaKeyword
    constructor
    · intro h
      repeat' split at h
      all_goals first | assumption | cases h
    · rintro rfl
      rfl
  rw [luaKind, hname]
  constructor
  · intro h
    rw [← h, String.toList_ofList]
  · intro h
    rw [h, String.ofList_toList]

theorem accepts_luaStatement (hk : Lexical.kind t = .luaKeyword) :
    Accepts room luaStatement (t :: ts) left ↔ ∃ (v : Option α) (w : List α),
      ts = v.toList ++ (w ++ left) ∧ (∀ u ∈ v, IsValue u)
        ∧ (v.isSome ↔ Lexical.text t = "set_by_lua_block".toList) ∧ IsScript w := by
  have hscript : ∀ rest, Accepts room (ifNext (· == .leftBrace) script
      (.complain (.scriptWithoutBlock (Lexical.text t)) ++ accept (· == .semicolon))) rest left
        ↔ ∃ w, rest = w ++ left ∧ IsScript w := by
    intro rest
    have hno : ∀ rest, ¬ Accepts room
        (.complain (.scriptWithoutBlock (Lexical.text t)) ++ accept (· == .semicolon)) rest left :=
      fun _ => not_accepts_append_left fun _ => not_accepts_complain rfl
    cases rest with
    | nil =>
      rw [accepts_ifNext_nil]
      constructor
      · exact fun h => absurd h (hno _)
      · rintro ⟨w, hw, ⟨⟩⟩
        cases hw
    | cons u us =>
      rw [accepts_ifNext_cons]
      by_cases hu : Lexical.kind u = .leftBrace
      · rw [if_pos (by simp [hu]), accepts_script hu]
      · rw [if_neg (by simpa using hu)]
        constructor
        · exact fun h => absurd h (hno _)
        · rintro ⟨w, hw, ⟨hl⟩⟩
          cases hw
          exact absurd hl hu
  have hnovalue : ∀ {w : List α}, IsScript w → ∀ u ∈ (w ++ left).head?, ¬ IsValue u := by
    rintro w ⟨hl⟩ u hu
    cases hu
    simp [IsValue, hl, TokenKind.isValue]
  rw [luaStatement, accepts_withNext, accepts_wrap]
  simp only [seq]
  rw [accepts_advance_append (by simp [hk]), accepts_append]
  constructor
  · rintro ⟨middle, hargument, hrest⟩
    obtain ⟨middle', hextra, hbody⟩ := accepts_append.1 hrest
    obtain ⟨-, rfl⟩ := accepts_extraValues.1 hextra
    obtain ⟨w, rfl, hw⟩ := (hscript _).1 hbody
    by_cases hset : luaKind t = .setLua
    · rw [if_pos hset] at hargument
      obtain ⟨v, rfl, hv⟩ := accepts_value.1 hargument
      exact ⟨some v, w, rfl, by simpa using hv, by simp [luaKind_eq_setLua.1 hset], hw⟩
    · rw [if_neg hset] at hargument
      obtain rfl := accepts_done.1 hargument
      refine ⟨none, w, rfl, by simp, ?_, hw⟩
      simpa [luaKind_eq_setLua] using hset
  · rintro ⟨v, w, rfl, hv, ht, hw⟩
    refine ⟨w ++ left, ?_, accepts_append.2 ⟨w ++ left, accepts_extraValues.2 ⟨hnovalue hw, rfl⟩,
      (hscript _).2 ⟨w, rfl, hw⟩⟩⟩
    cases v with
    | none =>
      rw [if_neg (by simpa [luaKind_eq_setLua] using ht)]
      exact accepts_done.2 rfl
    | some v =>
      rw [if_pos (luaKind_eq_setLua.2 (ht.1 rfl))]
      exact accepts_value.2 ⟨v, rfl, hv v rfl⟩

/-! ## Statements -/

include hblocks

/-- **A statement is accepted exactly where the language has one.** -/
theorem accepts_statement : Accepts room statement (t :: ts) left
    ↔ ∃ w, t :: ts = w ++ left ∧ IsStatement room w := by
  have hother : ¬ (IsValue t ∨ Lexical.kind t ∈ statementKeywords) →
      ¬ ∃ w, t :: ts = w ++ left ∧ IsStatement room w := by
    rintro hno ⟨w, hw, hs⟩
    obtain ⟨u, us, rfl, hu⟩ := hs.head
    cases hw
    exact hno hu
  rw [statement, accepts_withNext]
  unfold statementFrom
  split
  · next hk =>
    rw [accepts_ifStatement hblocks hk, exists_isStatement_iff]
    simp only [isStatement_if_iff hk]
    constructor
    · rintro ⟨opening, conditions, closing, body, rfl, h⟩
      exact ⟨_, by simp, opening, conditions, closing, body, rfl, h⟩
    · rintro ⟨_, rfl, opening, conditions, closing, body, rfl, h⟩
      exact ⟨opening, conditions, closing, body, by simp, h⟩
  · next hk =>
    rw [accepts_setStatement hk, exists_isStatement_iff]
    simp only [isStatement_set_iff hk]
    constructor
    · rintro ⟨name, v, stop, rfl, h⟩
      exact ⟨[name, v, stop], rfl, name, v, stop, rfl, h⟩
    · rintro ⟨_, rfl, name, v, stop, rfl, h⟩
      exact ⟨name, v, stop, rfl, h⟩
  · next hk =>
    rw [accepts_includeStatement hk, exists_isStatement_iff]
    simp only [isStatement_include_iff hk]
    constructor
    · rintro ⟨path, stop, rfl, h⟩
      exact ⟨[path, stop], rfl, path, stop, rfl, h⟩
    · rintro ⟨_, rfl, path, stop, rfl, h⟩
      exact ⟨path, stop, rfl, h⟩
  · next hk =>
    rw [accepts_geoStatement hblocks hk, exists_isStatement_iff]
    simp only [isStatement_geo_iff hk]
    constructor
    · rintro ⟨v, w, body, rfl, h⟩
      exact ⟨_, by simp, v, w, body, rfl, h⟩
    · rintro ⟨_, rfl, v, w, body, rfl, h⟩
      exact ⟨v, w, body, by simp, h⟩
  · next hk =>
    rw [accepts_luaStatement hk, exists_isStatement_iff]
    simp only [isStatement_lua_iff hk]
    constructor
    · rintro ⟨v, body, rfl, h⟩
      exact ⟨_, by simp, v, body, rfl, h⟩
    · rintro ⟨_, rfl, v, body, rfl, h⟩
      exact ⟨v, body, by simp, h⟩
  · next hk => exact accepts_directive_iff hblocks (by simp [IsValue, hk, TokenKind.isValue])
  · next hk => exact accepts_directive_iff hblocks (by simp [IsValue, hk, TokenKind.isValue])
  · next hk => exact accepts_directive_iff hblocks (by simp [IsValue, hk, TokenKind.isValue])
  · next hk =>
    refine iff_of_false ?_ (hother ?_)
    · exact not_accepts_append_left fun _ => not_accepts_complainAt rfl
    · simp [IsValue, hk, TokenKind.isValue, statementKeywords]
  · next hk =>
    refine iff_of_false (fun h => (accepts_advance.1 (accepts_wrap.1 h)).1 hk) (hother ?_)
    simp [IsValue, hk, TokenKind.isValue, statementKeywords]
  · next hif hset hinclude hgeo hlua hword hvariable hstring _ _ =>
    refine iff_of_false (not_accepts_reject rfl) (hother ?_)
    rintro (hv | hk)
    · unfold IsValue TokenKind.isValue at hv
      split at hv
      · next hk => exact hword hk
      · next hk => exact hvariable hk
      · next hk => exact hstring hk
      · cases hv
    · simp only [statementKeywords, List.mem_cons, List.not_mem_nil, or_false] at hk
      rcases hk with hk | hk | hk | hk | hk
      · exact hif hk
      · exact hset hk
      · exact hinclude hk
      · exact hgeo hk
      · exact hlua hk

omit hblocks in
/-- **An entry of a geo block is accepted exactly where the language has one.** -/
theorem accepts_geoItem : Accepts room geoItem (t :: ts) left
    ↔ ∃ w, t :: ts = w ++ left ∧ IsItem w := by
  have hother : startsGeoEntry (Lexical.kind t) = false →
      ¬ ∃ w, t :: ts = w ++ left ∧ IsItem w := by
    rintro hs ⟨w, hw, hitem⟩
    obtain ⟨u, us, rfl, hu⟩ := hitem.head
    cases hw
    rw [hs] at hu
    cases hu
  rw [geoItem, accepts_withNext]
  unfold geoItemFrom
  split
  · next hk => exact accepts_wholeGeoItem (by simp [startsGeoEntry, hk, TokenKind.isValue])
  · next hk => exact accepts_wholeGeoItem (by simp [startsGeoEntry, hk, TokenKind.isValue])
  · next hk => exact accepts_wholeGeoItem (by simp [startsGeoEntry, hk, TokenKind.isValue])
  · next hk => exact accepts_wholeGeoItem (by simp [startsGeoEntry, hk])
  · next hk =>
    exact iff_of_false (not_accepts_reject rfl)
      (hother (by simp [startsGeoEntry, hk, TokenKind.isValue]))
  · next hk =>
    exact iff_of_false (fun h => (accepts_advance.1 (accepts_wrap.1 h)).1 hk)
      (hother (by simp [startsGeoEntry, hk, TokenKind.isValue]))
  · next hword hvariable hstring hinclude _ _ =>
    refine iff_of_false (not_accepts_append_left fun _ => not_accepts_complainAt rfl) (hother ?_)
    rw [startsGeoEntry, Bool.or_eq_false_iff]
    refine ⟨?_, by simpa using hinclude⟩
    unfold TokenKind.isValue
    split
    · next hk => exact absurd hk hword
    · next hk => exact absurd hk hvariable
    · next hk => exact absurd hk hstring
    · rfl

theorem accepts_item (shape : BlockShape) : Accepts room (item shape) (t :: ts) left
    ↔ ∃ w, t :: ts = w ++ left ∧ IsItemOf room shape w := by
  cases shape with
  | plain => exact accepts_statement hblocks
  | geo => exact accepts_geoItem

/-! ## Blocks and files -/

/-- What stands between the braces is read up to the `}`. -/
theorem accepts_braced (shape : BlockShape) (ht : Lexical.kind t = .leftBrace) :
    Accepts room (braced t shape) (t :: ts) left
      ↔ ∃ w, t :: ts = w ++ left ∧ IsBlockOf shape (room + 1) w := by
  have hbody : ∀ {middle : List α}, Accepts room (.many (· != .rightBrace) (item shape)) ts middle
      ↔ ∃ ws : List (List α), ts = ws.flatten ++ middle ∧ (∀ w ∈ ws, IsItemOf room shape w) ∧
        ∀ u ∈ middle.head?, (Lexical.kind u != .rightBrace) = false := by
    intro middle
    refine accepts_many (fun u _ => item_soundAt (blocksSound room) shape)
      (fun u us left _ => accepts_item hblocks shape) fun w hw => ?_
    cases shape with
    | plain =>
      obtain ⟨u, us, rfl, hu⟩ := IsStatement.head hw
      refine ⟨u, us, rfl, ?_⟩
      rw [bne_iff_ne]
      rintro hk
      simp [IsValue, hk, TokenKind.isValue, statementKeywords] at hu
    | geo =>
      obtain ⟨u, us, rfl, hu⟩ := IsItem.head hw
      refine ⟨u, us, rfl, ?_⟩
      rw [bne_iff_ne]
      rintro hk
      simp [startsGeoEntry, hk, TokenKind.isValue] at hu
  rw [braced]
  simp only [seq]
  rw [accepts_advance_append (by simp [ht]), accepts_append]
  constructor
  · rintro ⟨middle, hmany, hclose⟩
    obtain ⟨ws, rfl, hws, -⟩ := hbody.1 hmany
    obtain ⟨closing, rfl, hr⟩ := accepts_closeScript.1 hclose
    exact ⟨t :: (ws.flatten ++ [closing]), by simp,
      isBlockOf_succ.2 ⟨t, ws, closing, rfl, ht, hws, hr⟩⟩
  · rintro ⟨w, hw, hblock⟩
    obtain ⟨opening, ws, closing, rfl, -, hws, hr⟩ := isBlockOf_succ.1 hblock
    cases hw
    refine ⟨closing :: left, hbody.2 ⟨ws, by simp, hws, by simp [hr]⟩, ?_⟩
    exact accepts_closeScript.2 ⟨closing, rfl, hr⟩

end Blocks

/-- **Blocks are accepted exactly where the language has them, however much room there is.** -/
theorem blocksRecognized (room : Nat) : BlocksRecognized α room := by
  induction room with
  | zero =>
    intro shape t ts left ht
    refine iff_of_false (fun h => ?_) (fun ⟨w, _, hw⟩ => not_isBlockOf_zero hw)
    obtain ⟨hclean, -⟩ := h default
    exact absurd (hclean _ List.mem_cons_self) (by simp [Problem.isWarning])
  | succ room ih =>
    intro shape t ts left ht
    rw [← accepts_braced ih shape ht]
    rfl

theorem accepts_topStatement : Accepts maxDepth topStatement (t :: ts) left
    ↔ ∃ w, t :: ts = w ++ left ∧ IsStatement maxDepth w := by
  rw [← accepts_statement (blocksRecognized maxDepth), topStatement, accepts_ifNext_cons]
  by_cases hk : Lexical.kind t = .rightBrace
  · rw [if_pos (by simp [hk])]
    refine iff_of_false (not_accepts_reject rfl) fun h => ?_
    obtain ⟨w, hw, hs⟩ := (accepts_statement (blocksRecognized maxDepth)).1 h
    obtain ⟨u, us, rfl, hu⟩ := hs.head
    cases hw
    simp [IsValue, hk, TokenKind.isValue, statementKeywords] at hu
  · rw [if_neg (by simpa using hk)]

/-- **A whole file is accepted exactly if it is in the language.** -/
theorem accepts_file {tokens : List α} :
    Accepts maxDepth file tokens [] ↔ IsFile maxDepth tokens := by
  rw [file, accepts_many (fun _ _ => topStatement_soundAt (blocksSound maxDepth))
    (fun _ _ _ _ => accepts_topStatement) fun w hw => ?_]
  · simp [IsFile]
  · obtain ⟨t, ts, rfl, -⟩ := hw.head
    exact ⟨t, ts, rfl, rfl⟩

end Rule

end NginxConf
