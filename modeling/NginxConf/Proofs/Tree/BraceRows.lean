import NginxConf.Proofs.Grammar.Patterns
import NginxConf.Proofs.Tree.Subnodes

/-!
# Braces that a node can have

The pattern of a node tells which braces belong to it. A block or a script has a `{` and a `}`, the
text may end before the `}`, and a script may have no braces at all. Error nodes can have a `}` that
closes nothing, or all tokens of a block that is nested too deep. Other nodes have no braces
(`NodeKind.Admits.braces`).
-/

namespace NginxConf

open RegularExpression

/-- Whether nodes of the kind have braces around what they hold. -/
def NodeKind.isBraced (kind : NodeKind) : Bool := kind.isBlock || kind.isLua

def TokenKind.isBrace (kind : TokenKind) : Bool := kind == .leftBrace || kind == .rightBrace

/-! ## Symbols of a pattern -/

namespace Pattern

/-- The symbols that are written in a pattern. -/
def atoms : Pattern → List Symbol
  | .zero | .epsilon => []
  | .char s => [s]
  | .plus P Q | .comp P Q => atoms P ++ atoms Q
  | .star P => atoms P

/-- **Whatever matches a pattern is made of its symbols.** -/
theorem mem_atoms {P : Pattern} {w : List Symbol} (h : w ∈ P.matches') : ∀ s ∈ w, s ∈ P.atoms := by
  induction P generalizing w with
  | zero => exact absurd h (Language.notMem_zero w)
  | epsilon =>
    obtain rfl := (Language.mem_one w).1 h
    simp
  | char s =>
    obtain rfl := mem_char.1 h
    simp [atoms]
  | plus P Q ihP ihQ =>
    intro s hs
    exact h.elim (fun h => List.mem_append_left _ (ihP h s hs))
      fun h => List.mem_append_right _ (ihQ h s hs)
  | comp P Q ihP ihQ =>
    obtain ⟨u, hu, v, hv, rfl⟩ := Language.mem_mul.1 h
    intro s hs
    exact (List.mem_append.1 hs).elim (fun hs => List.mem_append_left _ (ihP hu s hs))
      fun hs => List.mem_append_right _ (ihQ hv s hs)
  | star P ih =>
    obtain ⟨ws, rfl, hws⟩ := Language.mem_kstar.1 h
    intro s hs
    obtain ⟨w, hw, hs⟩ := List.mem_flatten.1 hs
    exact ih (hws w hw) s hs

end Pattern

namespace Symbol

/-- The kind of a token, where there is one. -/
def token? : Symbol → Option TokenKind
  | token kind => some kind
  | _ => none

/-- The braces among some symbols. -/
def braces (w : List Symbol) : List TokenKind := (w.filterMap token?).filter TokenKind.isBrace

@[simp]
theorem braces_append (u v : List Symbol) : braces (u ++ v) = braces u ++ braces v := by
  rw [braces, List.filterMap_append, List.filter_append]
  rfl

/-- Tokens that no symbol of a pattern is do not occur in what matches it. -/
theorem filter_of_atoms {P : Pattern} {w : List Symbol} {p : TokenKind → Bool}
    (h : w ∈ P.matches') (hP : (P.atoms.filterMap token?).filter p = []) :
    (w.filterMap token?).filter p = [] := by
  rw [List.filter_eq_nil_iff] at hP ⊢
  intro kind hkind
  obtain ⟨s, hs, hkind⟩ := List.mem_filterMap.1 hkind
  exact hP kind (List.mem_filterMap.2 ⟨s, Pattern.mem_atoms h s hs, hkind⟩)

theorem braces_of_atoms {P : Pattern} {w : List Symbol} (h : w ∈ P.matches')
    (hP : braces P.atoms = []) : braces w = [] :=
  filter_of_atoms h hP

end Symbol

/-! ## Patterns with braces -/

namespace Pattern

theorem mem_token {kind : TokenKind} {w : List Symbol} :
    w ∈ (token kind).matches' ↔ w = [.token kind] := by
  rw [token, mem_oneOf]
  simp

theorem mem_optional_token {kind : TokenKind} {w : List Symbol} :
    w ∈ (optional (token kind)).matches' ↔ w = [.token kind] ∨ w = [] := by
  rw [optional, matches'_add, Language.mem_add, mem_token, matches'_epsilon, Language.mem_one]

/-- What a script can look like. -/
theorem mem_script {w : List Symbol} (h : w ∈ script.matches') :
    w ∈ [[.token .leftBrace, .token .luaCode, .token .rightBrace],
      [.token .leftBrace, .token .rightBrace], [.token .leftBrace, .token .malformed],
      [.token .semicolon], []] := by
  rcases h with ((h | h) | h) | h
  · obtain ⟨_, hl, _, hmore, rfl⟩ := Language.mem_mul.1 h
    obtain ⟨_, hu, _, hr, rfl⟩ := Language.mem_mul.1 hmore
    obtain rfl := mem_token.1 hl
    obtain rfl := mem_token.1 hu
    obtain rfl := mem_token.1 hr
    simp
  · obtain ⟨_, hl, _, hr, rfl⟩ := Language.mem_mul.1 h
    obtain rfl := mem_token.1 hl
    obtain rfl := mem_token.1 hr
    simp
  · obtain ⟨_, hl, _, hu, rfl⟩ := Language.mem_mul.1 h
    obtain rfl := mem_token.1 hl
    obtain rfl := mem_token.1 hu
    simp
  · rcases mem_optional_token.1 h with rfl | rfl <;> simp

/-- What can stand before a script: its keyword, a value, and values that there is no room for. -/
def scriptHead : List Symbol := (token .luaKeyword).atoms ++ (optional value).atoms ++ surplus.atoms

/-- What stands before a script, and the script. -/
theorem exists_scriptHead {kind : NodeKind} {keyword : String} {w : List Symbol}
    (hkind : kind.isLua = true) (h : w ∈ (kind.pattern keyword).matches') :
    ∃ u v, w = u ++ v ∧ (∀ s ∈ u, s ∈ scriptHead) ∧ v ∈ script.matches' := by
  have hpattern : kind.pattern keyword = kind.pattern "" := by
    cases kind <;> first | cases hkind; done | rfl
  have hhead {k s : List Symbol} (hk : k ∈ (token .luaKeyword).matches')
      (hs : s ∈ surplus.matches') : ∀ x ∈ k ++ s, x ∈ scriptHead := by
    intro x hx
    rcases List.mem_append.1 hx with hx | hx
    · exact List.mem_append_left _ (List.mem_append_left _ (mem_atoms hk x hx))
    · exact List.mem_append_right _ (mem_atoms hs x hx)
  rw [hpattern, Rule.pattern_of_isLua hkind] at h
  split at h
  · obtain ⟨k, hk, _, hmore, rfl⟩ := Language.mem_mul.1 h
    obtain ⟨v, hv, _, hmore', rfl⟩ := Language.mem_mul.1 hmore
    obtain ⟨s, hs, last, hlast, rfl⟩ := Language.mem_mul.1 hmore'
    refine ⟨k ++ (v ++ s), last, by simp, fun x hx => ?_, hlast⟩
    rw [List.mem_append, List.mem_append] at hx
    rcases hx with hx | hx | hx
    · exact hhead hk hs x (List.mem_append_left _ hx)
    · exact List.mem_append_left _ (List.mem_append_right _ (mem_atoms hv x hx))
    · exact hhead hk hs x (List.mem_append_right _ hx)
  · obtain ⟨k, hk, _, hmore, rfl⟩ := Language.mem_mul.1 h
    obtain ⟨s, hs, last, hlast, rfl⟩ := Language.mem_mul.1 hmore
    exact ⟨k ++ s, last, by simp, hhead hk hs, hlast⟩

/-- Before the script there is no brace. -/
theorem exists_script {kind : NodeKind} {keyword : String} {w : List Symbol}
    (hkind : kind.isLua = true) (h : w ∈ (kind.pattern keyword).matches') :
    ∃ u v, w = u ++ v ∧ Symbol.braces u = [] ∧ v ∈ script.matches' := by
  obtain ⟨u, v, rfl, hu, hv⟩ := exists_scriptHead hkind h
  refine ⟨u, v, rfl, ?_, hv⟩
  rw [Symbol.braces, List.filter_eq_nil_iff]
  intro k hk
  obtain ⟨s, hs, htoken⟩ := List.mem_filterMap.1 hk
  have hall : ∀ s ∈ scriptHead, ∀ k ∈ s.token?, k.isBrace ≠ true := by decide
  exact hall s (hu s hs) k htoken

/-- A pair of braces, the second of which may be missing. -/
theorem braces_of_braces {P : Pattern} {w : List Symbol} (hP : Symbol.braces P.atoms = [])
    (h : w ∈ (braces P).matches') :
    Symbol.braces w ∈ [[], [.leftBrace], [.leftBrace, .rightBrace]] := by
  obtain ⟨l, hl, _, hmore, rfl⟩ := Language.mem_mul.1 h
  obtain ⟨items, hitems, r, hr, rfl⟩ := Language.mem_mul.1 hmore
  obtain rfl := mem_token.1 hl
  rw [Symbol.braces_append, Symbol.braces_append, Symbol.braces_of_atoms hitems hP]
  rcases mem_optional_token.1 hr with rfl | rfl <;> decide

end Pattern

/-- The raw tokens of a block that is nested too deep. -/
theorem Pattern.exists_raw {w : List Symbol}
    (h : w ∈ (inOrder [token .leftBrace, repeated (tokens fun _ => true)]).matches') :
    ∃ rest, w = .token .leftBrace :: rest ∧ ∀ s ∈ rest, s.token?.isSome = true := by
  obtain ⟨l, hl, rest, hmore, rfl⟩ := Language.mem_mul.1 h
  obtain rfl := mem_token.1 hl
  refine ⟨rest, rfl, fun s hs => ?_⟩
  have hall : ∀ s ∈ (repeated (tokens fun _ => true)).atoms, s.token?.isSome = true := by decide
  exact hall s (mem_atoms hmore s hs)

/-- Which braces a node of a kind has, by what is seen of its children. -/
inductive NodeKind.HasBraces (kind : NodeKind) (w : List Symbol) : Prop
  | braced (hkind : kind.isBraced = true)
    (h : Symbol.braces w ∈ [[], [.leftBrace], [.leftBrace, .rightBrace]])
  /-- All tokens of a block that is nested too deep. -/
  | deep (hkind : kind = .error) {rest : List Symbol} (h : w = .token .leftBrace :: rest)
    (hrest : ∀ s ∈ rest, s.token?.isSome = true)
  /-- A `}` that closes nothing. -/
  | stray (hkind : kind = .error) (h : w = [.token .rightBrace])
  | none (hkind : kind.isBraced = false) (h : Symbol.braces w = [])

/-- Which braces an error node can have. -/
theorem NodeKind.hasBraces_error {w : List Symbol} (h : w ∈ Pattern.error.matches') :
    HasBraces .error w := by
  rcases h with ((h | h) | h) | h
  · obtain ⟨s, hs, rfl⟩ := Pattern.mem_oneOf.1 h
    by_cases hr : s = .token .rightBrace
    · exact .stray rfl (by rw [hr])
    · refine .none rfl ?_
      have hall : ∀ s ∈ [.token .semicolon, .token .rightBrace, .token .malformed, .token .luaCode,
          .node .block] ++ Symbol.statements ++ Symbol.errors, s = .token .rightBrace
            ∨ Symbol.braces [s] = [] := by decide
      exact (hall s hs).resolve_left hr
  · obtain ⟨rest, hsymbols, hrest⟩ := Pattern.exists_raw h
    exact .deep rfl hsymbols hrest
  · exact .none rfl (Symbol.braces_of_atoms h rfl)
  · exact .none rfl (Symbol.braces_of_atoms h rfl)

/-- **Which braces a node can have.** -/
theorem NodeKind.hasBraces {kind : NodeKind} {keyword : String} {w : List Symbol}
    (h : w ∈ (kind.pattern keyword).matches') : kind.HasBraces w := by
  by_cases hlua : kind.isLua = true
  · obtain ⟨u, v, rfl, hu, hv⟩ := Pattern.exists_script hlua h
    refine .braced (by rw [isBraced, hlua, Bool.or_true]) ?_
    rw [Symbol.braces_append, hu, List.nil_append]
    have hall : ∀ v ∈ [[.token .leftBrace, .token .luaCode, .token .rightBrace],
        [.token .leftBrace, .token .rightBrace], [.token .leftBrace, .token .malformed],
        [.token .semicolon], []],
        Symbol.braces v ∈ [[], [.leftBrace], [.leftBrace, .rightBrace]] := by decide
    exact hall v (Pattern.mem_script hv)
  · cases kind with
    | block => exact .braced rfl (Pattern.braces_of_braces rfl h)
    | geoBlock => exact .braced rfl (Pattern.braces_of_braces rfl h)
    | error => exact hasBraces_error h
    | geoProxy =>
      rw [pattern] at h
      split at h <;> exact .none rfl (Symbol.braces_of_atoms h rfl)
    | setLua | accessLua | contentLua | uriLua | sslCertificateLua | otherLua =>
      exact absurd rfl hlua
    | _ => exact .none rfl (Symbol.braces_of_atoms h rfl)

/-! ## Rows with few braces -/

section Row

variable {α : Type} [Lexical α]

/-- The first `{` and the first `}` of a row, where it has both. -/
def bracePair? (ts : List α) : Option (α × α) :=
  match ts.find? (Lexical.kind · == .leftBrace), ts.find? (Lexical.kind · == .rightBrace) with
  | some l, some r => some (l, r)
  | _, _ => none

/-- The first `{` of a row without `}`. -/
def openBrace? (ts : List α) : Option α :=
  match ts.find? (Lexical.kind · == .leftBrace), ts.find? (Lexical.kind · == .rightBrace) with
  | some l, none => some l
  | _, _ => none

/-- The braces of a row, by their kinds. -/
def braceKinds (ts : List α) : List TokenKind := (ts.map Lexical.kind).filter TokenKind.isBrace

/-- No node is seen as a token. -/
theorem Tree.token?_symbol_node (kind : NodeKind) (children : List (Tree α)) :
    (Tree.node kind children).symbol.token? = none := by
  rw [Tree.symbol]
  split <;> rfl

/-- The tokens of a row can be seen from the symbols. -/
theorem filterMap_token?_symbols (ts : List (Tree α)) :
    (ts.map Tree.symbol).filterMap Symbol.token? = (Tree.row ts).map Lexical.kind := by
  fun_induction Tree.row ts with
  | case1 => rfl
  | case2 t ts ih => rw [List.map_cons, Tree.symbol, List.filterMap_cons, List.map_cons, ih]; rfl
  | case3 kind children ts ih =>
    rw [List.map_cons, List.filterMap_cons, Tree.token?_symbol_node, ih]

/-- **A row with one pair of braces**, or a part of one. -/
theorem matchBraces_of_braced {ts : List α}
    (h : braceKinds ts ∈ [[], [.leftBrace], [.leftBrace, .rightBrace]]) :
    matchBraces ts = ⟨(openBrace? ts).toList, (bracePair? ts).toList, []⟩ := by
  -- only the braces of the row are of interest
  have hfilter := matchBraces_filter (p := fun t => (Lexical.kind t).isBrace)
    (fun t ht => by constructor <;> intro hk <;> rw [hk] at ht <;> cases ht) ts
  have hfind {kind : TokenKind} (hkind : kind.isBrace = true) :
      (ts.filter fun t => (Lexical.kind t).isBrace).find? (Lexical.kind · == kind)
        = ts.find? (Lexical.kind · == kind) := by
    rw [List.find?_filter]
    congr 1
    funext t
    by_cases ht : Lexical.kind t = kind
    · simp [ht, hkind]
    · simp [ht]
  rw [braceKinds, List.filter_map, Function.comp_def] at h
  rw [← hfilter, openBrace?, bracePair?, ← hfind rfl, ← hfind rfl]
  generalize ts.filter (fun t => (Lexical.kind t).isBrace) = us at h
  simp only [List.mem_cons, List.not_mem_nil, or_false] at h
  rcases h with h | h | h
  · rw [List.map_eq_nil_iff.1 h]
    rfl
  · obtain ⟨l, _, rfl, hl, hnil⟩ := List.map_eq_cons_iff.1 h
    rw [List.map_eq_nil_iff.1 hnil, matchBraces_open hl]
    simp [hl]
  · obtain ⟨l, _, rfl, hl, h⟩ := List.map_eq_cons_iff.1 h
    obtain ⟨r, _, rfl, hr, hnil⟩ := List.map_eq_cons_iff.1 h
    rw [List.map_eq_nil_iff.1 hnil, matchBraces_pair hl hr]
    simp [hl, hr]

end Row

end NginxConf
