import Mathlib.Data.List.Induction
import NginxConf.Grammar.Rule

/-!
# Matching parentheses

`matchParens` finds the partners of parentheses with a stack. Parentheses do not nest: where each `)`
comes after a `(` without another parenthesis in between, a stack finds just these pairs
(`mem_matchParens_iff`).
-/

namespace NginxConf

def TokenKind.isParen (kind : TokenKind) : Bool := kind == .leftParen || kind == .rightParen

variable {α : Type} [Lexical α] {ts us : List α} {l r t : α}

/-- The parentheses of a row of tokens: those that are open, the last one first, and the pairs. -/
structure Parens (α : Type) where
  opened : List α
  pairs : List (α × α)

namespace Parens

/-- What a further token does. -/
def step (b : Parens α) (t : α) : Parens α :=
  match Lexical.kind t, b.opened with
  | .leftParen, opened => { b with opened := t :: opened }
  | .rightParen, l :: opened => ⟨opened, b.pairs ++ [(l, t)]⟩
  | _, _ => b

theorem step_leftParen (h : Lexical.kind t = .leftParen) (b : Parens α) :
    b.step t = ⟨t :: b.opened, b.pairs⟩ := by
  simp only [step, h]

theorem step_rightParen (h : Lexical.kind t = .rightParen) {b : Parens α} {opened : List α}
    (hb : b.opened = l :: opened) : b.step t = ⟨opened, b.pairs ++ [(l, t)]⟩ := by
  simp only [step, h, hb]

theorem step_other (h : (Lexical.kind t).isParen = false) (b : Parens α) : b.step t = b := by
  unfold step
  split
  · next hk => rw [hk] at h; cases h
  · next hk _ => rw [hk] at h; cases h
  · rfl

/-- Only a `)` makes a pair. -/
theorem pairs_step (h : Lexical.kind t ≠ .rightParen) (b : Parens α) :
    (b.step t).pairs = b.pairs := by
  unfold step
  split
  · rfl
  · next hk _ => exact absurd hk h
  · rfl

end Parens

/-- **The partners of the parentheses of a row of tokens**, found with a stack. -/
def matchParens (ts : List α) : Parens α := ts.foldl Parens.step ⟨[], []⟩

theorem matchParens_concat (ts : List α) (t : α) :
    matchParens (ts ++ [t]) = (matchParens ts).step t := by
  rw [matchParens, List.foldl_append]
  rfl

/-- The last parenthesis of a row is a `(`. -/
def EndsInParen (ts : List α) (l : α) : Prop :=
  ∃ outer inner, ts = outer ++ l :: inner ∧ Lexical.kind l = .leftParen ∧
    ∀ t ∈ inner, (Lexical.kind t).isParen = false

/-- A `(` that no parenthesis follows is on top of the stack. -/
theorem EndsInParen.opened (h : EndsInParen ts l) :
    (matchParens ts).opened.head? = some l := by
  obtain ⟨outer, inner, rfl, hl, hinner⟩ := h
  induction inner using List.reverseRecOn with
  | nil => rw [matchParens_concat, Parens.step_leftParen hl]; rfl
  | append_singleton inner t ih =>
    obtain ⟨hinner, ht⟩ := List.forall_mem_append.1 hinner
    rw [← List.cons_append, ← List.append_assoc, matchParens_concat,
      Parens.step_other (ht t List.mem_cons_self)]
    exact ih hinner

/-- A `)` that comes after a `(` without another parenthesis in between. -/
def Closes (ts : List α) (l r : α) : Prop :=
  ∃ before, before ++ [r] <+: ts ∧ Lexical.kind r = .rightParen ∧ EndsInParen before l

theorem closes_concat :
    Closes (ts ++ [t]) l r ↔
      Closes ts l r ∨ (r = t ∧ Lexical.kind t = .rightParen ∧ EndsInParen ts l) := by
  simp only [Closes, List.prefix_concat_iff]
  constructor
  · rintro ⟨before, heq | hread, hr, hopen⟩
    · obtain ⟨rfl, ht⟩ := List.append_inj' heq rfl
      obtain rfl := List.singleton_inj.1 ht
      exact .inr ⟨rfl, hr, hopen⟩
    · exact .inl ⟨before, hread, hr, hopen⟩
  · rintro (⟨before, hread, hr, hopen⟩ | ⟨rfl, hr, hopen⟩)
    · exact ⟨before, .inr hread, hr, hopen⟩
    · exact ⟨ts, .inl rfl, hr, hopen⟩

/-- **A `(` and a `)` are a pair if no parenthesis is between them**, where each `)` has such a
`(`. -/
theorem mem_matchParens_iff
    (h : ∀ before r, before ++ [r] <+: ts → Lexical.kind r = .rightParen →
      ∃ l, EndsInParen before l) :
    (l, r) ∈ (matchParens ts).pairs ↔ Closes ts l r := by
  induction ts using List.reverseRecOn with
  | nil => simp [matchParens, Closes]
  | append_singleton ts t ih =>
    have ih := ih fun before r hread => h before r (hread.trans (List.prefix_append _ _))
    rw [matchParens_concat, closes_concat, ← ih]
    by_cases ht : Lexical.kind t = .rightParen
    · obtain ⟨k, hk⟩ := h ts t (List.prefix_refl _) ht
      obtain ⟨opened, hopened⟩ := List.head?_eq_some_iff.1 hk.opened
      rw [Parens.step_rightParen ht hopened, List.mem_append, List.mem_singleton, Prod.mk.injEq]
      refine or_congr_right ⟨?_, ?_⟩
      · rintro ⟨rfl, rfl⟩
        exact ⟨rfl, ht, hk⟩
      · rintro ⟨rfl, -, hl⟩
        exact ⟨Option.some.inj (hl.opened.symm.trans hk.opened), rfl⟩
    · rw [Parens.pairs_step ht]
      exact ⟨.inl, fun hpair => hpair.resolve_right fun hlast => ht hlast.2.1⟩

end NginxConf
