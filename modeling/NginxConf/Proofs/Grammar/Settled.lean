import Mathlib.Data.List.TakeWhile
import NginxConf.Proofs.Grammar.Lookahead
import NginxConf.Proofs.Token.Braces
import NginxConf.Proofs.Token.Stage

/-!
# Rules that stop where statements end

A row of tokens is settled where it ends with a `;` or a `}` and leaves no `{` open. A rule that
begins in such a row cannot tell what stands behind the row: it is over by the end of the row at the
latest. `Rule.Local` says so, as a triple of what holds of the tokens before the rule, the rule, and
what holds of the tokens that it leaves, with one lemma for each way to combine rules.

What decides is whether a rule stops short of the end of the row, as the parts of a statement do, or
may read the last token, as only the last part of a statement does. In the first case what is left
is settled again, and another rule may follow.
-/

namespace NginxConf

/-- The tokens with which a statement can end. -/
def TokenKind.isTerminator (kind : TokenKind) : Bool := kind == .semicolon || kind == .rightBrace

theorem TokenKind.isTerminator_eq_false {p : TokenKind → Bool}
    (hp : p .semicolon = false ∧ p .rightBrace = false) {kind : TokenKind} (h : p kind = true) :
    kind.isTerminator = false := by
  cases kind with
  | semicolon => rw [hp.1] at h; cases h
  | rightBrace => rw [hp.2] at h; cases h
  | _ => rfl

variable {α : Type} [Lexical α] {P Q : α → Prop} {t : α} {ts us vs : List α}

/-! ## Settled rows -/

/-- A row of tokens that begins with such a token, ends with a `;` or a `}`, and leaves no `{`
open. -/
structure SettledAt (P : α → Prop) (ts : List α) : Prop where
  first : ∃ t ∈ ts.head?, P t
  last : ∃ t ∈ ts.getLast?, (Lexical.kind t).isTerminator = true
  opened : (matchBraces ts).opened = []
  fits : ∃ stage : Stage, stage.Fits ts

/-- A row of tokens that ends with a `;` or a `}` and leaves no `{` open. -/
abbrev Settled (ts : List α) : Prop := SettledAt (fun _ => True) ts

namespace SettledAt

theorem mono (h : SettledAt P ts) (hPQ : ∀ t, P t → Q t) : SettledAt Q ts := by
  obtain ⟨t, ht, hP⟩ := h.first
  exact { h with first := ⟨t, ht, hPQ t hP⟩ }

theorem settled (h : SettledAt P ts) : Settled ts := h.mono fun _ _ => trivial

theorem exists_cons (h : SettledAt P ts) : ∃ u us, ts = u :: us ∧ P u := by
  obtain ⟨u, hu, hP⟩ := h.first
  obtain ⟨us, rfl⟩ := List.head?_eq_some_iff.1 hu
  exact ⟨u, us, rfl, hP⟩

theorem head (h : SettledAt P (t :: ts)) : P t := by
  obtain ⟨u, us, hcons, hP⟩ := h.exists_cons
  cases hcons
  exact hP

/-- **Whatever comes last in a settled row is settled.** -/
theorem of_append (us : List α) (h : SettledAt P (us ++ vs)) (hvs : vs ≠ []) : Settled vs := by
  obtain ⟨v, vs, rfl⟩ := List.exists_cons_of_ne_nil hvs
  refine ⟨⟨v, rfl, trivial⟩, ?_, opened_of_append h.opened, ?_⟩
  · have hlast := h.last
    rwa [List.getLast?_append, List.getLast?_cons, Option.some_or, ← List.getLast?_cons] at hlast
  · obtain ⟨stage, hfits⟩ := h.fits
    obtain ⟨stage', hfits'⟩ := hfits.drop us.length
    rw [List.drop_left] at hfits'
    exact ⟨stage', hfits'⟩

/-- Behind a token that ends no statement, the row goes on. -/
theorem tail (h : SettledAt P (t :: ts)) (ht : (Lexical.kind t).isTerminator = false) :
    Settled ts := by
  refine of_append [t] h ?_
  rintro rfl
  obtain ⟨u, hu, hterm⟩ := h.last
  cases hu
  exact Bool.false_ne_true (ht.symm.trans hterm)

end SettledAt

/-! ## Outcomes with more tokens behind them -/

/-- The outcome, where more tokens stand behind those that are left. -/
def Outcome.before (a : Outcome α) (more : List α) : Outcome α := { a with rest := a.rest ++ more }

/-- Reading tokens that are there. -/
theorem Outcome.reading_append {n : Nat} {rest : List α} (h : n ≤ rest.length) (last : α)
    (more : List α) : reading n last (rest ++ more) = (reading n last rest).before more := by
  simp only [reading, before, List.take_append_of_le_length h, List.drop_append_of_le_length h]

/-- The end of a group that is closed does not depend on what stands behind it. -/
theorem groupLength_append {b : Braces α} (hb : b.opened ≠ [])
    (hclosed : (ts.foldl Braces.step b).opened = []) (more : List α) :
    groupLength b.opened.length (ts ++ more) = groupLength b.opened.length ts ∧
      groupLength b.opened.length ts ≤ ts.length := by
  induction ts generalizing b with
  | nil => exact absurd hclosed hb
  | cons t ts ih =>
    rw [List.foldl_cons] at hclosed
    by_cases hl : Lexical.kind t = .leftBrace
    · have hstep := Braces.step_leftBrace (b := b) hl
      have hmore := ih (b := b.step t) (by simp [hstep]) hclosed
      rw [show (b.step t).opened.length = b.opened.length + 1 by simp [hstep]] at hmore
      rw [List.cons_append, groupLength_leftBrace hl, groupLength_leftBrace hl, hmore.1]
      exact ⟨rfl, Nat.succ_le_succ hmore.2⟩
    by_cases hr : Lexical.kind t = .rightBrace
    · rw [List.cons_append, groupLength_rightBrace hr, groupLength_rightBrace hr]
      obtain ⟨l, ls, hls⟩ := List.exists_cons_of_ne_nil hb
      have hstep := Braces.step_matched hr hls
      cases ls with
      | nil => simp [hls]
      | cons l' ls =>
        have hmore := ih (b := b.step t) (by simp [hstep]) hclosed
        rw [show (b.step t).opened.length = b.opened.length - 1 by simp [hstep, hls]] at hmore
        rw [if_neg (by simp [hls]), if_neg (by simp [hls]), hmore.1]
        exact ⟨rfl, Nat.succ_le_succ hmore.2⟩
    · rw [Braces.step_other hl hr] at hclosed
      rw [List.cons_append, groupLength_other hl hr, groupLength_other hl hr, (ih hb hclosed).1]
      exact ⟨rfl, Nat.succ_le_succ (ih hb hclosed).2⟩

/-! ## The triple -/

namespace Rule

variable {room : Nat} {pre pre' mid post : List α → Prop} {first second rule yes no item : Rule α}
variable {p : TokenKind → Bool} {problem : Problem}

/-- From every row of the first sort the rule goes to one of the second sort, and what it makes of
the row does not depend on what stands behind the row. -/
def Local (room : Nat) (pre : List α → Prop) (rule : Rule α) (post : List α → Prop) : Prop :=
  ∀ (last : α) (rest : List α), pre rest →
    post (rule.run room last rest).rest ∧
      ∀ more, rule.run room last (rest ++ more) = (rule.run room last rest).before more

/-- The rule stops before the end of a settled row. -/
abbrev Pauses (room : Nat) (P : α → Prop) (rule : Rule α) : Prop :=
  Local room (SettledAt P) rule Settled

/-- The rule stops by the end of a settled row. -/
abbrev Halts (room : Nat) (P : α → Prop) (rule : Rule α) : Prop :=
  Local room (SettledAt P) rule fun _ => True

namespace Local

theorem of_pre (h : Local room pre rule post) (hpre : ∀ rest, pre' rest → pre rest) :
    Local room pre' rule post := by
  intro last rest hrest
  exact h last rest (hpre rest hrest)

/-- More may be known of the first token. -/
theorem of_head (h : Local room (SettledAt Q) rule post) (hPQ : ∀ t, P t → Q t) :
    Local room (SettledAt P) rule post :=
  h.of_pre fun _ hrest => hrest.mono hPQ

/-- A rule that stops before the end of the row stops by the end of it. -/
theorem halts (h : Local room pre rule post) : Local room pre rule fun _ => True := by
  intro last rest hrest
  exact ⟨trivial, (h last rest hrest).2⟩

/-! ### Rules that read nothing -/

theorem done : Pauses room P done := by
  intro last rest hrest
  exact ⟨hrest.settled, fun _ => rfl⟩

theorem complain : Pauses room P (.complain problem) := by
  intro last rest hrest
  exact ⟨hrest.settled, fun _ => rfl⟩

theorem lacking {what : Missing} : Pauses room P (.lacking what) := complain

theorem complainSince : Local room (SettledAt P) (.complainSince t problem) Settled := by
  intro last rest hrest
  exact ⟨hrest.settled, fun _ => rfl⟩

/-- A report about a token that is known, before the token is read. -/
theorem complainAt : Local room (SettledAt P) (.complainAt t problem) (SettledAt P) := by
  intro last rest hrest
  exact ⟨hrest, fun _ => rfl⟩

/-! ### Rules that read tokens -/

/-- Any token may be read, also the last one. -/
theorem advance : Halts room P advance := by
  intro last rest hrest
  obtain ⟨t, ts, rfl, -⟩ := hrest.exists_cons
  exact ⟨trivial, fun _ => rfl⟩

/-- A token that ends no statement is not the last one. -/
theorem advance_pauses (hP : ∀ t, P t → (Lexical.kind t).isTerminator = false) :
    Pauses room P .advance := by
  intro last rest hrest
  obtain ⟨t, ts, rfl, ht⟩ := hrest.exists_cons
  exact ⟨hrest.tail (hP t ht), fun _ => rfl⟩

/-- A token of a sort that ends no statement is not the last one. -/
theorem advance_of (p : TokenKind → Bool) (hp : p .semicolon = false ∧ p .rightBrace = false) :
    Pauses room (fun t => P t ∧ p (Lexical.kind t) = true) .advance :=
  advance_pauses fun _ ht => TokenKind.isTerminator_eq_false hp ht.2

/-- Tokens that end no statement are read up to another one, which is there. -/
theorem acceptAll (hp : p .semicolon = false ∧ p .rightBrace = false) :
    Pauses room P (.acceptAll p) := by
  intro last rest hrest
  obtain ⟨htake, hdrop⟩ := take_length_takeWhile (fun t => p (Lexical.kind t)) rest
  have hsplit := List.takeWhile_append_dropWhile (p := fun t => p (Lexical.kind t)) (l := rest)
  have hne : rest.dropWhile (fun t => p (Lexical.kind t)) ≠ [] := by
    intro hnil
    obtain ⟨t, ht, hterm⟩ := hrest.last
    have hread := List.dropWhile_eq_nil_iff.1 hnil t (List.mem_of_getLast? ht)
    rw [TokenKind.isTerminator_eq_false hp hread] at hterm
    cases hterm
  obtain ⟨u, us, hu⟩ := List.exists_cons_of_ne_nil hne
  rw [← hsplit] at hrest
  constructor
  · rw [run_acceptAll, Outcome.reading, hdrop]
    exact .of_append _ hrest hne
  · intro more
    have hlook := (takeWhile_lookahead hu (us ++ more)).1
    rw [← List.cons_append, ← hu, ← List.append_assoc, hsplit] at hlook
    rw [run_acceptAll, run_acceptAll, hlook]
    exact Outcome.reading_append (List.takeWhile_prefix _).length_le last more

/-! ### Ways to combine rules -/

/-- **One rule after the other.** -/
theorem andThen (ha : Local room pre first mid) (hb : Local room mid second post) :
    Local room pre (first ++ second) post := by
  intro last rest hrest
  obtain ⟨hmid, happend⟩ := ha last rest hrest
  obtain ⟨hpost, happend'⟩ := hb (first.run room last rest).last _ hmid
  refine ⟨hpost, fun more => ?_⟩
  rw [run_append, run_append, happend, Outcome.followedBy, Outcome.before, happend']
  rfl

theorem wrap {kind : NodeKind} (h : Local room pre rule post) :
    Local room pre (.wrap kind rule) post := by
  intro last rest hrest
  obtain ⟨hpost, happend⟩ := h last rest hrest
  refine ⟨hpost, fun more => ?_⟩
  rw [run_wrap, run_wrap, happend]
  rfl

/-- A rule that depends on the next token. -/
theorem withNext {rule : α → Rule α} (h : ∀ t, P t → Local room (SettledAt (· = t)) (rule t) post) :
    Local room (SettledAt P) (.withNext rule) post := by
  intro last rest hrest
  obtain ⟨t, ts, rfl, ht⟩ := hrest.exists_cons
  exact h t ht last (t :: ts) { hrest with first := ⟨t, rfl, rfl⟩ }

/-- A rule that depends on the kind of the next token. -/
theorem peek {rule : Option TokenKind → Rule α}
    (h : ∀ t, P t → Local room (SettledAt (· = t)) (rule (some (Lexical.kind t))) post) :
    Local room (SettledAt P) (.peek rule) post := by
  intro last rest hrest
  obtain ⟨t, ts, rfl, ht⟩ := hrest.exists_cons
  exact h t ht last (t :: ts) { hrest with first := ⟨t, rfl, rfl⟩ }

/-- **A choice by the next token.** -/
theorem ifNext (hy : Local room (SettledAt fun t => P t ∧ p (Lexical.kind t) = true) yes post)
    (hn : Local room (SettledAt fun t => P t ∧ p (Lexical.kind t) = false) no post) :
    Local room (SettledAt P) (.ifNext p yes no) post := by
  refine peek fun t ht => ?_
  rw [Option.any_some]
  split
  · next hp => exact hy.of_head fun u hu => by rw [hu]; exact ⟨ht, hp⟩
  · next hp => exact hn.of_head fun u hu => by rw [hu]; exact ⟨ht, Bool.eq_false_iff.2 hp⟩

/-- A node whose kind and end depend on the token behind its first part. -/
theorem wrapBy {start : Rule α} {kind : Option TokenKind → NodeKind}
    {finish : Option TokenKind → Rule α} (ha : Local room pre start Settled)
    (hb : ∀ k, Local room (SettledAt fun t => Lexical.kind t = k) (finish (some k)) post) :
    Local room pre (.wrapBy start kind finish) post := by
  intro last rest hrest
  obtain ⟨hmid, happend⟩ := ha last rest hrest
  obtain ⟨t, ts, ht, -⟩ := hmid.exists_cons
  have hnext : (start.run room last rest).nextKind = some (Lexical.kind t) := by
    rw [Outcome.nextKind, ht]
    rfl
  have hnext' (more : List α) :
      ((start.run room last rest).before more).nextKind = some (Lexical.kind t) := by
    rw [Outcome.nextKind, Outcome.before, ht]
    rfl
  obtain ⟨hpost, happend'⟩ := hb (Lexical.kind t) (start.run room last rest).last _
    { hmid with first := ⟨t, by rw [ht]; rfl, rfl⟩ }
  refine ⟨by rwa [run_wrapBy, hnext], fun more => ?_⟩
  rw [run_wrapBy, run_wrapBy, happend, hnext, hnext', Outcome.followedBy, Outcome.before, happend']
  rfl

/-- A report across what a rule reads. -/
theorem complainAcross (h : Pauses room P rule) : Pauses room P (.complainAcross problem rule) := by
  refine withNext fun t ht => andThen (h.of_head ?_) complainSince
  rintro u rfl
  exact ht

/-- A token as an error node. -/
theorem reject : Halts room P (.reject problem) :=
  withNext fun _ _ => wrap (andThen complainAt advance)

/-- **A loop** whose turns stop before the end of the row. -/
theorem many (h : Pauses room (fun t => p (Lexical.kind t) = true) item) :
    Pauses room P (.many p item) := by
  intro last rest hrest
  induction hn : rest.length using Nat.strongRecOn generalizing P last rest with
  | _ n ih =>
    obtain ⟨t, ts, rfl, -⟩ := hrest.exists_cons
    simp only [List.cons_append, run_many, manyFrom]
    by_cases hp : p (Lexical.kind t) = true
    · simp only [if_pos hp]
      obtain ⟨hmid, happend⟩ := h last (t :: ts) { hrest with first := ⟨t, rfl, hp⟩ }
      generalize item.run room last (t :: ts) = a at hmid happend
      have hshorter (more : List α) :
          (a.before more).rest.length < (t :: (ts ++ more)).length
            ↔ a.rest.length < (t :: ts).length := by
        simp only [Outcome.before, List.length_append, List.length_cons]
        omega
      by_cases hlt : a.rest.length < (t :: ts).length
      · obtain ⟨hpost, hmore⟩ := ih _ (hn ▸ hlt) a.last a.rest hmid rfl
        rw [if_pos hlt]
        refine ⟨hpost, fun more => ?_⟩
        rw [← List.cons_append, happend, List.cons_append, if_pos ((hshorter more).2 hlt)]
        exact congrArg (a.join ·) (hmore more)
      · rw [if_neg hlt]
        refine ⟨hmid, fun more => ?_⟩
        rw [← List.cons_append, happend, List.cons_append, if_neg (mt (hshorter more).1 hlt)]
    · simp only [if_neg hp]
      exact ⟨hrest.settled, fun _ => rfl⟩

end Local

end Rule

end NginxConf
