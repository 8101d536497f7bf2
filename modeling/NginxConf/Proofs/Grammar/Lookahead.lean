import NginxConf.Proofs.Grammar.Sound
import NginxConf.Proofs.Lexeme.Lookahead
import NginxConf.Proofs.Tree.Hole

/-!
# How far rules look ahead

What a rule returns depends on the tokens that it reads and on the next one, and on nothing behind
it (`Runs.run_lookahead`). Only at the end of the tokens may it be otherwise: a raw group that the
end cuts off would go on.
-/

namespace NginxConf

variable {α : Type}

/-- As many elements as can be read are those that are. -/
theorem take_length_takeWhile (p : α → Bool) (xs : List α) :
    xs.take (xs.takeWhile p).length = xs.takeWhile p ∧
      xs.drop (xs.takeWhile p).length = xs.dropWhile p := by
  have htake := (List.prefix_iff_eq_take.1 (List.takeWhile_prefix (l := xs) p)).symm
  have hdrop : xs.takeWhile p ++ xs.drop (xs.takeWhile p).length
      = xs.takeWhile p ++ xs.dropWhile p := by
    rw [List.takeWhile_append_dropWhile]
    exact (congrArg (· ++ _) htake.symm).trans (List.take_append_drop _ _)
  exact ⟨htake, List.append_cancel_left hdrop⟩

variable [Lexical α]

/-- A raw group that ends before the tokens do is as long whatever follows it. -/
theorem groupLength_lookahead {opened : Nat} {rest : List α}
    (h : groupLength opened rest < rest.length) (rest' : List α) :
    groupLength opened (rest.take (groupLength opened rest) ++ rest')
      = groupLength opened rest := by
  induction rest generalizing opened with
  | nil => exact absurd h (Nat.not_lt_zero _)
  | cons t ts ih =>
    have step : ∀ opened', groupLength opened' ts + 1 < (t :: ts).length →
        groupLength opened' (ts.take (groupLength opened' ts) ++ rest') + 1
          = groupLength opened' ts + 1 :=
      fun opened' hlt => congrArg (· + 1) (ih (Nat.lt_of_succ_lt_succ hlt))
    by_cases hl : Lexical.kind t = .leftBrace
    · rw [groupLength_leftBrace hl] at h ⊢
      rw [List.take_succ_cons, List.cons_append, groupLength_leftBrace hl]
      exact step _ h
    · by_cases hr : Lexical.kind t = .rightBrace
      · rw [groupLength_rightBrace hr] at h ⊢
        split at h
        · next hopened =>
          rw [if_pos hopened, List.take_succ_cons, List.cons_append, groupLength_rightBrace hr,
            if_pos hopened]
        · next hopened =>
          rw [if_neg hopened, List.take_succ_cons, List.cons_append, groupLength_rightBrace hr,
            if_neg hopened]
          exact step _ h
      · rw [groupLength_other hl hr] at h ⊢
        rw [List.take_succ_cons, List.cons_append, groupLength_other hl hr]
        exact step _ h

/-- Reading so many of the tokens is the same whatever follows them. -/
theorem reading_lookahead {n : Nat} {rest : List α} (h : n ≤ rest.length) (last : α)
    (rest' : List α) :
    Outcome.reading n last (rest.take n ++ rest')
      = { Outcome.reading n last rest with rest := rest' } := by
  have hlength : (rest.take n).length = n := by rw [List.length_take, Nat.min_eq_left h]
  have htake : (rest.take n ++ rest').take n = rest.take n := List.take_left' hlength
  have hdrop : (rest.take n ++ rest').drop n = rest' := List.drop_left' hlength
  simp only [Outcome.reading, htake, hdrop]

namespace Rule

variable {room : Nat} {last t : α} {rest ts : List α} {p : TokenKind → Bool} {item : Rule α}

/-- A loop at whose end the next token is of another kind. -/
theorem run_many_stop (h : ∀ t ∈ rest.head?, p (Lexical.kind t) = false) :
    (many p item).run room last rest = .idle last rest := by
  cases rest with
  | nil => rw [run_many, manyFrom]
  | cons t ts => rw [run_many, manyFrom, if_neg (Bool.eq_false_iff.1 (h t rfl))]

/-- A turn of a loop that reads something. -/
theorem run_many_step (hp : p (Lexical.kind t) = true)
    (hlt : (item.run room last (t :: ts)).rest.length < (t :: ts).length) :
    (many p item).run room last (t :: ts)
      = (item.run room last (t :: ts)).followedBy ((many p item).run room) := by
  rw [run_many, manyFrom]
  simp only [hp, if_true, if_pos hlt]
  rfl

end Rule

/-- **What a rule returns depends on what it reads and on the next token only.** -/
theorem Runs.run_lookahead {room : Nat} {known seen : List α} {rule : Rule α} {last : α}
    {rest : List α} {a : Outcome α} (h : Runs room known seen rule last rest a)
    (hne : a.rest ≠ []) {rest' : List α} (hhead : rest'.head? = a.rest.head?) :
    rule.run room last (a.read ++ rest') = { a with rest := rest' } := by
  -- where one rule follows another, the first one is followed by what the second one reads
  have follow : ∀ {a b : Outcome α} {rest' : List α}, b.read ++ b.rest = a.rest → b.rest ≠ [] →
      rest'.head? = b.rest.head? → a.rest ≠ [] ∧ (b.read ++ rest').head? = a.rest.head? := by
    intro a b rest' hrest hne hhead
    rw [← hrest]
    exact ⟨List.append_ne_nil_of_right_ne_nil _ hne, head?_append_congr hhead⟩
  induction h generalizing rest' with
  | done | complain | complainSince | complainAt => rfl
  | @andThen _ _ _ first second last _ a b _ hb iha ihb =>
    obtain ⟨hne', hhead'⟩ := follow hb.read_append_rest hne hhead
    rw [Outcome.read_join, List.append_assoc]
    show ((first.run _ last _).followedBy (second.run _)) = _
    rw [iha hne' hhead', Outcome.followedBy, ihb hne hhead]
    rfl
  | wrap _ _ ih =>
    rw [Outcome.read_wrapped, Rule.run_wrap, ih hne hhead]
    rfl
  | atEnd => exact absurd rfl hne
  | withNext ha hr ih =>
    obtain ⟨us, hus⟩ := ha.exists_read_eq_cons hr
    have hrule := ih hne hhead
    rw [hus, List.cons_append] at hrule ⊢
    exact hrule
  | peek ha ih =>
    rw [Rule.run_peek, head?_append_congr hhead, ha.read_append_rest]
    exact ih hne hhead
  | @advance _ _ _ last rest =>
    rw [Outcome.read_reading]
    refine reading_lookahead ?_ last rest'
    cases rest with
    | nil => exact absurd rfl hne
    | cons t ts => exact Nat.succ_le_succ (Nat.zero_le _)
  | @acceptAll _ _ _ p last rest =>
    obtain ⟨htake, hdrop⟩ := take_length_takeWhile (fun t => p (Lexical.kind t)) rest
    have hle : (rest.takeWhile fun t => p (Lexical.kind t)).length ≤ rest.length := by
      rw [← htake, List.length_take]
      exact Nat.min_le_right _ _
    have hrest : rest.drop (rest.takeWhile fun t => p (Lexical.kind t)).length ≠ [] := hne
    rw [hdrop] at hrest
    obtain ⟨t, ts, hcut⟩ := List.exists_cons_of_ne_nil hrest
    have hhead : rest'.head? = some t := by
      rw [hhead]
      show (rest.drop _).head? = _
      rw [hdrop, hcut]
      rfl
    obtain ⟨ts', rfl⟩ := List.head?_eq_some_iff.1 hhead
    have hreading := reading_lookahead hle last (t :: ts')
    rw [htake] at hreading
    rw [Outcome.read_reading, Rule.run_acceptAll, htake, (takeWhile_lookahead hcut ts').1]
    exact hreading
  | @rawGroup _ _ _ last rest =>
    have hlt : groupLength 0 rest < rest.length :=
      Nat.lt_of_not_le fun hle => hne (List.drop_eq_nil_of_le hle)
    rw [Outcome.read_reading, Rule.run_rawGroup, groupLength_lookahead hlt]
    exact reading_lookahead (Nat.le_of_lt hlt) last rest'
  | @wrapBy _ _ _ start kind finish last _ a b _ _ hb iha ihb =>
    obtain ⟨hne', hhead'⟩ := follow hb.read_append_rest hne hhead
    have hnext : Outcome.nextKind { a with rest := b.read ++ rest' } = a.nextKind := by
      rw [Outcome.nextKind, Outcome.nextKind, hhead']
    rw [Outcome.read_wrapped, Outcome.read_join, List.append_assoc, Rule.run_wrapBy,
      iha hne' hhead', hnext, Outcome.followedBy, ihb hne hhead]
    rfl
  | manyStop hp =>
    exact Rule.run_many_stop fun t ht => hp t ((show rest'.head? = _ from hhead) ▸ ht)
  | @manyStep _ _ _ p item last t ts a b hp ha hr hb iha ihb =>
    obtain ⟨hne', hhead'⟩ := follow hb.read_append_rest hne hhead
    obtain ⟨us, hus⟩ := ha.exists_read_eq_cons hr
    have hitem := iha hne' hhead'
    rw [hus, List.cons_append] at hitem
    have hshort : (b.read ++ rest').length < (t :: (us ++ (b.read ++ rest'))).length :=
      Nat.lt_succ_of_le (List.suffix_append us _).length_le
    rw [Outcome.read_join, List.append_assoc, hus, List.cons_append, Rule.run_many_step hp, hitem,
      Outcome.followedBy, ihb hne hhead]
    · rfl
    · rw [hitem]
      exact hshort
  | @tooDeep _ _ _ last t ts a hb ha ih =>
    have hread : t ∈ a.read := by
      cases ha with
      | withNext _ hr => exact hr
    obtain ⟨us, hus⟩ := ha.exists_read_eq_cons hread
    have hdeep := ih hne hhead
    rw [hus, List.cons_append] at hdeep ⊢
    exact hdeep
  | @block room _ _ shape last t ts a hb ha ih =>
    obtain ⟨us, hus⟩ := ha.exists_read_eq_cons ha.mem_read_braced
    have hbraced := ih hne hhead
    rw [Outcome.read_wrapped, hus, List.cons_append] at *
    show Outcome.wrapped _ ((Rule.braced t shape).run room last (t :: _)) = _
    rw [hbraced]
    rfl

end NginxConf
