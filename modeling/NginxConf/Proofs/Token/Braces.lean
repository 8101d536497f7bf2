import Mathlib.Data.List.Induction
import NginxConf.Grammar.Rule

/-!
# Matching braces

`matchBraces` finds the partners of braces with a stack, whatever else stands between them. A row of
tokens is `Whole` where no brace of it has its partner outside: then it can be matched apart from
what stands before it (`matchBraces_append`).
-/

namespace NginxConf

/-- What becomes of the braces of a row of tokens. -/
structure Braces (α : Type) where
  /-- The `{` that are not closed, the last one first. -/
  opened : List α
  /-- The pairs, in the order of their `}`. -/
  pairs : List (α × α)
  /-- The `}` that close nothing. -/
  unmatched : List α
deriving DecidableEq, Repr

namespace Braces

variable {α : Type}

/-- Nothing has been read. -/
def none : Braces α := ⟨[], [], []⟩

/-- The braces of a row of tokens before those of another one, where none has its partner in the
other row. -/
def join (b c : Braces α) : Braces α :=
  ⟨c.opened ++ b.opened, b.pairs ++ c.pairs, b.unmatched ++ c.unmatched⟩

@[simp]
theorem none_join (b : Braces α) : none.join b = b := by simp [join, none]

@[simp]
theorem join_none (b : Braces α) : b.join none = b := by simp [join, none]

theorem join_assoc (b c d : Braces α) : (b.join c).join d = b.join (c.join d) := by simp [join]

/-- The same braces in any order. -/
structure Alike (b c : Braces α) : Prop where
  opened : b.opened.Perm c.opened
  pairs : b.pairs.Perm c.pairs
  unmatched : b.unmatched.Perm c.unmatched

section Alike

variable {b b' c c' d : Braces α}

theorem Alike.refl (b : Braces α) : b.Alike b := ⟨.refl _, .refl _, .refl _⟩

theorem Alike.trans (h : b.Alike c) (h' : c.Alike d) : b.Alike d :=
  ⟨h.opened.trans h'.opened, h.pairs.trans h'.pairs, h.unmatched.trans h'.unmatched⟩

theorem Alike.symm (h : b.Alike c) : c.Alike b := ⟨h.opened.symm, h.pairs.symm, h.unmatched.symm⟩

theorem Alike.join (h : b.Alike b') (h' : c.Alike c') : (b.join c).Alike (b'.join c') :=
  ⟨h'.opened.append h.opened, h.pairs.append h'.pairs, h.unmatched.append h'.unmatched⟩

/-- Where every `}` of a whole is matched, every `}` of its parts is. -/
theorem Alike.unmatched_eq_nil (h : b.Alike (c.join d)) (hb : b.unmatched = []) :
    c.unmatched = [] ∧ d.unmatched = [] := by
  have hperm := h.unmatched
  rw [hb] at hperm
  exact List.append_eq_nil_iff.1 (List.nil_perm.1 hperm)

/-- Where a whole leaves no `{` open, none of its parts does. -/
theorem Alike.opened_eq_nil (h : b.Alike (c.join d)) (hb : b.opened = []) :
    c.opened = [] ∧ d.opened = [] := by
  have hperm := h.opened
  rw [hb] at hperm
  exact (List.append_eq_nil_iff.1 (List.nil_perm.1 hperm)).symm

theorem alike_join_comm (b c : Braces α) : (b.join c).Alike (c.join b) :=
  ⟨List.perm_append_comm, List.perm_append_comm, List.perm_append_comm⟩

/-- Which of the braces in the middle come first is of no importance. -/
theorem alike_join_join (b b' c c' : Braces α) :
    ((b.join b').join (c.join c')).Alike ((b.join c).join (b'.join c')) := by
  have hmiddle : (b'.join (c.join c')).Alike (c.join (b'.join c')) := by
    rw [← join_assoc, ← join_assoc]
    exact (alike_join_comm b' c).join (.refl _)
  rw [join_assoc, join_assoc]
  exact (Alike.refl b).join hmiddle

end Alike

/-- The braces of several rows of tokens. -/
def sum (bs : List (Braces α)) : Braces α := bs.foldr join none

theorem sum_append (bs cs : List (Braces α)) : sum (bs ++ cs) = (sum bs).join (sum cs) := by
  induction bs with
  | nil => simp [sum]
  | cons b bs ih => rw [List.cons_append, sum, List.foldr_cons, ← sum, ih, ← join_assoc]; rfl

theorem pairs_sum (bs : List (Braces α)) : (sum bs).pairs = bs.flatMap pairs := by
  induction bs with
  | nil => rfl
  | cons b bs ih => rw [List.flatMap_cons, ← ih]; rfl

theorem unmatched_sum (bs : List (Braces α)) : (sum bs).unmatched = bs.flatMap unmatched := by
  induction bs with
  | nil => rfl
  | cons b bs ih => rw [List.flatMap_cons, ← ih]; rfl

theorem opened_sum (bs : List (Braces α)) : (sum bs).opened.Perm (bs.flatMap opened) := by
  induction bs with
  | nil => exact .refl _
  | cons b bs ih =>
    rw [List.flatMap_cons]
    exact List.perm_append_comm.trans (.append (.refl _) ih)

/-- The braces with their tokens replaced. -/
def map {β : Type} (f : α → β) (b : Braces α) : Braces β :=
  ⟨b.opened.map f, b.pairs.map (Prod.map f f), b.unmatched.map f⟩

theorem map_map {β γ : Type} (f : α → β) (g : β → γ) (b : Braces α) :
    (b.map f).map g = b.map (g ∘ f) := by
  simp [map]

theorem map_sum {β : Type} (f : α → β) (bs : List (Braces α)) :
    (sum bs).map f = sum (bs.map (map f)) := by
  induction bs with
  | nil => rfl
  | cons b bs ih =>
    have hsum (b : Braces β) (bs : List (Braces β)) : sum (b :: bs) = b.join (sum bs) := rfl
    rw [List.map_cons, hsum, ← ih]
    simp [sum, join, map]

theorem Alike.map {β : Type} {b c : Braces α} (h : b.Alike c) (f : α → β) :
    (b.map f).Alike (c.map f) :=
  ⟨h.opened.map _, h.pairs.map _, h.unmatched.map _⟩

variable [Lexical α]

/-- What a further token does. -/
def step (b : Braces α) (t : α) : Braces α :=
  match Lexical.kind t, b.opened with
  | .leftBrace, _ => { b with opened := t :: b.opened }
  | .rightBrace, [] => { b with unmatched := b.unmatched ++ [t] }
  | .rightBrace, l :: ls => { b with opened := ls, pairs := b.pairs ++ [(l, t)] }
  | _, _ => b

section Step

variable {b c : Braces α} {t l : α} {ls : List α}

theorem step_leftBrace (h : Lexical.kind t = .leftBrace) :
    b.step t = { b with opened := t :: b.opened } := by
  simp only [step, h]

theorem step_unmatched (h : Lexical.kind t = .rightBrace) (hb : b.opened = []) :
    b.step t = { b with unmatched := b.unmatched ++ [t] } := by
  simp only [step, h, hb]

theorem step_matched (h : Lexical.kind t = .rightBrace) (hb : b.opened = l :: ls) :
    b.step t = { b with opened := ls, pairs := b.pairs ++ [(l, t)] } := by
  simp only [step, h, hb]

theorem step_other (hl : Lexical.kind t ≠ .leftBrace) (hr : Lexical.kind t ≠ .rightBrace) :
    b.step t = b := by
  unfold step
  split <;> simp_all

/-- A token can be read before or after a row is put behind another one. -/
theorem step_join (h : (c.step t).unmatched = [] ∨ b.opened = []) :
    (b.join c).step t = b.join (c.step t) := by
  by_cases hl : Lexical.kind t = .leftBrace
  · rw [step_leftBrace hl, step_leftBrace hl]
    rfl
  by_cases hr : Lexical.kind t = .rightBrace
  · cases hc : c.opened with
    | nil =>
      rw [step_unmatched hr hc] at h ⊢
      have hb : b.opened = [] := h.resolve_left (by simp)
      rw [step_unmatched hr (by simp [join, hb, hc])]
      simp [join]
    | cons l ls =>
      have hopened : (b.join c).opened = l :: (ls ++ b.opened) := by simp [join, hc]
      rw [step_matched hr hc, step_matched hr hopened]
      simp [join]
  · rw [step_other hl hr, step_other hl hr]

theorem unmatched_of_step (h : (c.step t).unmatched = []) : c.unmatched = [] := by
  unfold step at h
  split at h <;> simp_all

/-- As many braces are closed as there are `}` too many. -/
theorem opened_step {n : List α} (h : b.opened = c.opened ++ n.drop c.unmatched.length) :
    (b.step t).opened = (c.step t).opened ++ n.drop (c.step t).unmatched.length := by
  by_cases hl : Lexical.kind t = .leftBrace
  · simp [step_leftBrace hl, h]
  by_cases hr : Lexical.kind t = .rightBrace
  · cases hc : c.opened with
    | nil =>
      rw [hc, List.nil_append] at h
      rw [step_unmatched hr hc, hc, List.nil_append, List.length_append, List.length_singleton,
        ← List.drop_drop, ← h]
      cases hb : b.opened with
      | nil => rw [step_unmatched hr hb, hb]; rfl
      | cons l ls => rw [step_matched hr hb]; rfl
    | cons l ls =>
      rw [step_matched hr hc, step_matched hr (h.trans (congrArg (· ++ _) hc))]
      rfl
  · rw [step_other hl hr, step_other hl hr, h]

end Step

end Braces

variable {α : Type} [Lexical α] {t : α} {ts us vs rest : List α}

/-- **The partners of the braces of a row of tokens**, found with a stack. -/
def matchBraces (ts : List α) : Braces α := ts.foldl Braces.step .none

theorem matchBraces_concat (ts : List α) (t : α) :
    matchBraces (ts ++ [t]) = (matchBraces ts).step t := by
  rw [matchBraces, List.foldl_append]
  rfl

/-- A row of tokens of which no brace has its partner before it, or before which nothing is open. -/
theorem foldl_step {b : Braces α} (h : (matchBraces ts).unmatched = [] ∨ b.opened = []) :
    ts.foldl Braces.step b = b.join (matchBraces ts) := by
  induction ts using List.reverseRecOn with
  | nil => simp [matchBraces, Braces.join, Braces.none]
  | append_singleton ts t ih =>
    rw [matchBraces_concat] at h ⊢
    rw [List.foldl_append, ih (h.imp_left Braces.unmatched_of_step), List.foldl_cons,
      Braces.step_join h]
    rfl

/-- **Rows of tokens can be matched apart where no brace has its partner in the other one.** -/
theorem matchBraces_append (us : List α)
    (h : (matchBraces vs).unmatched = [] ∨ (matchBraces us).opened = []) :
    matchBraces (us ++ vs) = (matchBraces us).join (matchBraces vs) := by
  rw [matchBraces, List.foldl_append]
  exact foldl_step h

/-- What is left open, whatever stands before. -/
theorem opened_foldl_step (b : Braces α) (ts : List α) :
    (ts.foldl Braces.step b).opened
      = (matchBraces ts).opened ++ b.opened.drop (matchBraces ts).unmatched.length := by
  induction ts using List.reverseRecOn with
  | nil => simp [matchBraces, Braces.none]
  | append_singleton ts t ih =>
    rw [List.foldl_append, matchBraces_concat]
    exact Braces.opened_step ih

/-- Where nothing is left open in the end, nothing is left open in what comes last. -/
theorem opened_of_append (h : (matchBraces (us ++ vs)).opened = []) :
    (matchBraces vs).opened = [] := by
  rw [matchBraces, List.foldl_append, opened_foldl_step] at h
  exact (List.append_eq_nil_iff.1 h).1

/-- Tokens that are no braces change nothing. -/
theorem matchBraces_of_forall
    (h : ∀ t ∈ ts, Lexical.kind t ≠ .leftBrace ∧ Lexical.kind t ≠ .rightBrace) :
    matchBraces ts = .none := by
  rw [matchBraces]
  induction ts with
  | nil => rfl
  | cons t ts ih =>
    obtain ⟨hl, hr⟩ := h t List.mem_cons_self
    rw [List.foldl_cons, Braces.step_other hl hr]
    exact ih fun u hu => h u (List.mem_cons_of_mem _ hu)

/-- The `{` that are not closed, in the order in which they come. -/
theorem reverse_opened_sublist (ts : List α) :
    ((matchBraces ts).opened.reverse).Sublist (ts.filter (Lexical.kind · == .leftBrace)) := by
  induction ts using List.reverseRecOn with
  | nil => exact .refl _
  | append_singleton ts t ih =>
    rw [matchBraces_concat, List.filter_append]
    by_cases hl : Lexical.kind t = .leftBrace
    · rw [Braces.step_leftBrace hl, List.reverse_cons]
      exact ih.append (by simp [hl])
    refine .trans ?_ (ih.trans (List.sublist_append_left _ _))
    by_cases hr : Lexical.kind t = .rightBrace
    · cases hb : (matchBraces ts).opened with
      | nil =>
        simp [Braces.step_unmatched hr hb, hb]
      | cons l ls =>
        rw [Braces.step_matched hr hb, List.reverse_cons]
        exact List.sublist_append_left _ _
    · simp [Braces.step_other hl hr]

/-- The `}` that close nothing, in the order in which they come. -/
theorem unmatched_sublist (ts : List α) :
    (matchBraces ts).unmatched.Sublist (ts.filter (Lexical.kind · == .rightBrace)) := by
  induction ts using List.reverseRecOn with
  | nil => exact .refl _
  | append_singleton ts t ih =>
    rw [matchBraces_concat, List.filter_append]
    by_cases hl : Lexical.kind t = .leftBrace
    · rw [Braces.step_leftBrace hl]
      exact ih.trans (List.sublist_append_left _ _)
    by_cases hr : Lexical.kind t = .rightBrace
    · cases hb : (matchBraces ts).opened with
      | nil =>
        rw [Braces.step_unmatched hr hb]
        exact ih.append (by simp [hr])
      | cons l ls =>
        rw [Braces.step_matched hr hb]
        exact ih.trans (List.sublist_append_left _ _)
    · rw [Braces.step_other hl hr]
      exact ih.trans (List.sublist_append_left _ _)

/-- Tokens that are no braces may be left out. -/
theorem matchBraces_filter {p : α → Bool}
    (h : ∀ t, p t = false → Lexical.kind t ≠ .leftBrace ∧ Lexical.kind t ≠ .rightBrace) (ts : List α) :
    matchBraces (ts.filter p) = matchBraces ts := by
  rw [matchBraces, matchBraces, List.foldl_filter]
  congr 1
  funext b t
  split
  · rfl
  · next hp =>
    obtain ⟨hl, hr⟩ := h t (by simpa using hp)
    exact (Braces.step_other hl hr).symm

/-- What can be seen of the tokens is enough to match braces. -/
theorem matchBraces_map {β : Type} [Lexical β] {f : α → β}
    (hf : ∀ t, Lexical.kind (f t) = Lexical.kind t) (ts : List α) :
    matchBraces (ts.map f) = (matchBraces ts).map f := by
  induction ts using List.reverseRecOn with
  | nil => rfl
  | append_singleton ts t ih =>
    rw [List.map_append, List.map_singleton, matchBraces_concat, matchBraces_concat, ih]
    generalize matchBraces ts = b
    by_cases hl : Lexical.kind t = .leftBrace
    · rw [Braces.step_leftBrace hl, Braces.step_leftBrace ((hf t).trans hl)]
      rfl
    by_cases hr : Lexical.kind t = .rightBrace
    · cases hb : b.opened with
      | nil =>
        rw [Braces.step_unmatched hr hb,
          Braces.step_unmatched ((hf t).trans hr) (by simp [Braces.map, hb])]
        simp [Braces.map]
      | cons l ls =>
        rw [Braces.step_matched hr hb, Braces.step_matched ((hf t).trans hr)
          (show (b.map f).opened = f l :: ls.map f by simp [Braces.map, hb])]
        simp [Braces.map]
    · rw [Braces.step_other hl hr, Braces.step_other (hf t ▸ hl) (hf t ▸ hr)]

/-! ## Rows that close what they open -/

/-- No brace of a row has its partner outside of it, unless the text ends before it is closed. -/
structure Whole (ts rest : List α) : Prop where
  unmatched : (matchBraces ts).unmatched = []
  opened : (matchBraces ts).opened ≠ [] → rest = []

theorem Whole.of_forall
    (h : ∀ t ∈ ts, Lexical.kind t ≠ .leftBrace ∧ Lexical.kind t ≠ .rightBrace) :
    Whole ts rest := by
  constructor <;> simp [matchBraces_of_forall h, Braces.none]

/-- A row that is whole, followed by one that is. -/
theorem Whole.append (hus : Whole us (vs ++ rest)) (hvs : Whole vs rest) : Whole (us ++ vs) rest := by
  have happend := matchBraces_append us (.inl hvs.unmatched)
  constructor
  · simp [happend, Braces.join, hus.unmatched, hvs.unmatched]
  · intro hopened
    by_cases hv : (matchBraces vs).opened = []
    · rw [happend, Braces.join, hv, List.nil_append] at hopened
      exact (List.append_eq_nil_iff.1 (hus.opened hopened)).2
    · exact hvs.opened hv

/-! ## Rows between braces -/

section Enclosed

variable {l r : α}

theorem matchBraces_open (hl : Lexical.kind l = .leftBrace) : matchBraces [l] = ⟨[l], [], []⟩ := by
  simp [matchBraces, Braces.step_leftBrace hl, Braces.none]

theorem matchBraces_stray (hr : Lexical.kind r = .rightBrace) :
    matchBraces [r] = ⟨[], [], [r]⟩ := by
  simp [matchBraces, Braces.step_unmatched hr, Braces.none]

theorem matchBraces_pair (hl : Lexical.kind l = .leftBrace) (hr : Lexical.kind r = .rightBrace) :
    matchBraces [l, r] = ⟨[], [(l, r)], []⟩ := by
  rw [← List.singleton_append, matchBraces_concat, matchBraces_open hl, Braces.step_matched hr rfl]
  rfl

/-- After a `{`, where the text ends before the `}`. -/
theorem matchBraces_cons (hts : Whole ts rest) :
    matchBraces (l :: ts) = (matchBraces [l]).join (matchBraces ts) :=
  matchBraces_append [l] (.inl hts.unmatched)

/-- **Between braces**, whatever is opened is closed. -/
theorem matchBraces_enclosed (hl : Lexical.kind l = .leftBrace) (hr : Lexical.kind r = .rightBrace)
    (hts : Whole ts (r :: rest)) :
    (matchBraces (l :: ts ++ [r])).Alike ((matchBraces [l, r]).join (matchBraces ts)) := by
  have hopened : (matchBraces ts).opened = [] := by
    by_contra h
    exact List.cons_ne_nil _ _ (hts.opened h)
  rw [matchBraces_concat, matchBraces_cons hts, matchBraces_open hl, matchBraces_pair hl hr,
    Braces.step_matched hr (show (Braces.join _ _).opened = [l] by simp [Braces.join, hopened])]
  refine ⟨by simp [Braces.join, hopened], ?_, .refl _⟩
  exact List.perm_append_comm

end Enclosed

/-- Braces that are open are closed by a group of tokens, unless the text ends before. -/
theorem whole_groupLength (ts : List α) {b : Braces α} (hb : b.opened ≠ []) (hu : b.unmatched = []) :
    ((ts.take (groupLength b.opened.length ts)).foldl Braces.step b).unmatched = [] ∧
      (((ts.take (groupLength b.opened.length ts)).foldl Braces.step b).opened ≠ [] →
        ts.drop (groupLength b.opened.length ts) = []) := by
  induction ts generalizing b with
  | nil => exact ⟨hu, fun _ => rfl⟩
  | cons t ts ih =>
    by_cases hl : Lexical.kind t = .leftBrace
    · rw [groupLength_leftBrace hl, List.take_succ_cons, List.drop_succ_cons, List.foldl_cons]
      have h := ih (b := b.step t) (by simp [Braces.step_leftBrace hl])
        (by simp [Braces.step_leftBrace hl, hu])
      rwa [show (b.step t).opened.length = b.opened.length + 1 by
        simp [Braces.step_leftBrace hl]] at h
    by_cases hr : Lexical.kind t = .rightBrace
    · obtain ⟨l, ls, hls⟩ := List.exists_cons_of_ne_nil hb
      have hstep := Braces.step_matched (b := b) hr hls
      cases ls with
      | nil =>
        rw [groupLength_rightBrace hr, hls, if_pos (by simp), List.take_succ_cons,
          List.drop_succ_cons, List.take_zero, List.foldl_cons, List.foldl_nil, hstep]
        exact ⟨hu, fun h => absurd rfl h⟩
      | cons l' ls =>
        rw [groupLength_rightBrace hr, hls, if_neg (by simp), List.take_succ_cons,
          List.drop_succ_cons, List.foldl_cons]
        have h := ih (b := b.step t) (by simp [hstep]) (by simp [hstep, hu])
        rwa [show (b.step t).opened.length = (l :: l' :: ls).length - 1 by simp [hstep]] at h
    · rw [groupLength_other hl hr, List.take_succ_cons, List.drop_succ_cons, List.foldl_cons,
        Braces.step_other hl hr]
      exact ih hb hu

/-- **A raw group is whole.** -/
theorem whole_group (h : Lexical.kind t = .leftBrace) :
    Whole ((t :: ts).take (groupLength 0 (t :: ts))) ((t :: ts).drop (groupLength 0 (t :: ts))) := by
  have hgroup := whole_groupLength ts (b := Braces.none.step t)
    (by simp [Braces.step_leftBrace h]) (by simp [Braces.step_leftBrace h, Braces.none])
  rw [show (Braces.none.step t).opened.length = 0 + 1 by
    simp [Braces.step_leftBrace h, Braces.none]] at hgroup
  rw [groupLength_leftBrace h, List.take_succ_cons, List.drop_succ_cons]
  exact ⟨hgroup.1, hgroup.2⟩

/-! ## Pairs do not cross -/

/-- What is left open stands in the row. -/
theorem mem_of_mem_opened {l : α} (h : l ∈ (matchBraces ts).opened) :
    l ∈ ts ∧ Lexical.kind l = .leftBrace := by
  have hsub := (reverse_opened_sublist ts).subset (List.mem_reverse.2 h)
  exact (List.mem_filter.1 hsub).imp_right beq_iff_eq.1

/-- What closes nothing stands in the row. -/
theorem mem_of_mem_unmatched {r : α} (h : r ∈ (matchBraces ts).unmatched) :
    r ∈ ts ∧ Lexical.kind r = .rightBrace :=
  (List.mem_filter.1 ((unmatched_sublist ts).subset h)).imp_right beq_iff_eq.1

/-- The braces of a pair stand in the row. -/
theorem mem_of_mem_pairs {l r : α} (h : (l, r) ∈ (matchBraces ts).pairs) :
    (l ∈ ts ∧ Lexical.kind l = .leftBrace) ∧ r ∈ ts ∧ Lexical.kind r = .rightBrace := by
  induction ts using List.reverseRecOn with
  | nil => cases h
  | append_singleton ts t ih =>
    have hmore (h : (l, r) ∈ (matchBraces ts).pairs) :
        (l ∈ ts ++ [t] ∧ Lexical.kind l = .leftBrace) ∧
          r ∈ ts ++ [t] ∧ Lexical.kind r = .rightBrace := by
      obtain ⟨⟨hl, hlk⟩, hr, hrk⟩ := ih h
      exact ⟨⟨List.mem_append_left _ hl, hlk⟩, List.mem_append_left _ hr, hrk⟩
    rw [matchBraces_concat] at h
    by_cases hl : Lexical.kind t = .leftBrace
    · rw [Braces.step_leftBrace hl] at h
      exact hmore h
    by_cases hr : Lexical.kind t = .rightBrace
    · cases hb : (matchBraces ts).opened with
      | nil =>
        rw [Braces.step_unmatched hr hb] at h
        exact hmore h
      | cons k ks =>
        rw [Braces.step_matched hr hb] at h
        rcases List.mem_append.1 h with h | h
        · exact hmore h
        · obtain ⟨rfl, rfl⟩ := Prod.mk.inj (List.mem_singleton.1 h)
          obtain ⟨hmem, hkind⟩ := mem_of_mem_opened (hb ▸ List.mem_cons_self : l ∈ _)
          exact ⟨⟨List.mem_append_left _ hmem, hkind⟩, by simp, hr⟩
    · rw [Braces.step_other hl hr] at h
      exact hmore h

/-- How the braces of a row stand to each other, where `R` is the order of the row. -/
structure Braces.Laminar (R : α → α → Prop) (b : Braces α) : Prop where
  opened : b.opened.Pairwise fun k l => R l k
  ordered : ∀ p ∈ b.pairs, R p.1 p.2
  /-- A `{` that is left open stands before all of a pair or after all of it. -/
  opened_apart : ∀ l ∈ b.opened, ∀ p ∈ b.pairs, R p.2 l ∨ R l p.1
  /-- So does a `}` that closes nothing. -/
  unmatched_apart : ∀ r ∈ b.unmatched, ∀ p ∈ b.pairs, R p.2 r ∨ R r p.1
  /-- What is left open comes after all that closes nothing. -/
  unmatched_first : ∀ r ∈ b.unmatched, ∀ l ∈ b.opened, R r l
  /-- Of two pairs, the first one ends before the other one begins, or stands inside of it. -/
  pairs : b.pairs.Pairwise fun p q => R p.2 q.2 ∧ (R p.2 q.1 ∨ R q.1 p.1)

theorem Braces.Laminar.step {R : α → α → Prop} {b : Braces α} (h : b.Laminar R)
    (hopened : ∀ l ∈ b.opened, R l t) (hunmatched : ∀ r ∈ b.unmatched, R r t)
    (hpairs : ∀ p ∈ b.pairs, R p.2 t) : (b.step t).Laminar R := by
  by_cases hl : Lexical.kind t = .leftBrace
  · rw [step_leftBrace hl]
    exact { h with
      opened := List.pairwise_cons.2 ⟨hopened, h.opened⟩
      opened_apart := List.forall_mem_cons.2 ⟨fun p hp => .inl (hpairs p hp), h.opened_apart⟩
      unmatched_first := fun r hr =>
        List.forall_mem_cons.2 ⟨hunmatched r hr, h.unmatched_first r hr⟩ }
  by_cases hr : Lexical.kind t = .rightBrace
  · cases hb : b.opened with
    | nil =>
      rw [step_unmatched hr hb]
      exact { h with
        unmatched_apart := List.forall_mem_append.2
          ⟨h.unmatched_apart, List.forall_mem_singleton.2 fun p hp => .inl (hpairs p hp)⟩
        unmatched_first := by rw [hb]; rintro r - l ⟨⟩ }
    | cons l ls =>
      rw [step_matched hr hb]
      have hl : l ∈ b.opened := by rw [hb]; exact List.mem_cons_self
      have hls : ∀ k ∈ ls, k ∈ b.opened := fun k hk => by rw [hb]; exact List.mem_cons_of_mem _ hk
      obtain ⟨hbefore, htail⟩ := List.pairwise_cons.1 (hb ▸ h.opened)
      constructor
      case opened => exact htail
      case ordered =>
        exact List.forall_mem_append.2 ⟨h.ordered, List.forall_mem_singleton.2 (hopened l hl)⟩
      case opened_apart =>
        intro k hk
        exact List.forall_mem_append.2
          ⟨h.opened_apart k (hls k hk), List.forall_mem_singleton.2 (.inr (hbefore k hk))⟩
      case unmatched_apart =>
        intro k hk
        exact List.forall_mem_append.2 ⟨h.unmatched_apart k hk,
          List.forall_mem_singleton.2 (.inr (h.unmatched_first k hk l hl))⟩
      case unmatched_first => exact fun r hr k hk => h.unmatched_first r hr k (hls k hk)
      case pairs =>
        refine List.pairwise_append.2 ⟨h.pairs, List.pairwise_singleton _ _, fun p hp q hq => ?_⟩
        rw [List.mem_singleton.1 hq]
        exact ⟨hpairs p hp, h.opened_apart l hl p hp⟩
  · rw [step_other hl hr]
    exact h

/-- **Pairs of braces do not cross.** -/
theorem laminar_matchBraces {R : α → α → Prop} (h : ts.Pairwise R) :
    (matchBraces ts).Laminar R := by
  induction ts using List.reverseRecOn with
  | nil => constructor <;> simp [matchBraces, Braces.none]
  | append_singleton ts t ih =>
    obtain ⟨hts, -, hlast⟩ := List.pairwise_append.1 h
    have hlast (u : α) (hu : u ∈ ts) : R u t := hlast u hu t List.mem_cons_self
    rw [matchBraces_concat]
    exact (ih hts).step (fun l hl => hlast l (mem_of_mem_opened hl).1)
      (fun r hr => hlast r (mem_of_mem_unmatched hr).1)
      fun p hp => hlast p.2 (mem_of_mem_pairs hp).2.1

end NginxConf
