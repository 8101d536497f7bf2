import NginxConf.Proofs.Grammar.Reported

/-!
# The order of reports

Reports are not made in the order of the places that they are about: an unclosed brace is reported
at the end of its block. What can be relied on is that nothing is found to be missing behind a token
once a later token has been reported (`Reported.timely`). The two places may touch, and then only
the order in which the reports were made says which of them comes first.
-/

namespace NginxConf

variable {α : Type}

/-- The token at which a place begins, or after which it is. -/
def Place.first : Place α → α
  | .across first _ => first
  | .after token => token

/-- No token that is reported comes later than one after which something is found missing later on.
The order of the tokens is `le`. -/
structure Timely (le : α → α → Prop) (last : α) (a : Outcome α) : Prop where
  first_le : ∀ i ∈ a.issues, le i.place.first a.last
  le_after : ∀ i ∈ a.issues, ∀ t, i.place = .after t → le last t
  pairwise : a.issues.Pairwise fun i j => ∀ t, j.place = .after t → le i.place.first t

namespace Timely

variable {le : α → α → Prop} {last : α} {rest : List α} {a b : Outcome α}

/-- A single report that is not about something missing. -/
theorem across {problem : Problem} {first final : α} (h : le first last) :
    Timely le last ⟨[], [⟨problem, .across first final⟩], last, rest⟩ where
  first_le := by
    intro i hi
    rw [List.mem_singleton.1 hi]
    exact h
  le_after := by
    intro i hi t ht
    rw [List.mem_singleton.1 hi] at ht
    cases ht
  pairwise := List.pairwise_singleton _ _

theorem wrapped {kind : NodeKind} (h : Timely le last a) : Timely le last (a.wrapped kind) :=
  ⟨h.first_le, h.le_after, h.pairwise⟩

/-- What follows in time is in time, too. -/
theorem join (htrans : ∀ {t u v}, le t u → le u v → le t v) (ha : Timely le last a)
    (hb : Timely le a.last b) (hlast : le last a.last) (hmore : le a.last b.last) :
    Timely le last (a.join b) where
  first_le := by
    intro i hi
    rcases List.mem_append.1 hi with hi | hi
    · exact htrans (ha.first_le i hi) hmore
    · exact hb.first_le i hi
  le_after := by
    intro i hi t ht
    rcases List.mem_append.1 hi with hi | hi
    · exact ha.le_after i hi t ht
    · exact htrans hlast (hb.le_after i hi t ht)
  pairwise := by
    refine List.pairwise_append.2 ⟨ha.pairwise, hb.pairwise, fun i hi j hj t ht => ?_⟩
    exact htrans (ha.first_le i hi) (hb.le_after j hj t ht)

end Timely

/-- The last one of tokens in order comes after all of them. -/
theorem le_getLast {le : α → α → Prop} (hrefl : ∀ t, le t t) {last : α} {ts : List α}
    (h : (last :: ts).Pairwise le) : ∀ t ∈ last :: ts, le t (ts.getLast?.getD last) := by
  intro t ht
  cases hlast : ts.getLast? with
  | none =>
    rw [List.getLast?_eq_none_iff.1 hlast] at ht
    rw [List.mem_singleton.1 ht]
    exact hrefl last
  | some u =>
    obtain ⟨us, rfl⟩ := List.getLast?_eq_some_iff.1 hlast
    rw [← List.cons_append] at h ht
    rcases List.mem_append.1 ht with ht | ht
    · exact (List.pairwise_append.1 h).2.2 t ht u List.mem_cons_self
    · rw [List.mem_singleton.1 ht]
      exact hrefl u

namespace Reported

variable [Lexical α] {le : α → α → Prop} (hrefl : ∀ t, le t t)
  (htrans : ∀ {t u v}, le t u → le u v → le t v)
variable {seen : List α} {last : α} {a : Outcome α}

include hrefl

theorem le_last (h : Reported seen last a) (hread : (last :: a.read).Pairwise le) :
    ∀ t ∈ last :: a.read, le t a.last := by
  rw [h.last_eq]
  exact le_getLast hrefl hread

/-- A malformed token is reported when it is read. -/
theorem timely_reading {n : Nat} {rest : List α}
    (hread : (last :: (Outcome.reading n last rest).read).Pairwise le) :
    Timely le last (Outcome.reading n last rest) := by
  have hplace : ∀ i ∈ (Outcome.reading n last rest).issues,
      ∃ t ∈ (Outcome.reading n last rest).read, i.place = .across t t := by
    intro i hi
    obtain ⟨t, ht, hi⟩ := List.mem_flatMap.1 hi
    rw [Outcome.faultOf] at hi
    split at hi
    · exact ⟨t, by rwa [Outcome.read_reading], by rw [List.mem_singleton.1 hi]⟩
    · cases hi
  have hafter : ∀ i ∈ (Outcome.reading n last rest).issues, ∀ t, i.place ≠ .after t := by
    intro i hi t ht
    obtain ⟨u, -, hu⟩ := hplace i hi
    rw [hu] at ht
    cases ht
  constructor
  · intro i hi
    obtain ⟨t, ht, hi⟩ := hplace i hi
    have hreported : Reported [] last (.reading n last rest) := .reading
    rw [hi]
    exact le_last hrefl hreported hread t (List.mem_cons_of_mem _ ht)
  · exact fun i hi t ht => absurd ht (hafter i hi t)
  · exact List.pairwise_of_forall_mem_list fun i _ j hj t ht => absurd ht (hafter j hj t)

include htrans

/-- **Reports come in time**, where the tokens come in order. -/
theorem timely (h : Reported seen last a) (hseen : ∀ t ∈ seen, le t last)
    (hread : (last :: a.read).Pairwise le) : Timely le last a := by
  induction h with
  | idle => exact ⟨by simp [Outcome.idle], by simp [Outcome.idle], .nil⟩
  | missing =>
    refine ⟨?_, ?_, List.pairwise_singleton _ _⟩
    · intro i hi
      rw [List.mem_singleton.1 hi]
      exact hrefl _
    · intro i hi t ht
      rw [List.mem_singleton.1 hi] at ht
      cases ht
      exact hrefl _
  | since hf => exact .across (hseen _ hf)
  | back ht => exact .across (hseen _ ht)
  | reading => exact timely_reading hrefl hread
  | malformed =>
    rw [Outcome.read_wrapped] at hread
    exact (timely_reading hrefl hread).wrapped
  | wrapped _ _ ih =>
    rw [Outcome.read_wrapped] at hread
    exact (ih hseen hread).wrapped
  | @join seen last a b ha hb iha ihb =>
    rw [Outcome.read_join, ← List.cons_append] at hread
    obtain ⟨hfirst, hmore, hcross⟩ := List.pairwise_append.1 hread
    have hmem : a.last ∈ last :: a.read := by
      rw [ha.last_eq]
      cases hlast : a.read.getLast? with
      | none => exact List.mem_cons_self
      | some t => exact List.mem_cons_of_mem _ (List.mem_of_getLast? hlast)
    have hle := ha.le_last hrefl hfirst
    have hsecond : (a.last :: b.read).Pairwise le :=
      List.pairwise_cons.2 ⟨fun t ht => hcross _ hmem t ht, hmore⟩
    refine (iha hseen hfirst).join htrans (ihb ?_ hsecond) (hle last List.mem_cons_self)
      (hb.le_last hrefl hsecond _ List.mem_cons_self)
    intro t ht
    rcases List.mem_append.1 ht with ht | ht
    · exact htrans (hseen t ht) (hle last List.mem_cons_self)
    · exact hle t (List.mem_cons_of_mem _ ht)
  | @rejected seen first problem last a _ _ hf ha ih =>
    have happend : (last :: a.read).Pairwise le := by
      rw [Outcome.read_wrapped, Outcome.read_join] at hread
      exact (List.append_nil a.read) ▸ hread
    have hle := ha.le_last hrefl happend
    refine Timely.wrapped ((ih hseen happend).join htrans ?_ (hle last List.mem_cons_self)
      (hrefl a.last))
    exact .across (hle first (List.mem_cons_of_mem _ (List.mem_of_head? hf)))
  | @refused seen first problem last rest a _ _ hf ha ih =>
    obtain ⟨us, hus⟩ := List.head?_eq_some_iff.1 hf
    rw [Outcome.read_wrapped, Outcome.read_join] at hread
    obtain ⟨hfirst, hmore⟩ := List.pairwise_cons.1 (show (last :: a.read).Pairwise le from hread)
    have hstart : le last first := hfirst first (List.mem_of_head? hf)
    -- the token before is not asked for, so the first one may stand for it
    have hagain : (first :: a.read).Pairwise le := by
      rw [hus] at hmore ⊢
      refine List.pairwise_cons.2 ⟨fun t ht => ?_, hmore⟩
      rcases List.mem_cons.1 ht with rfl | ht
      · exact hrefl _
      · exact (List.pairwise_cons.1 hmore).1 t ht
    have htimely := ih first (fun t ht => htrans (hseen t ht) hstart) hagain
    have hend : le first a.last := (ha first).le_last hrefl hagain first List.mem_cons_self
    refine Timely.wrapped ⟨?_, ?_, ?_⟩
    · intro i hi
      rcases List.mem_cons.1 hi with rfl | hi
      · exact hend
      · exact htimely.first_le i hi
    · intro i hi t ht
      rcases List.mem_cons.1 hi with rfl | hi
      · cases ht
      · exact htrans hstart (htimely.le_after i hi t ht)
    · exact List.pairwise_cons.2 ⟨fun i hi t ht => htimely.le_after i hi t ht, htimely.pairwise⟩

end Reported

end NginxConf
