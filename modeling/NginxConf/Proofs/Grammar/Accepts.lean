import NginxConf.Proofs.Grammar.Sound

/-!
# Runs without errors

A rule *accepts* tokens up to some point where it reads just these and reports nothing but what is
harmless. Which token came before plays no role for that (`run_alike`), so acceptance composes: one
rule after the other accepts what the first one and then the second one accepts.
-/

namespace NginxConf

variable {α : Type} [Lexical α]

namespace Outcome

/-- Nothing is reported but what is harmless. -/
def Clean (a : Outcome α) : Prop := ∀ i ∈ a.issues, i.problem.isWarning = true

/-- Two outcomes that differ at most in which token is the last one, and in places. -/
structure Alike (a b : Outcome α) : Prop where
  trees : a.trees = b.trees
  rest : a.rest = b.rest
  problems : a.issues.map Issue.problem = b.issues.map Issue.problem

omit [Lexical α]

variable {a b c d : Outcome α}

@[simp]
theorem clean_idle (last : α) (rest : List α) : (idle last rest).Clean := by simp [Clean, idle]

@[simp]
theorem clean_join : (a.join b).Clean ↔ a.Clean ∧ b.Clean := by
  simp [Clean, join, or_imp, forall_and]

@[simp]
theorem clean_wrapped {kind : NodeKind} : (a.wrapped kind).Clean ↔ a.Clean := Iff.rfl

theorem Alike.refl (a : Outcome α) : Alike a a := ⟨rfl, rfl, rfl⟩

theorem Alike.join (h : Alike a b) (h' : Alike c d) : Alike (a.join c) (b.join d) :=
  ⟨by simp [Outcome.join, h.trees, h'.trees], h'.rest,
    by simp [Outcome.join, h.problems, h'.problems]⟩

theorem Alike.wrapped (h : Alike a b) (kind : NodeKind) : Alike (a.wrapped kind) (b.wrapped kind) :=
  ⟨by simp [Outcome.wrapped, h.trees], h.rest, h.problems⟩

theorem Alike.clean_iff (h : Alike a b) : a.Clean ↔ b.Clean := by
  have hclean : ∀ x : Outcome α, x.Clean ↔ ∀ p ∈ x.issues.map Issue.problem, p.isWarning = true :=
    fun x => by simp [Clean]
  rw [hclean, hclean, h.problems]

end Outcome

/-! ## The token before -/

open Outcome

theorem manyFrom_alike {p : TokenKind → Bool} {item : α → List α → Outcome α}
    (h : ∀ last last' rest, Alike (item last rest) (item last' rest)) (last last' : α)
    (rest : List α) : Alike (manyFrom p item last rest) (manyFrom p item last' rest) := by
  induction hn : rest.length using Nat.strongRecOn generalizing last last' rest with
  | _ n ih =>
    cases rest with
    | nil =>
      rw [manyFrom, manyFrom]
      exact ⟨rfl, rfl, rfl⟩
    | cons t ts =>
      rw [manyFrom, manyFrom]
      have hturn := h last last' (t :: ts)
      by_cases hp : p (Lexical.kind t) = true
      · simp only [if_pos hp, hturn.rest]
        split
        · next hlt => exact hturn.join (ih _ (hn ▸ hlt) _ _ _ rfl)
        · exact hturn
      · simp only [if_neg hp]
        exact ⟨rfl, rfl, rfl⟩

theorem runWith_alike {block : BlockShape → α → List α → Outcome α}
    (h : ∀ shape last last' rest, Alike (block shape last rest) (block shape last' rest))
    (rule : Rule α) (last last' : α) (rest : List α) :
    Alike (rule.runWith block last rest) (rule.runWith block last' rest) := by
  induction rule generalizing last last' rest with
  | done | complain | complainSince | complainAt => exact ⟨rfl, rfl, rfl⟩
  | andThen first second iha ihb =>
    have ha := iha last last' rest
    refine ha.join ?_
    rw [ha.rest]
    exact ihb _ _ _
  | wrap kind rule ih => exact (ih last last' rest).wrapped kind
  | withNext rule ih =>
    cases rest with
    | nil => exact ⟨rfl, rfl, rfl⟩
    | cons t ts => exact ih t last last' (t :: ts)
  | peek rule ih => exact ih _ last last' rest
  | advance | acceptAll | rawGroup => exact ⟨rfl, rfl, rfl⟩
  | wrapBy start kind finish iha ihb =>
    have ha := iha last last' rest
    rw [Rule.runWith, Rule.runWith]
    simp only [nextKind, ha.rest]
    refine (ha.join ?_).wrapped _
    rw [ha.rest]
    exact ihb _ _ _ _
  | many p item ih => exact manyFrom_alike ih last last' rest
  | block shape => exact h shape last last' rest

theorem runBlock_alike (room : Nat) (shape : BlockShape) (last last' : α) (rest : List α) :
    Alike (runBlock room shape last rest) (runBlock room shape last' rest) := by
  induction room generalizing shape last last' rest with
  | zero => exact runWith_alike (fun _ _ _ _ => ⟨rfl, rfl, rfl⟩) _ _ _ _
  | succ room ih =>
    cases rest with
    | nil => exact ⟨rfl, rfl, rfl⟩
    | cons t ts => exact (runWith_alike ih _ _ _ _).wrapped _

/-- **What a rule builds, reads and finds wrong does not depend on the token before.** -/
theorem run_alike (room : Nat) (rule : Rule α) (last last' : α) (rest : List α) :
    Alike (rule.run room last rest) (rule.run room last' rest) :=
  runWith_alike (runBlock_alike room) rule last last' rest

/-! ## Acceptance -/

/-- A token is faulty exactly if it is malformed. -/
class LawfulLexical (α : Type) [Lexical α] : Prop where
  isSome_fault : ∀ t : α, (Lexical.fault t).isSome ↔ Lexical.kind t = .malformed

namespace Rule

/-- Reading up to `left`, a rule reports nothing but what is harmless. -/
def Accepts (room : Nat) (rule : Rule α) (rest left : List α) : Prop :=
  ∀ last, (rule.run room last rest).Clean ∧ (rule.run room last rest).rest = left

variable {room : Nat} {rule first second yes no : Rule α} {rest left : List α} {t : α}
  {ts : List α} {p : TokenKind → Bool}

/-- Any token will do for the one before. -/
theorem accepts_iff (last : α) : Accepts room rule rest left
    ↔ (rule.run room last rest).Clean ∧ (rule.run room last rest).rest = left := by
  refine ⟨fun h => h last, fun h last' => ?_⟩
  have halike := run_alike room rule last last' rest
  rwa [← halike.clean_iff, ← halike.rest]

theorem accepts_wrap {kind : NodeKind} :
    Accepts room (.wrap kind rule) rest left ↔ Accepts room rule rest left := Iff.rfl

theorem accepts_peek {rule : Option TokenKind → Rule α} : Accepts room (.peek rule) rest left
    ↔ Accepts room (rule (rest.head?.map Lexical.kind)) rest left := Iff.rfl

theorem accepts_withNext {rule : α → Rule α} :
    Accepts room (.withNext rule) (t :: ts) left ↔ Accepts room (rule t) (t :: ts) left := Iff.rfl

theorem accepts_ifNext_cons : Accepts room (ifNext p yes no) (t :: ts) left
    ↔ if p (Lexical.kind t) then Accepts room yes (t :: ts) left
      else Accepts room no (t :: ts) left := by
  unfold Accepts
  simp only [run_ifNext_cons]
  split <;> rfl

theorem accepts_ifNext_nil :
    Accepts room (ifNext p yes no) [] left ↔ Accepts room no [] left := Iff.rfl

theorem faultOf_eq_nil [LawfulLexical α] : Outcome.faultOf t = [] ↔ Lexical.kind t ≠ .malformed := by
  have h := LawfulLexical.isSome_fault t
  rw [Outcome.faultOf]
  cases hf : Lexical.fault t <;> simp_all

theorem clean_reading [LawfulLexical α] (n : Nat) (last : α) : (Outcome.reading n last rest).Clean
    ↔ ∀ t ∈ rest.take n, Lexical.kind t ≠ .malformed := by
  simp only [Clean, Outcome.reading, List.mem_flatMap, forall_exists_index, and_imp]
  constructor
  · intro h t ht
    rw [← faultOf_eq_nil]
    cases hf : Outcome.faultOf t with
    | nil => rfl
    | cons i is =>
      have hi := h i t ht (by simp [hf])
      unfold Outcome.faultOf at hf
      split at hf
      · cases hf; cases hi
      · cases hf
  · intro h i t ht hi
    rw [faultOf_eq_nil.2 (h t ht)] at hi
    cases hi

section Inhabited

variable [Inhabited α]

theorem accepts_done : Accepts room done rest left ↔ rest = left := by
  rw [accepts_iff default]
  simp [Outcome.idle, Clean]

theorem accepts_complainSince {problem : Problem} :
    Accepts room (complainSince t problem) rest left ↔ problem.isWarning = true ∧ rest = left := by
  rw [accepts_iff default]
  simp [Clean]

theorem accepts_append : Accepts room (first ++ second) rest left
    ↔ ∃ middle, Accepts room first rest middle ∧ Accepts room second middle left := by
  rw [accepts_iff default, run_append, Outcome.followedBy, clean_join, rest_join]
  constructor
  · rintro ⟨⟨hfirst, hsecond⟩, hrest⟩
    exact ⟨_, (accepts_iff default).2 ⟨hfirst, rfl⟩, (accepts_iff _).2 ⟨hsecond, hrest⟩⟩
  · rintro ⟨middle, hfirst, hsecond⟩
    obtain ⟨hclean, rfl⟩ := (accepts_iff default).1 hfirst
    obtain ⟨hclean', hrest⟩ := hsecond (first.run room default rest).last
    exact ⟨⟨hclean, hclean'⟩, hrest⟩

theorem accepts_wrapBy {kind : Option TokenKind → NodeKind} {finish : Option TokenKind → Rule α} :
    Accepts room (.wrapBy rule kind finish) rest left
      ↔ ∃ middle, Accepts room rule rest middle ∧
        Accepts room (finish (middle.head?.map Lexical.kind)) middle left := by
  have h : Accepts room (rule ++ .peek finish) rest left ↔ _ := accepts_append
  exact h

theorem not_accepts_complain {problem : Problem} (h : problem.isWarning = false) :
    ¬ Accepts room (complain problem) rest left := by
  rw [accepts_iff default]
  simp [Clean, h]

theorem not_accepts_complainSince {problem : Problem} (h : problem.isWarning = false) :
    ¬ Accepts room (complainSince t problem) rest left := by
  simp [accepts_complainSince, h]

theorem not_accepts_complainAt {problem : Problem} (h : problem.isWarning = false) :
    ¬ Accepts room (complainAt t problem) rest left := by
  rw [accepts_iff default]
  simp [Clean, h]

theorem not_accepts_lacking {what : Missing} : ¬ Accepts room (lacking what) rest left :=
  not_accepts_complain rfl

theorem not_accepts_append_left (h : ∀ middle, ¬ Accepts room first rest middle) :
    ¬ Accepts room (first ++ second) rest left := by
  rw [accepts_append]
  rintro ⟨middle, hfirst, -⟩
  exact h middle hfirst

theorem not_accepts_reject {problem : Problem} (h : problem.isWarning = false) :
    ¬ Accepts room (reject problem) (t :: ts) left := by
  rw [reject, accepts_withNext, accepts_wrap]
  exact not_accepts_append_left fun _ => not_accepts_complainAt h

/-! ## Reading -/

section Lawful

variable [LawfulLexical α]

theorem accepts_advance : Accepts room .advance (t :: ts) left
    ↔ Lexical.kind t ≠ .malformed ∧ ts = left := by
  rw [accepts_iff default, run_advance, clean_reading]
  simp [Outcome.reading]

theorem accepts_acceptAll : Accepts room (.acceptAll p) rest left
    ↔ (∀ t ∈ rest.takeWhile (fun t => p (Lexical.kind t)), Lexical.kind t ≠ .malformed)
      ∧ rest.dropWhile (fun t => p (Lexical.kind t)) = left := by
  have h := List.takeWhile_append_dropWhile (p := fun t : α => p (Lexical.kind t)) (l := rest)
  rw [accepts_iff default, run_acceptAll, clean_reading]
  generalize rest.takeWhile (fun t => p (Lexical.kind t)) = xs at h ⊢
  generalize rest.dropWhile (fun t => p (Lexical.kind t)) = ys at h ⊢
  subst h
  simp [Outcome.reading]

/-- A token that must be there. -/
theorem accepts_expect (hp : p .malformed = false)
    (hn : ∀ rest left, ¬ Accepts room no rest left) :
    Accepts room (ifNext p .advance no) rest left
      ↔ ∃ t, rest = t :: left ∧ p (Lexical.kind t) = true := by
  cases rest with
  | nil =>
    rw [accepts_ifNext_nil]
    simp [hn]
  | cons t ts =>
    rw [accepts_ifNext_cons]
    by_cases h : p (Lexical.kind t) = true
    · have hne : Lexical.kind t ≠ .malformed := fun e => by simp [e, hp] at h
      rw [if_pos h, accepts_advance]
      constructor
      · rintro ⟨-, rfl⟩
        exact ⟨t, rfl, h⟩
      · rintro ⟨u, hu, -⟩
        cases hu
        exact ⟨hne, rfl⟩
    · rw [if_neg h]
      constructor
      · exact fun hno => absurd hno (hn _ _)
      · rintro ⟨u, hu, hpu⟩
        cases hu
        exact absurd hpu h

/-- A token that may be there. -/
theorem accepts_accept (hp : p .malformed = false) : Accepts room (accept p) rest left
    ↔ (∃ t, rest = t :: left ∧ p (Lexical.kind t) = true)
      ∨ ((∀ t ∈ rest.head?, p (Lexical.kind t) = false) ∧ rest = left) := by
  cases rest with
  | nil =>
    rw [accept, accepts_ifNext_nil, accepts_done]
    simp
  | cons t ts =>
    rw [accept, accepts_ifNext_cons]
    by_cases h : p (Lexical.kind t) = true
    · have hne : Lexical.kind t ≠ .malformed := fun e => by simp [e, hp] at h
      rw [if_pos h, accepts_advance]
      constructor
      · rintro ⟨-, rfl⟩
        exact .inl ⟨t, rfl, h⟩
      · rintro (⟨u, hu, -⟩ | ⟨hno, -⟩)
        · cases hu
          exact ⟨hne, rfl⟩
        · exact absurd h (by simp [hno t rfl])
    · rw [if_neg h, accepts_done]
      simp [h]

end Lawful

/-! ## Loops -/

theorem accepts_many_of_stop (h : ∀ t ∈ rest.head?, p (Lexical.kind t) = false) :
    Accepts room (.many p rule) rest left ↔ rest = left := by
  have hrun : (Rule.many p rule).run room default rest = .idle default rest := by
    cases rest with
    | nil => rw [run_many, manyFrom]
    | cons t ts => rw [run_many, manyFrom, if_neg (Bool.eq_false_iff.1 (h t rfl))]
  rw [accepts_iff default, hrun]
  simp [Outcome.idle, Clean]

/-- A turn of a loop whose item reads the token with which it begins. -/
theorem accepts_many_cons (hp : p (Lexical.kind t) = true) (hs : SoundAt room [] t rule) :
    Accepts room (.many p rule) (t :: ts) left
      ↔ ∃ middle, Accepts room rule (t :: ts) middle ∧
        Accepts room (.many p rule) middle left := by
  obtain ⟨hruns, hread, -⟩ := hs [] default ts (List.nil_subset _)
  have hrun : (Rule.many p rule).run room default (t :: ts)
      = (rule.run room default (t :: ts)).followedBy ((Rule.many p rule).run room) := by
    rw [run_many, manyFrom]
    simp only [hp, if_true, if_pos (hruns.length_rest_lt hread)]
    rfl
  rw [← accepts_append, accepts_iff default, accepts_iff default, run_append, hrun]

/-- **A loop accepts row on row of what its item accepts.** -/
theorem accepts_many {L : List α → Prop}
    (hs : ∀ t, p (Lexical.kind t) = true → SoundAt room [] t rule)
    (hitem : ∀ t ts left, p (Lexical.kind t) = true →
      (Accepts room rule (t :: ts) left ↔ ∃ w, t :: ts = w ++ left ∧ L w))
    (hhead : ∀ w, L w → ∃ t ts, w = t :: ts ∧ p (Lexical.kind t) = true) :
    Accepts room (.many p rule) rest left
      ↔ ∃ ws : List (List α), rest = ws.flatten ++ left ∧ (∀ w ∈ ws, L w) ∧
        ∀ t ∈ left.head?, p (Lexical.kind t) = false := by
  constructor
  · intro h
    induction hn : rest.length using Nat.strongRecOn generalizing rest with
    | _ n ih =>
      by_cases hstop : ∀ t ∈ rest.head?, p (Lexical.kind t) = false
      · have hrest := (accepts_many_of_stop hstop).1 h
        subst hrest
        exact ⟨[], rfl, by simp, hstop⟩
      · cases rest with
        | nil => simp at hstop
        | cons t ts =>
          have hp : p (Lexical.kind t) = true := by simpa using hstop
          obtain ⟨middle, hturn, hmore⟩ := (accepts_many_cons hp (hs t hp)).1 h
          obtain ⟨w, hw, hL⟩ := (hitem t ts middle hp).1 hturn
          obtain ⟨u, us, rfl, -⟩ := hhead w hL
          have hlt : middle.length < n := by
            have := congrArg List.length hw
            simp only [List.length_append, List.length_cons] at this hn
            omega
          obtain ⟨ws, rfl, hws, hleft⟩ := ih _ hlt hmore rfl
          exact ⟨(u :: us) :: ws, by simpa using hw, List.forall_mem_cons.2 ⟨hL, hws⟩, hleft⟩
  · rintro ⟨ws, rfl, hws, hleft⟩
    induction ws with
    | nil => exact (accepts_many_of_stop hleft).2 rfl
    | cons w ws ih =>
      obtain ⟨hw, hmore⟩ := List.forall_mem_cons.1 hws
      obtain ⟨t, ts, rfl, hp⟩ := hhead w hw
      rw [List.flatten_cons, List.append_assoc, List.cons_append]
      refine (accepts_many_cons hp (hs t hp)).2 ⟨ws.flatten ++ left, ?_, ih hmore⟩
      exact (hitem t _ _ hp).2 ⟨t :: ts, rfl, hw⟩

end Inhabited

end Rule

end NginxConf
