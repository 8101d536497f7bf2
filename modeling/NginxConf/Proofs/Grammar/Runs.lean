import NginxConf.Grammar

/-!
# Runs of rules

`Runs` is a derivation of what a rule returns, with one case for each way in which a term goes on.
It carries what the rules of the grammar take care of and `Rule.runWith` does not ask for: a token
that a rule looks at is read before the rule ends, a loop reads something in each turn, a report
never ends before it begins, blocks and raw groups begin at a `{`, and no other rule makes a block
node. What holds of every derivation is therefore proved by one induction, and the grammar is gone
through only once (`Proofs/Grammar/Sound.lean`).

A derivation has two lists of tokens beside the state: `known`, the tokens that the rule can name,
and `seen`, all tokens that have been read before.
-/

namespace NginxConf

variable {α : Type}

/-- Whether a report about the place begins and ends at some of these tokens: where it spans more
than one, it begins at one of the first and ends at one of the second. -/
def Place.Among (firsts lasts : List α) : Place α → Prop
  | .across first last => first ∈ firsts ∧ (last = first ∨ last ∈ lasts)
  | .after token => token ∈ lasts

theorem Place.Among.mono {firsts firsts' lasts lasts' : List α} {p : Place α}
    (h : p.Among firsts lasts) (hf : firsts ⊆ firsts') (hl : lasts ⊆ lasts') :
    p.Among firsts' lasts' := by
  cases p with
  | across first last => exact ⟨hf h.1, h.2.imp id fun h => hl h⟩
  | after token => exact hl h

variable [Lexical α]

/-- What a rule returns, with how it comes about. -/
inductive Runs : (room : Nat) → (known seen : List α) → Rule α → (last : α) → (rest : List α) →
    Outcome α → Prop
  | done {room known seen last rest} : Runs room known seen .done last rest (.idle last rest)
  | complain {room known seen problem last rest} :
    Runs room known seen (.complain problem) last rest ⟨[], [⟨problem, .after last⟩], last, rest⟩
  /-- The token has been read, so the report does not end before it begins. -/
  | complainSince {room known seen first problem last rest} (hk : first ∈ known)
    (hs : first ∈ seen) :
    Runs room known seen (.complainSince first problem) last rest
      ⟨[], [⟨problem, .across first last⟩], last, rest⟩
  | complainAt {room known seen token problem last rest} (hk : token ∈ known) :
    Runs room known seen (.complainAt token problem) last rest
      ⟨[], [⟨problem, .across token token⟩], last, rest⟩
  | andThen {room known seen first second last rest a b}
    (ha : Runs room known seen first last rest a)
    (hb : Runs room known (seen ++ a.read) second a.last a.rest b) :
    Runs room known seen (.andThen first second) last rest (a.join b)
  | wrap {room known seen kind rule last rest a} (hk : kind.isBlock = false)
    (ha : Runs room known seen rule last rest a) :
    Runs room known seen (.wrap kind rule) last rest (a.wrapped kind)
  | atEnd {room known seen rule last} :
    Runs room known seen (.withNext rule) last [] (.idle last [])
  /-- The token that the rule depends on is read. -/
  | withNext {room known seen rule last t ts a}
    (ha : Runs room (t :: known) seen (rule t) last (t :: ts) a) (hr : t ∈ a.read) :
    Runs room known seen (.withNext rule) last (t :: ts) a
  | peek {room known seen rule last rest a}
    (ha : Runs room known seen (rule (rest.head?.map Lexical.kind)) last rest a) :
    Runs room known seen (.peek rule) last rest a
  | advance {room known seen last rest} :
    Runs room known seen .advance last rest (.reading 1 last rest)
  | acceptAll {room known seen p last rest} :
    Runs room known seen (.acceptAll p) last rest
      (.reading (rest.takeWhile fun t => p (Lexical.kind t)).length last rest)
  | rawGroup {room known seen last rest}
    (hb : rest.head?.map Lexical.kind = some .leftBrace) :
    Runs room known seen .rawGroup last rest (.reading (groupLength 0 rest) last rest)
  | wrapBy {room known seen start kind finish last rest a b}
    (hk : ∀ next, (kind next).isBlock = false)
    (ha : Runs room known seen start last rest a)
    (hb : Runs room known (seen ++ a.read) (finish a.nextKind) a.last a.rest b) :
    Runs room known seen (.wrapBy start kind finish) last rest
      ((a.join b).wrapped (kind a.nextKind))
  | manyStop {room known seen p item last rest}
    (hp : ∀ t ∈ rest.head?, p (Lexical.kind t) = false) :
    Runs room known seen (.many p item) last rest (.idle last rest)
  /-- The turn reads the token with which it begins. -/
  | manyStep {room known seen p item last t ts a b} (hp : p (Lexical.kind t) = true)
    (ha : Runs room known seen item last (t :: ts) a) (hr : t ∈ a.read)
    (hb : Runs room known (seen ++ a.read) (.many p item) a.last a.rest b) :
    Runs room known seen (.many p item) last (t :: ts) (a.join b)
  | tooDeep {known seen shape last t ts a} (hb : Lexical.kind t = .leftBrace)
    (ha : Runs 0 [] seen .tooDeep last (t :: ts) a) :
    Runs 0 known seen (.block shape) last (t :: ts) a
  | block {room known seen shape last t ts a} (hb : Lexical.kind t = .leftBrace)
    (ha : Runs room [t] seen (.braced t shape) last (t :: ts) a) :
    Runs (room + 1) known seen (.block shape) last (t :: ts) (a.wrapped shape.kind)

/-! ## Nothing is lost -/

namespace Runs

variable {room : Nat} {known seen : List α} {rule : Rule α} {last : α} {rest : List α}
  {a : Outcome α}

/-- **What a rule reads and what it leaves are the tokens that it was given.** -/
theorem read_append_rest (h : Runs room known seen rule last rest a) : a.read ++ a.rest = rest := by
  induction h with
  | done | complain | complainSince | complainAt | atEnd | manyStop => rfl
  | wrap _ _ ih | withNext _ _ ih | peek _ ih | tooDeep _ _ ih | block _ _ ih => simpa using ih
  | advance | acceptAll | rawGroup =>
    rw [Outcome.read_reading]
    exact List.take_append_drop _ _
  | andThen _ _ iha ihb | wrapBy _ _ _ iha ihb | manyStep _ _ _ _ iha ihb =>
    simp only [Outcome.read_wrapped, Outcome.read_join, List.append_assoc]
    exact (congrArg _ ihb).trans iha

/-- **The last token read by a rule, or before it, is the last one of what it read.** -/
theorem last_eq (h : Runs room known seen rule last rest a) :
    a.last = a.read.getLast?.getD last := by
  induction h with
  | done | complain | complainSince | complainAt | atEnd | manyStop => rfl
  | wrap _ _ ih | withNext _ _ ih | peek _ ih | tooDeep _ _ ih | block _ _ ih => simpa using ih
  | advance | acceptAll | rawGroup => rw [Outcome.read_reading]; rfl
  | andThen _ _ iha ihb | wrapBy _ _ _ iha ihb | manyStep _ _ _ _ iha ihb =>
    simp only [Outcome.read_wrapped, Outcome.read_join, List.getLast?_append]
    refine ihb.trans ?_
    rw [iha]
    cases List.getLast? _ <;> rfl

theorem last_mem (h : Runs room known seen rule last rest a) : a.last ∈ last :: a.read := by
  rw [h.last_eq]
  cases hl : a.read.getLast? with
  | none => exact List.mem_cons_self
  | some t => exact List.mem_cons_of_mem _ (List.mem_of_getLast? hl)

/-- A rule that reads the next token makes the list of tokens shorter. -/
theorem length_rest_lt {t : α} {ts : List α} (h : Runs room known seen rule last (t :: ts) a)
    (hr : t ∈ a.read) : a.rest.length < (t :: ts).length := by
  have hlen := congrArg List.length h.read_append_rest
  have hpos := List.length_pos_of_mem hr
  rw [List.length_append] at hlen
  omega

/-- **A derivation says what running the rule returns.** -/
theorem eq_run (h : Runs room known seen rule last rest a) : rule.run room last rest = a := by
  induction h with
  | done | complain | complainSince | complainAt | atEnd | advance | acceptAll | rawGroup => rfl
  | andThen _ _ iha ihb =>
    rw [Rule.run, Rule.runWith, Outcome.followedBy]
    rw [Rule.run] at iha ihb
    rw [iha, ihb]
  | wrap _ _ ih =>
    rw [Rule.run, Rule.runWith]
    rw [Rule.run] at ih
    rw [ih]
  | withNext _ _ ih | peek _ ih => exact ih
  | wrapBy _ _ _ iha ihb =>
    simp only [Rule.run, Rule.runWith, Outcome.followedBy]
    simp only [Rule.run] at iha ihb
    rw [iha, ihb]
  | @manyStop _ _ _ _ _ _ rest hp =>
    cases rest with
    | nil => rw [Rule.run, Rule.runWith, manyFrom]
    | cons t ts =>
      rw [Rule.run, Rule.runWith, manyFrom, if_neg (Bool.eq_false_iff.1 (hp t rfl))]
  | manyStep hp ha hr _ iha ihb =>
    rw [Rule.run, Rule.runWith, manyFrom]
    simp only [Rule.run] at iha
    simp only [Rule.run, Rule.runWith] at ihb
    simp only [hp, if_true, iha, ihb, if_pos (ha.length_rest_lt hr)]
  | tooDeep _ _ ih => exact ih
  | @block _ _ _ shape last t ts _ _ _ ih =>
    show runBlock _ shape last (t :: ts) = _
    rw [runBlock]
    exact congrArg _ ih

/-- A loop ends where the next token is of another kind, or at the end. -/
theorem rest_many {p : TokenKind → Bool} {item : Rule α}
    (h : Runs room known seen (.many p item) last rest a) :
    ∀ t ∈ a.rest.head?, p (Lexical.kind t) = false := by
  generalize hrule : Rule.many p item = rule at h
  induction h with
  | manyStop hp => cases hrule; exact hp
  | manyStep _ _ _ _ _ ih => exact ih hrule
  | _ => cases hrule

/-- The rule for what a `{` opens reads the `{`. -/
theorem mem_read_braced {shape : BlockShape} {t : α} {ts : List α}
    (h : Runs room known seen (.braced t shape) last (t :: ts) a) : t ∈ a.read := by
  rw [← h.eq_run]
  show t ∈ (Outcome.join (.reading 1 last (t :: ts)) _).read
  rw [Outcome.read_join, Outcome.read_reading]
  exact List.mem_append_left _ List.mem_cons_self

/-- Where a rule reads something, its first token is the next one. -/
theorem exists_read_eq_cons {t : α} {ts : List α} (h : Runs room known seen rule last (t :: ts) a)
    (hr : t ∈ a.read) : ∃ us, a.read = t :: us := by
  have hread := h.read_append_rest
  cases hus : a.read with
  | nil => rw [hus] at hr; cases hr
  | cons u us =>
    rw [hus] at hread
    exact ⟨us, by rw [(List.cons.inj hread).1]⟩

omit [Lexical α] in
/-- Where one outcome follows another, what is named in the second has been read, too. -/
theorem among_join {known : List α} {last : α} {a b : Outcome α} (hlast : a.last ∈ last :: a.read)
    (ha : ∀ i ∈ a.issues, i.place.Among (known ++ a.read) (last :: a.read))
    (hb : ∀ i ∈ b.issues, i.place.Among (known ++ b.read) (a.last :: b.read)) :
    ∀ i ∈ (a.join b).issues,
      i.place.Among (known ++ (a.join b).read) (last :: (a.join b).read) := by
  intro i hi
  rw [Outcome.read_join]
  rcases List.mem_append.1 hi with hi | hi
  · refine (ha i hi).mono ?_ ?_
    · rw [← List.append_assoc]
      exact List.subset_append_left _ _
    · exact List.subset_append_left (last :: a.read) b.read
  · refine (hb i hi).mono ?_ ?_
    · intro t ht
      rcases List.mem_append.1 ht with ht | ht
      · exact List.mem_append_left _ ht
      · exact List.mem_append_right _ (List.mem_append_right _ ht)
    · intro t ht
      rcases List.mem_cons.1 ht with rfl | ht
      · exact List.mem_append_left b.read hlast
      · exact List.mem_append_right (last :: a.read) ht

/-- **Reports are about tokens that the rule knows or reads, and end at one that has been read.** -/
theorem place_among (h : Runs room known seen rule last rest a) :
    ∀ i ∈ a.issues, i.place.Among (known ++ a.read) (last :: a.read) := by
  have faults : ∀ (known : List α) (last : α) (n : Nat) (rest : List α),
      ∀ i ∈ (Outcome.reading n last rest).issues, i.place.Among
        (known ++ (Outcome.reading n last rest).read)
        (last :: (Outcome.reading n last rest).read) := by
    intro known last n rest i hi
    obtain ⟨t, ht, hi⟩ := List.mem_flatMap.1 hi
    rw [Outcome.faultOf] at hi
    split at hi
    · rw [List.mem_singleton.1 hi, Outcome.read_reading]
      exact ⟨List.mem_append_right _ ht, .inl rfl⟩
    · cases hi
  induction h with
  | done | atEnd | manyStop => simp [Outcome.idle]
  | complain => simp [Place.Among]
  | complainSince hk => simp [Place.Among, hk]
  | complainAt hk => simp [Place.Among, hk]
  | wrap _ _ ih =>
    rw [Outcome.issues_wrapped, Outcome.read_wrapped]
    exact ih
  | peek _ ih => exact ih
  | advance | acceptAll | rawGroup => exact faults _ _ _ _
  | andThen ha _ iha ihb | manyStep _ ha _ _ iha ihb => exact among_join ha.last_mem iha ihb
  | wrapBy _ ha _ iha ihb =>
    rw [Outcome.issues_wrapped, Outcome.read_wrapped]
    exact among_join ha.last_mem iha ihb
  | withNext _ hr ih =>
    intro i hi
    refine (ih i hi).mono (fun t ht => ?_) (List.Subset.refl _)
    rcases List.mem_cons.1 ht with rfl | ht
    · exact List.mem_append_right _ hr
    · exact ht
  | tooDeep _ _ ih =>
    exact fun i hi => (ih i hi).mono (List.subset_append_right _ _) (List.Subset.refl _)
  | block _ ha ih =>
    rw [Outcome.issues_wrapped, Outcome.read_wrapped]
    intro i hi
    refine (ih i hi).mono (fun t ht => List.mem_append_right _ ?_) (List.Subset.refl _)
    rcases List.mem_cons.1 ht with rfl | ht
    · exact ha.mem_read_braced
    · exact ht

end Runs

/-! ## What holds of all outcomes -/

namespace Rule

variable {room : Nat} {rule yes no : Rule α} {p : TokenKind → Bool}

/-- What holds of each turn of a loop, and of turns one after the other, holds of the loop. -/
theorem forall_many {P : Outcome α → Prop} (hidle : ∀ last rest, P (.idle last rest))
    (hjoin : ∀ a b, P a → P b → P (a.join b))
    (h : ∀ t last ts, p (Lexical.kind t) = true → P (rule.run room last (t :: ts)))
    (last : α) (rest : List α) : P ((many p rule).run room last rest) := by
  induction hn : rest.length using Nat.strongRecOn generalizing last rest with
  | _ n ih =>
    rw [run_many]
    cases rest with
    | nil =>
      rw [manyFrom]
      exact hidle _ _
    | cons t ts =>
      rw [manyFrom]
      split
      · next hp =>
        dsimp only
        split
        · next hlt => exact hjoin _ _ (h t last ts hp) (ih _ (hn ▸ hlt) _ _ rfl)
        · exact h t last ts hp
      · exact hidle _ _

/-- What holds of both ways to go on holds of the choice. -/
theorem forall_ifNext {P : Outcome α → Prop}
    (hy : ∀ t last ts, p (Lexical.kind t) = true → P (yes.run room last (t :: ts)))
    (hn : ∀ last rest, P (no.run room last rest)) (last : α) (rest : List α) :
    P ((ifNext p yes no).run room last rest) := by
  cases rest with
  | nil =>
    rw [run_ifNext_nil]
    exact hn last []
  | cons t ts =>
    rw [run_ifNext_cons]
    split
    · next hp => exact hy t last ts hp
    · exact hn last (t :: ts)

end Rule

end NginxConf
