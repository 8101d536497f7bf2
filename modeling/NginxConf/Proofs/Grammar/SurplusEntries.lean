import NginxConf.Proofs.Grammar.Surplus

/-!
# Entries of a geo block before the `;` of another one

They are read without a word, however many they are, and reported together when the last one has been
read (`Rule.exists_surplus`).
-/

namespace NginxConf

variable {α : Type} [Lexical α]

/-- Only malformed tokens among these are faulty. -/
def FaultyIfMalformed (ts : List α) : Prop :=
  ∀ t ∈ ts, (Lexical.fault t).isSome = true → Lexical.kind t = .malformed

theorem FaultyIfMalformed.faultOf {ts : List α} (h : FaultyIfMalformed ts) {t : α} (ht : t ∈ ts)
    (hkind : Lexical.kind t ≠ .malformed) : Outcome.faultOf t = [] := by
  unfold Outcome.faultOf
  split
  · next fault hfault => exact absurd (h t ht (by rw [hfault]; rfl)) hkind
  · rfl

/-- Nothing is reported, unless a token is faulty without being malformed. -/
def Outcome.Quiet (a : Outcome α) : Prop := FaultyIfMalformed a.read → a.issues = []

namespace Outcome

theorem quiet_idle (last : α) (rest : List α) : (idle last rest).Quiet := fun _ => rfl

theorem Quiet.join {a b : Outcome α} (ha : a.Quiet) (hb : b.Quiet) : (a.join b).Quiet := by
  intro h
  rw [read_join] at h
  rw [Outcome.join, ha fun t ht => h t (List.mem_append_left _ ht),
    hb fun t ht => h t (List.mem_append_right _ ht)]
  rfl

theorem Quiet.wrapped {a : Outcome α} {kind : NodeKind} (ha : a.Quiet) : (a.wrapped kind).Quiet := by
  intro h
  rw [read_wrapped] at h
  exact ha h

theorem quiet_advance {t : α} (ht : Lexical.kind t ≠ .malformed) (last : α) (ts : List α) :
    (reading 1 last (t :: ts)).Quiet := by
  intro h
  rw [read_reading] at h
  rw [reading, List.take_succ_cons, List.take_zero, List.flatMap_singleton]
  exact h.faultOf List.mem_cons_self ht

end Outcome

namespace Rule

variable {room : Nat} {t : α}

/-- An entry that stands before the `;` of another one is read without a word. -/
theorem quiet_geoEntry (ht : startsGeoEntry (Lexical.kind t) = true) (last : α) (ts : List α) :
    ((geoEntry false).run room last (t :: ts)).Quiet := by
  have hfirst : Lexical.kind t ≠ .malformed := fun hk => by rw [hk] at ht; cases ht
  have hadvance := Outcome.quiet_advance hfirst last ts
  rw [geoEntry_eq, run_withNext_cons]
  obtain ⟨kind, -, heq | ⟨what, heq⟩⟩ := geoEntryFrom_eq false t
  · rw [heq]
    exact hadvance.wrapped
  · rw [heq]
    refine (hadvance.join (forall_ifNext (fun u last us hp => ?_) Outcome.quiet_idle _ _)).wrapped
    exact Outcome.quiet_advance (fun hk => by rw [hk] at hp; cases hp) last us

/-- **Entries that stand before the `;` of another one are read without a word.** -/
theorem quiet_geoEntries (room : Nat) (last : α) (rest : List α) :
    ((many startsGeoEntry (geoEntry false)).run room last rest).Quiet :=
  forall_many Outcome.quiet_idle (fun _ _ ha hb => ha.join hb)
    (fun _ last ts hp => quiet_geoEntry hp last ts) last rest

/-- What an entry of a geo block says is a node, and no error. -/
theorem trees_geoEntry (room : Nat) (strict : Bool) (last : α) (ts : List α) : ∃ kind children,
    ((geoEntry strict).run room last (t :: ts)).trees = [.node kind children] ∧ kind ≠ .error := by
  obtain ⟨kind, hkind, heq⟩ := geoEntryFrom_eq strict t
  have herror : kind ≠ .error := fun h => by rw [h] at hkind; cases hkind
  rw [geoEntry_eq, run_withNext_cons]
  rcases heq with heq | ⟨what, heq⟩ <;> rw [heq] <;> exact ⟨kind, _, rfl, herror⟩

/-- The end of an entry is a `;`, or missing. -/
theorem trees_semicolon (room : Nat) (last : α) (rest : List α) : ∃ us : List α,
    ((ifNext (· == .semicolon) advance (lacking .semicolon)).run room last rest).trees
      = us.map .leaf :=
  forall_ifNext (P := fun a => ∃ us : List α, a.trees = us.map .leaf) (fun _ _ _ _ => ⟨_, rfl⟩)
    (fun _ _ => ⟨[], rfl⟩) last rest

/-- What follows the statement of an entry: nothing, or more entries in an error node. -/
theorem run_extraEntries (room : Nat) (last : α) (rest : List α) :
    (ifNext startsGeoEntry
        (wrap .error (complainAcross .extraGeoEntries (many startsGeoEntry (geoEntry false))))
        done).run room last rest = .idle last rest ∨
      ∃ u us a, rest = u :: us ∧ startsGeoEntry (Lexical.kind u) = true ∧
        a = (many startsGeoEntry (geoEntry false)).run room last rest ∧
        (ifNext startsGeoEntry
          (wrap .error (complainAcross .extraGeoEntries (many startsGeoEntry (geoEntry false))))
          done).run room last rest
          = (a.join ⟨[], [⟨.extraGeoEntries, .across u a.last⟩], a.last, a.rest⟩).wrapped .error := by
  cases rest with
  | nil => exact .inl rfl
  | cons u us =>
    rw [run_ifNext_cons]
    split
    · next hu => exact .inr ⟨u, us, _, rfl, hu, rfl, rfl⟩
    · exact .inl rfl

/-- What stands in an entry of a geo block besides one statement, and how it is reported. -/
structure SurplusIn (b : Outcome α) (extra : List (Tree α)) (first last : α) (front back : List α)
    (pre post : List (Issue α)) : Prop where
  read_eq : b.read = front ++ extra.flatMap Tree.leaves ++ back
  head : (extra.flatMap Tree.leaves).head? = some first
  getLast : (extra.flatMap Tree.leaves).getLast? = some last
  starts : startsGeoEntry (Lexical.kind first) = true
  issues_eq : b.issues = pre ++ ⟨.extraGeoEntries, .across first last⟩ :: post
  /-- What else is reported begins before or after it. -/
  apart : ∀ i ∈ pre ++ post, ∀ first last, i.place = .across first last →
    first ∈ front ∨ first ∈ back

/-- **What stands in an entry of a geo block besides one statement is reported once**, from its first
token to its last one, and begins behind the first token of the entry. -/
theorem exists_surplus {last : α} {ts : List α} {children extra : List (Tree α)}
    (hb : (wholeGeoItem.run room last (t :: ts)).trees = [.node .geoItem children])
    (he : .node .error extra ∈ children)
    (hfault : FaultyIfMalformed (wholeGeoItem.run room last (t :: ts)).read) :
    ∃ u w front back pre post, t ∈ front ∧
      SurplusIn (wholeGeoItem.run room last (t :: ts)) extra u w front back pre post := by
  have hsound : SoundAt room [] t (geoEntry true) := geoEntry_soundAt
  obtain ⟨hentry, hmem, -⟩ := hsound [] last ts (List.nil_subset _)
  obtain ⟨kind, entry, htrees, hkind⟩ := trees_geoEntry (t := t) room true last ts
  have hrun : wholeGeoItem.run room last (t :: ts)
      = (((geoEntry true).run room last (t :: ts)).followedBy
          (Rule.run room (ifNext startsGeoEntry
            (wrap .error (complainAcross .extraGeoEntries (many startsGeoEntry (geoEntry false))))
            done ++ ifNext (· == .semicolon) advance (lacking .semicolon)))).wrapped .geoItem := rfl
  rw [hrun] at hb hfault ⊢
  generalize (geoEntry true).run room last (t :: ts) = a at *
  rw [Outcome.followedBy, run_append, Outcome.followedBy] at hb hfault ⊢
  have hmore := run_extraEntries room a.last a.rest
  generalize (ifNext startsGeoEntry _ done).run room a.last a.rest = m at hb hfault hmore ⊢
  have hsemicolon : Sound (α := α) room []
      (ifNext (· == .semicolon) advance (lacking .semicolon)) :=
    Sound.ifNext Sound.advance Sound.lacking
  have hend := hsemicolon [] m.last m.rest (List.nil_subset _)
  obtain ⟨vs, hvs⟩ := trees_semicolon room m.last m.rest
  generalize (ifNext (· == .semicolon) _ _).run room m.last m.rest = e at hb hfault hend hvs ⊢
  have hchildren := (Tree.node.inj (List.singleton_inj.1 hb)).2
  have hextra : .node .error extra ∈ m.trees := by
    rw [← hchildren, Outcome.join, Outcome.join, htrees, hvs] at he
    simp only [List.mem_append, List.mem_singleton, List.mem_map] at he
    rcases he with h | h | ⟨_, _, h⟩
    · exact absurd (Tree.node.inj h).1.symm hkind
    · exact h
    · cases h
  rcases hmore with rfl | ⟨u, us, c, hrest, hu, hc, rfl⟩
  · cases hextra
  -- the error node is all that has been read of them
  obtain ⟨-, rfl⟩ := Tree.node.inj (List.mem_singleton.1 hextra)
  have hleaves : (c.join ⟨[], [⟨.extraGeoEntries, .across u c.last⟩], c.last, c.rest⟩).trees.flatMap
      Tree.leaves = c.read := by rw [Outcome.join, List.append_nil]; rfl
  have hsound' : SoundAt room [] u (many startsGeoEntry (geoEntry false)) :=
    SoundAt.many hu fun _ _ => geoEntry_soundAt
  have hhead := hsound'.head?_read a.last us
  obtain ⟨hmany, hmem', -⟩ := hsound' [] a.last us (List.nil_subset _)
  have hquiet := quiet_geoEntries room a.last a.rest
  rw [hrest] at hc hquiet
  rw [← hc] at hquiet hhead hmany hmem'
  have hread : ((a.join (((c.join ⟨[], [⟨.extraGeoEntries, .across u c.last⟩], c.last,
      c.rest⟩).wrapped .error).join e)).wrapped .geoItem).read = a.read ++ c.read ++ e.read := by
    rw [Outcome.read_wrapped, Outcome.read_join, Outcome.read_join, Outcome.read_wrapped,
      List.append_assoc]
    exact congrArg (fun ts => a.read ++ (ts ++ e.read)) hleaves
  have hnone : c.issues = [] := hquiet fun t ht => hfault t (by rw [hread]; simp [ht])
  refine ⟨u, c.last, a.read, e.read, a.issues, e.issues, hmem, ?_⟩
  refine ⟨by rw [hread, hleaves], by rw [hleaves, hhead], ?_, hu, ?_, fun i hi first _ hplace => ?_⟩
  · have hne := List.getLast?_eq_some_getLast (List.ne_nil_of_mem hmem')
    rw [hleaves, hmany.last_eq, hne]
    rfl
  · simp [Outcome.join, Outcome.wrapped, hnone]
  · rcases List.mem_append.1 hi with hi | hi
    · exact .inl (hentry.first_mem hi hplace)
    · exact .inr (hend.first_mem hi hplace)

end Rule

end NginxConf
