import NginxConf.Proofs.Diagnostic.Order
import NginxConf.Proofs.Grammar.Timely
import NginxConf.Proofs.Parse.Reported
import NginxConf.Proofs.Parse.Twin
import NginxConf.Proofs.Token.Stage

/-!
# Trivia has no say in parsing

Texts with the same tokens have the same tree but for trivia, and the same reports in the same
order, whatever blanks and comments stand between the tokens (`parse_ignores_trivia`).

That the order is the same takes an argument, for reports are sorted by where they begin. A report
that something is missing behind a token and one about the next token begin at the same offset if
there is no trivia in between, and then the one that was made first comes first. As nothing is found
to be missing behind a token once a later one has been reported (`Reported.timely`), it is the same
one that comes first where the two offsets differ.
-/

namespace NginxConf

/-! ## Tokens that look the same -/

/-- Why a token is malformed can be told from the kinds of the tokens up to it. -/
theorem Stage.Fits.map_look {stage : Stage} {ps qs : List PlacedToken} (hp : stage.Fits ps)
    (hq : stage.Fits qs) (h : qs.map (·.token.bare) = ps.map (·.token.bare)) :
    qs.map PlacedToken.look = ps.map PlacedToken.look := by
  induction ps generalizing stage qs with
  | nil => rw [List.map_eq_nil_iff.1 h]
  | cons p ps ih =>
    obtain ⟨q, qs, rfl, hbare, hmore⟩ := List.map_eq_cons_iff.1 h
    obtain ⟨hpfault, stage', hpnext, hps⟩ := hp
    obtain ⟨hqfault, stage'', hqnext, hqs⟩ := hq
    have hkind : q.token.bare.kind = p.token.bare.kind := congrArg Token.kind hbare
    have htext : q.token.bare.text = p.token.bare.text := congrArg Token.text hbare
    rw [show Lexical.kind q = Lexical.kind p from hkind] at hqfault hqnext
    obtain rfl : stage'' = stage' := Option.some.inj (hqnext.symm.trans hpnext)
    have hlook : q.look = p.look :=
      Prod.ext hkind (Prod.ext htext (hqfault.trans hpfault.symm))
    rw [List.map_cons, List.map_cons, hlook, ih hps hqs hmore]

/-- Only the last token of a text can be malformed. -/
theorem Stage.Fits.pairwise_ne_malformed {α : Type} [Lexical α] {stage : Stage} {ts : List α}
    (h : stage.Fits ts) : ts.Pairwise fun t _ => Lexical.kind t ≠ .malformed := by
  induction ts generalizing stage with
  | nil => exact .nil
  | cons t ts ih =>
    obtain ⟨-, stage', hnext, hmore⟩ := h
    refine List.pairwise_cons.2 ⟨fun u hu hkind => ?_, ih hmore⟩
    rw [hkind] at hnext
    rw [next_malformed hnext] at hmore
    rw [hmore.eq_nil_of_finished] at hu
    cases hu

/-! ## The order of the tokens -/

namespace Twins

/-- The first pair of tokens stands before the second one in both texts, and is not empty. -/
structure Before (t u : Twins) : Prop where
  left : t.left.span.stop ≤ u.left.span.start
  right : t.right.span.stop ≤ u.right.span.start
  nonempty : 0 < t.left.token.size

/-- The pairs are the same, or the first one stands before the second one. -/
def NotAfter (t u : Twins) : Prop := t = u ∨ t.Before u

theorem size_right (t : Twins) : t.right.token.size = t.left.token.size :=
  congrArg Text.size t.text_right

theorem NotAfter.refl (t : Twins) : t.NotAfter t := .inl rfl

theorem Before.trans {t u v : Twins} (htu : t.Before u) (huv : u.Before v) : t.Before v where
  left := Nat.le_trans (Nat.le_trans htu.left u.left.start_le_stop) huv.left
  right := Nat.le_trans (Nat.le_trans htu.right u.right.start_le_stop) huv.right
  nonempty := htu.nonempty

theorem NotAfter.trans {t u v : Twins} (htu : t.NotAfter u) (huv : u.NotAfter v) :
    t.NotAfter v := by
  rcases htu with rfl | htu
  · exact huv
  · rcases huv with rfl | huv
    · exact .inr htu
    · exact .inr (htu.trans huv)

/-- The tokens of two texts come in order, one pair after the other. -/
theorem pairwise_before {s s' : Text} {ts : List Twins} (hleft : (tokenize s).tokens = ts.map left)
    (hright : (tokenize s').tokens = ts.map right) : ts.Pairwise Before := by
  have hstop : ∀ s : Text, (tokenize s).tokens.Pairwise fun p q => p.span.stop ≤ q.span.start :=
    fun s => (tile_attachTrivia 0 [] (lex s)).pairwise_stop_le
  have hkinds := (fits_tokenize s).pairwise_ne_malformed
  have hl := hstop s
  have hr := hstop s'
  rw [hleft, List.pairwise_map] at hl hkinds
  rw [hright, List.pairwise_map] at hr
  refine ((hl.and hr).and hkinds).imp_of_mem ?_
  rintro t u ht - ⟨⟨hl, hr⟩, hkind⟩
  have hshaped : t.left.Shaped := tokenize_shaped (hleft ▸ List.mem_map_of_mem ht)
  have htext : t.left.token.text ≠ [] := hshaped.text_ne_nil (hshaped.fault_eq_none hkind)
  exact ⟨hl, hr, Nat.pos_of_ne_zero fun hsize => htext (Text.size_eq_zero.1 hsize)⟩

/-- Of two pairs of tokens, one stands before the other. -/
theorem notAfter_or_before {ts : List Twins} (h : ts.Pairwise Before) {t u : Twins} (ht : t ∈ ts)
    (hu : u ∈ ts) : t.NotAfter u ∨ u.Before t := by
  induction ts with
  | nil => cases ht
  | cons v ts ih =>
    obtain ⟨hv, hts⟩ := List.pairwise_cons.1 h
    rcases List.mem_cons.1 ht with rfl | ht'
    · rcases List.mem_cons.1 hu with rfl | hu'
      · exact .inl (.refl u)
      · exact .inl (.inr (hv u hu'))
    · rcases List.mem_cons.1 hu with rfl | hu'
      · exact .inr (hv t ht')
      · exact ih hts ht' hu'

theorem stop_left (t : Twins) : t.left.span.stop = t.left.span.start + t.left.token.size := rfl

theorem stop_right (t : Twins) : t.right.span.stop = t.right.span.start + t.left.token.size :=
  congrArg (t.right.span.start + ·) t.size_right

end Twins

/-! ## The order of the reports -/

namespace Issue

/-- The report in the first of two texts. -/
def inLeft (i : Issue Twins) : Diagnostic := (i.map Twins.left).diagnostic

/-- The report in the second of two texts. -/
def inRight (i : Issue Twins) : Diagnostic := (i.map Twins.right).diagnostic

/-- **Reports compare alike in both texts**, if the one that is made later does not find something
missing behind a token that comes before the other one. -/
theorem start_le_iff {i j : Issue Twins}
    (horder : i.place.first.NotAfter j.place.first ∨ j.place.first.Before i.place.first)
    (htimely : ∀ t, j.place = .after t → i.place.first.NotAfter t) :
    i.inLeft.span.start ≤ j.inLeft.span.start ↔ i.inRight.span.start ≤ j.inRight.span.start := by
  obtain ⟨problem, place⟩ := i
  obtain ⟨problem', place'⟩ := j
  cases place with
  | across t last =>
    have htl := t.stop_left
    have htr := t.stop_right
    cases place' with
    | across u last' =>
      have horder : t.NotAfter u ∨ u.Before t := horder
      have hul := u.stop_left
      have hur := u.stop_right
      show t.left.span.start ≤ u.left.span.start ↔ t.right.span.start ≤ u.right.span.start
      rcases horder with (rfl | ⟨hleft, hright, hne⟩) | ⟨hleft, hright, hne⟩
      · simp only [Nat.le_refl]
      · omega
      · omega
    | after u =>
      have horder : t.NotAfter u := htimely u rfl
      have hul := u.stop_left
      have hur := u.stop_right
      show t.left.span.start ≤ u.left.span.stop ↔ t.right.span.start ≤ u.right.span.stop
      rcases horder with rfl | ⟨hleft, hright, hne⟩
      · omega
      · omega
  | after t =>
    have htl := t.stop_left
    have htr := t.stop_right
    cases place' with
    | across u last' =>
      have horder : t.NotAfter u ∨ u.Before t := horder
      have hul := u.stop_left
      have hur := u.stop_right
      show t.left.span.stop ≤ u.left.span.start ↔ t.right.span.stop ≤ u.right.span.start
      rcases horder with (rfl | ⟨hleft, hright, hne⟩) | ⟨hleft, hright, hne⟩
      · omega
      · omega
      · omega
    | after u =>
      have horder : t.NotAfter u := htimely u rfl
      have hul := u.stop_left
      have hur := u.stop_right
      show t.left.span.stop ≤ u.left.span.stop ↔ t.right.span.stop ≤ u.right.span.stop
      rcases horder with rfl | ⟨hleft, hright, hne⟩
      · simp only [Nat.le_refl]
      · omega

end Issue

/-- The reports of two texts with the same tokens compare alike, each with those made later. -/
theorem pairwise_start_le_iff {ts : List Twins} (h : ts.Pairwise Twins.Before) :
    (twinOutcome ts).issues.Pairwise fun i j => (i.inLeft.span.start ≤ j.inLeft.span.start
      ↔ i.inRight.span.start ≤ j.inRight.span.start) := by
  cases ts with
  | nil =>
    have hnone : (twinOutcome []).issues = [] := by
      rw [twinOutcome, Rule.file, Rule.run_many, manyFrom]
      rfl
    rw [hnone]
    exact .nil
  | cons t ts =>
    -- the first token may stand for the one before it
    have hissues : (twinOutcome (t :: ts)).issues = (Rule.file.run maxDepth t (t :: ts)).issues :=
      congrArg Prod.snd ((parseFile_eq _ (t :: ts)).symm.trans (parseFile_eq t (t :: ts)))
    have hread : (Rule.file.run maxDepth t (t :: ts)).read = t :: ts := Rule.read_file t (t :: ts)
    have hsorted : (t :: t :: ts).Pairwise Twins.NotAfter := by
      have hnotAfter : (t :: ts).Pairwise Twins.NotAfter := h.imp fun hbefore => .inr hbefore
      refine List.pairwise_cons.2 ⟨fun u hu => ?_, hnotAfter⟩
      rcases List.mem_cons.1 hu with rfl | hu
      · exact .refl u
      · exact (List.pairwise_cons.1 hnotAfter).1 u hu
    have htimely := (Rule.reported_file t (t :: ts)).timely Twins.NotAfter.refl
      Twins.NotAfter.trans (by simp) (by rwa [hread])
    have hplace : ∀ i ∈ (Rule.file.run maxDepth t (t :: ts)).issues, i.place.first ∈ t :: ts := by
      intro i hi
      have hamong := (Rule.runs_file t (t :: ts)).place_among i hi
      rw [hread] at hamong
      cases hp : i.place with
      | across first last =>
        rw [hp] at hamong
        exact hamong.1
      | after u =>
        rw [hp] at hamong
        rcases List.mem_cons.1 hamong with rfl | hu
        · exact List.mem_cons_self
        · exact hu
    rw [hissues]
    refine htimely.pairwise.imp_of_mem fun {i j} hi hj hij => ?_
    exact Issue.start_le_iff (Twins.notAfter_or_before h (hplace i hi) (hplace j hj)) hij

/-! ## What is said about a text -/

/-- What a report says, wherever it stands. -/
def Diagnostic.said (d : Diagnostic) : Severity × Origin × String :=
  (d.severity, d.origin, d.message)

/-- **Texts whose tokens look the same have the same reports, in the same order.** -/
theorem map_said_of_look {s s' : Text}
    (h : (tokenize s').tokens.map PlacedToken.look = (tokenize s).tokens.map PlacedToken.look) :
    (parse s').diagnostics.map Diagnostic.said = (parse s).diagnostics.map Diagnostic.said := by
  obtain ⟨ts, hts, hts', hleft, hright⟩ := exists_twins h
  obtain ⟨js, -, hsort, hsort'⟩ :=
    Diagnostic.sort_alike (pairwise_start_le_iff (Twins.pairwise_before hts hts'))
  have hdiagnostics : (parse s).diagnostics = js.map Issue.inLeft := by
    rw [parse_diagnostics, hleft, ← hsort, Outcome.map, List.map_map]
    rfl
  have hdiagnostics' : (parse s').diagnostics = js.map Issue.inRight := by
    rw [parse_diagnostics, hright, ← hsort', Outcome.map, List.map_map]
    rfl
  rw [hdiagnostics, hdiagnostics', List.map_map, List.map_map]
  rfl

/-- **Trivia has no say in parsing**: texts with the same tokens, whatever trivia there is, have the
same tree but for trivia, and the same reports in the same order. -/
theorem parse_ignores_trivia {s s' : Text}
    (h : (tokenize s').tokens.map (·.token.bare) = (tokenize s).tokens.map (·.token.bare)) :
    (parse s').tree.skeleton = (parse s).tree.skeleton ∧
      (parse s').diagnostics.map Diagnostic.said = (parse s).diagnostics.map Diagnostic.said := by
  have hlook := (fits_tokenize s).map_look (fits_tokenize s') h
  exact ⟨(skeleton_of_look hlook).symm, map_said_of_look hlook⟩

/-- An unfinished `set` right before a stray brace, and the same with a comment in between: only in
the first text do the reports about the two begin at the same offset. -/
theorem parse_ignores_trivia_stray_brace :
    (tokenize "set $a #\n\x7d".toList).tokens.map (·.token.bare)
        = (tokenize "set $a\x7d".toList).tokens.map (·.token.bare) ∧
      (parse "set $a #\n\x7d".toList).tree.skeleton = (parse "set $a\x7d".toList).tree.skeleton ∧
      (parse "set $a #\n\x7d".toList).diagnostics.map Diagnostic.said
        = (parse "set $a\x7d".toList).diagnostics.map Diagnostic.said := by
  have h : (tokenize "set $a #\n\x7d".toList).tokens.map (·.token.bare)
      = (tokenize "set $a\x7d".toList).tokens.map (·.token.bare) := by decide +kernel
  exact ⟨h, parse_ignores_trivia h⟩

end NginxConf
