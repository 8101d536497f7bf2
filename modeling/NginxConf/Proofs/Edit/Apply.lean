import NginxConf.Edit

/-!
# When an edit fits

An edit fits exactly where its range cuts the text in three (`apply_eq_ok`); of the other edits it is
said which fault is reported (`apply_outOfBounds`, `apply_notABoundary`).
-/

namespace NginxConf

namespace Text

variable {a b c s : Text}

/-- The part between two offsets is what stands between what stands before and after it. -/
theorem slice_append {start stop : Nat} (ha : size a = start) (hb : start + size b = stop) :
    slice (a ++ b ++ c) start stop = b := by
  have hstart : splitAt? (a ++ b ++ c) start = some (a, b ++ c) :=
    splitAt?_eq_some.2 ⟨List.append_assoc _ _ _, ha⟩
  have hstop : splitAt? (b ++ c) (stop - start) = some (b, c) :=
    splitAt?_eq_some.2 ⟨rfl, by omega⟩
  simp only [slice, hstart, hstop]

end Text

namespace Edit

variable {e : Edit} {s edited : Text}

theorem apply_outOfBounds (h : Text.size s < e.removed.stop) :
    e.apply s = .error (.outOfBounds e.removed (Text.size s)) := by
  rw [apply, if_pos h]

/-- Of two ends inside of characters, the first one is reported. -/
theorem apply_notABoundary (h : e.removed.stop ≤ Text.size s)
    (hb : ¬ (s.isBoundary e.removed.start = true ∧ s.isBoundary e.removed.stop = true)) :
    e.apply s = .error (.notABoundary
      (if s.isBoundary e.removed.start then e.removed.stop else e.removed.start)) := by
  rw [apply, if_neg (Nat.not_lt.2 h)]
  unfold Text.isBoundary at hb ⊢
  cases hstart : Text.splitAt? s e.removed.start with
  | none => rfl
  | some cut =>
    cases hstop : Text.splitAt? s e.removed.stop with
    | none => rfl
    | some cut' => simp [hstart, hstop] at hb

/-- **An edit that fits cuts the text in three and puts its own text in the middle.** -/
theorem apply_eq_ok (hle : e.removed.start ≤ e.removed.stop) (h : e.apply s = .ok edited) :
    ∃ before removed after, s = before ++ removed ++ after ∧ Text.size before = e.removed.start ∧
      e.removed.start + Text.size removed = e.removed.stop ∧
      edited = before ++ e.inserted ++ after := by
  rw [apply] at h
  split at h
  · cases h
  · split at h
    · cases h
    · cases h
    · next before rest taken after hstart hstop =>
      cases h
      obtain ⟨hs, hbefore⟩ := Text.splitAt?_eq_some.1 hstart
      obtain ⟨hs', htaken⟩ := Text.splitAt?_eq_some.1 hstop
      obtain ⟨removed, rfl, -⟩ := Text.exists_of_append_eq_append (hs.symm.trans hs')
        (by rw [hbefore, htaken]; exact hle)
      rw [Text.size_append] at htaken
      exact ⟨before, removed, after, hs', hbefore, by omega, rfl⟩

/-- An edit whose ends are between characters fits. -/
theorem exists_apply_eq_ok (h : e.removed.stop ≤ Text.size s)
    (hstart : s.isBoundary e.removed.start = true) (hstop : s.isBoundary e.removed.stop = true) :
    ∃ edited, e.apply s = .ok edited := by
  obtain ⟨cut, hcut⟩ := Option.isSome_iff_exists.1 hstart
  obtain ⟨cut', hcut'⟩ := Option.isSome_iff_exists.1 hstop
  rw [apply, if_neg (Nat.not_lt.2 h), hcut, hcut']
  exact ⟨_, rfl⟩

end Edit

end NginxConf
