import NginxConf.Diagnostic

/-!
# The order of reports

Sorting keeps reports that begin at the same offset in the order in which they were made
(`startingAt_sort`), and with that the sorted list is known: it does not matter whether reports
are chosen before or after sorting (`filter_sort`), and reports on one side of an offset can be
sorted apart from those on the other (`sort_append`, `sort_eq_append`). So reports around a range
may be kept sorted while those in the range are replaced (`sort_splice`).
-/

namespace NginxConf.Diagnostic

/-- The reports that begin at an offset. -/
def startingAt (offset : Nat) (ds : List Diagnostic) : List Diagnostic :=
  ds.filter fun d => d.span.start == offset

/-- **Sorting is stable.** -/
theorem startingAt_sort (offset : Nat) (ds : List Diagnostic) :
    startingAt offset (sort ds) = startingAt offset ds := by
  have hsorted : (startingAt offset ds).Pairwise
      fun a b => decide (a.span.start ≤ b.span.start) = true := by
    refine List.pairwise_iff_forall_sublist.2 fun {a b} hab => ?_
    have ha := (List.mem_filter.1 (hab.subset (List.mem_cons_self))).2
    have hb := (List.mem_filter.1 (hab.subset (List.mem_cons_of_mem _ List.mem_cons_self))).2
    rw [beq_iff_eq] at ha hb
    rw [ha, hb]
    exact decide_eq_true (Nat.le_refl _)
  have hsub : (startingAt offset ds).Sublist (sort ds) :=
    List.sublist_mergeSort
      (fun a b c hab hbc => by
        rw [decide_eq_true_eq] at hab hbc ⊢
        exact Nat.le_trans hab hbc)
      (fun a b => by
        rw [Bool.or_eq_true, decide_eq_true_eq, decide_eq_true_eq]
        exact Nat.le_total _ _)
      hsorted List.filter_sublist
  have hfilter := hsub.filter fun d => d.span.start == offset
  rw [startingAt, List.filter_filter] at hfilter
  simp only [Bool.and_self] at hfilter
  exact (hfilter.eq_of_length ((sort_perm ds).filter _).length_eq.symm).symm

theorem startingAt_cons_self (d : Diagnostic) (ds : List Diagnostic) :
    startingAt d.span.start (d :: ds) = d :: startingAt d.span.start ds := by simp [startingAt]

/-- The first of some sorted reports begins no later than any other list of the same reports. -/
theorem start_le_of_startingAt {x y : Diagnostic} {xs ys : List Diagnostic}
    (hy : (y :: ys).Pairwise fun a b => a.span.start ≤ b.span.start)
    (h : startingAt x.span.start (x :: xs) = startingAt x.span.start (y :: ys)) :
    y.span.start ≤ x.span.start := by
  have hmem : x ∈ startingAt x.span.start (y :: ys) := by
    rw [← h, startingAt_cons_self]
    exact List.mem_cons_self
  rcases List.mem_cons.1 (List.mem_filter.1 hmem).1 with rfl | hx
  · exact Nat.le_refl _
  · exact (List.pairwise_cons.1 hy).1 x hx

/-- Sorted lists with the same reports at each offset are the same. -/
theorem eq_of_startingAt {xs ys : List Diagnostic}
    (hx : xs.Pairwise fun a b => a.span.start ≤ b.span.start)
    (hy : ys.Pairwise fun a b => a.span.start ≤ b.span.start)
    (h : ∀ offset, startingAt offset xs = startingAt offset ys) : xs = ys := by
  induction xs generalizing ys with
  | nil =>
    cases ys with
    | nil => rfl
    | cons y ys => simpa [startingAt] using h y.span.start
  | cons x xs ih =>
    cases ys with
    | nil => simpa [startingAt] using h x.span.start
    | cons y ys =>
      have hstart : x.span.start = y.span.start :=
        Nat.le_antisymm (start_le_of_startingAt hx (h y.span.start).symm)
          (start_le_of_startingAt hy (h x.span.start))
      have hfirst := h x.span.start
      rw [startingAt_cons_self, hstart, startingAt_cons_self] at hfirst
      obtain ⟨rfl, -⟩ := List.cons.inj hfirst
      refine congrArg _
        (ih (List.pairwise_cons.1 hx).2 (List.pairwise_cons.1 hy).2 fun offset => ?_)
      have hmore := h offset
      by_cases hx : x.span.start = offset
      · subst hx
        rw [startingAt_cons_self, startingAt_cons_self] at hmore
        exact (List.cons.inj hmore).2
      · simpa [startingAt, hx] using hmore

/-- **Reports may be chosen before or after sorting.** -/
theorem filter_sort (p : Diagnostic → Bool) (ds : List Diagnostic) :
    (sort ds).filter p = sort (ds.filter p) := by
  refine eq_of_startingAt ((sort_sorted ds).filter p) (sort_sorted _) fun offset => ?_
  have hcomm : ∀ xs : List Diagnostic,
      startingAt offset (xs.filter p) = (startingAt offset xs).filter p := by
    intro xs
    rw [startingAt, startingAt, List.filter_filter, List.filter_filter]
    simp only [Bool.and_comm]
  rw [startingAt_sort, hcomm, hcomm, startingAt_sort]

/-- **Reports that begin no later than any of the others are sorted first.** -/
theorem sort_append {xs ys : List Diagnostic}
    (h : ∀ x ∈ xs, ∀ y ∈ ys, x.span.start ≤ y.span.start) :
    sort (xs ++ ys) = sort xs ++ sort ys := by
  have hsorted : (sort xs ++ sort ys).Pairwise fun a b => a.span.start ≤ b.span.start := by
    refine List.pairwise_append.2 ⟨sort_sorted xs, sort_sorted ys, fun x hx y hy => ?_⟩
    exact h x ((sort_perm xs).mem_iff.1 hx) y ((sort_perm ys).mem_iff.1 hy)
  have happend : ∀ (offset : Nat) (as bs : List Diagnostic),
      startingAt offset (as ++ bs) = startingAt offset as ++ startingAt offset bs :=
    fun _ _ _ => List.filter_append _ _
  refine eq_of_startingAt (sort_sorted _) hsorted fun offset => ?_
  rw [startingAt_sort, happend, happend, startingAt_sort, startingAt_sort]

/-- Reports that are moved without changing their order are sorted as before. -/
theorem sort_map {f : Diagnostic → Diagnostic} {ds : List Diagnostic}
    (h : ∀ a ∈ ds, ∀ b ∈ ds, a.span.start ≤ b.span.start ↔ (f a).span.start ≤ (f b).span.start) :
    sort (ds.map f) = (sort ds).map f :=
  (List.map_mergeSort fun a ha b hb => by rw [decide_eq_decide]; exact h a ha b hb).symm

section Congr

variable {ι : Type} {r s : ι → ι → Bool}

theorem merge_congr {xs ys : List ι} (h : ∀ x ∈ xs, ∀ y ∈ ys, r x y = s x y) :
    xs.merge ys r = xs.merge ys s := by
  have hmap : (xs.merge ys r).map id = (xs.map id).merge (ys.map id) s := List.map_merge h
  rwa [List.map_id, List.map_id, List.map_id] at hmap

/-- A sort compares an element only with elements that come later. -/
theorem mergeSort_congr {xs : List ι} (h : xs.Pairwise fun x y => r x y = s x y) :
    xs.mergeSort r = xs.mergeSort s := by
  induction xs, r using List.mergeSort.induct with
  | case1 r => rw [List.mergeSort, List.mergeSort]
  | case2 r x => rw [List.mergeSort, List.mergeSort]
  | case3 x y xs r halves _ _ ihl ihr =>
    simp only [halves, List.MergeSort.Internal.splitInTwo_fst,
      List.MergeSort.Internal.splitInTwo_snd] at ihl ihr
    rw [List.mergeSort, List.mergeSort, List.MergeSort.Internal.splitInTwo_fst,
      List.MergeSort.Internal.splitInTwo_snd, ihl h.take, ihr h.drop]
    refine merge_congr fun x hx y hy => ?_
    exact h.rel_of_mem_take_of_mem_drop (List.mem_mergeSort.1 hx) (List.mem_mergeSort.1 hy)

end Congr

/-- **Reports that compare alike with those made later are sorted alike.** -/
theorem sort_alike {ι : Type} {f g : ι → Diagnostic} {is : List ι}
    (h : is.Pairwise fun i j =>
      ((f i).span.start ≤ (f j).span.start ↔ (g i).span.start ≤ (g j).span.start)) :
    ∃ js : List ι, js.Perm is ∧ sort (is.map f) = js.map f ∧ sort (is.map g) = js.map g := by
  have hsort : ∀ f : ι → Diagnostic, sort (is.map f)
      = (is.mergeSort fun i j => decide ((f i).span.start ≤ (f j).span.start)).map f := by
    intro f
    rw [sort]
    exact (List.map_mergeSort (f := f) fun _ _ _ _ => rfl).symm
  refine ⟨_, List.mergeSort_perm is _, hsort f, ?_⟩
  rw [hsort g]
  refine congrArg _ (mergeSort_congr (h.imp fun hij => ?_))
  rw [decide_eq_decide]
  exact hij.symm
/-- **Reports on one side of an offset are sorted apart from those on the other.** -/
theorem sort_eq_append (offset : Nat) (ds : List Diagnostic) :
    sort ds = sort (ds.filter fun d => decide (d.span.start < offset))
      ++ sort (ds.filter fun d => !decide (d.span.start < offset)) := by
  have hsplit : ∀ xs : List Diagnostic, xs.Pairwise (fun a b => a.span.start ≤ b.span.start) →
      xs = xs.filter (fun d => decide (d.span.start < offset))
        ++ xs.filter (fun d => !decide (d.span.start < offset)) := by
    intro xs hxs
    induction xs with
    | nil => rfl
    | cons x xs ih =>
      obtain ⟨hx, hxs⟩ := List.pairwise_cons.1 hxs
      by_cases hlt : x.span.start < offset
      · simpa [hlt] using ih hxs
      · -- what comes after a report past the offset is past it, too
        have hnone : xs.filter (fun d => decide (d.span.start < offset)) = [] := by
          refine List.filter_eq_nil_iff.2 fun d hd => ?_
          have := hx d hd
          simp only [decide_eq_true_eq]
          omega
        have hrest := ih hxs
        rw [hnone] at hrest
        simpa [hlt, hnone] using hrest
  rw [← filter_sort, ← filter_sort]
  exact hsplit _ (sort_sorted ds)

/-- Reports before, in and after a range are sorted apart. -/
theorem sort_eq_append_range {low high : Nat} (h : low ≤ high) (ds : List Diagnostic) :
    sort ds = sort (ds.filter fun d => decide (d.span.start < low))
      ++ sort (ds.filter fun d => !decide (d.span.start < low) && !decide (high < d.span.start))
      ++ sort (ds.filter fun d => decide (high < d.span.start)) := by
  have hmiddle : (ds.filter fun d => !decide (d.span.start < low)).filter
        (fun d => decide (d.span.start < high + 1))
      = ds.filter fun d => !decide (d.span.start < low) && !decide (high < d.span.start) := by
    rw [List.filter_filter]
    congr 1
    funext d
    rw [Bool.eq_iff_iff]
    simp only [Bool.and_eq_true, Bool.not_eq_true', decide_eq_true_eq, decide_eq_false_iff_not]
    omega
  have hlast : (ds.filter fun d => !decide (d.span.start < low)).filter
        (fun d => !decide (d.span.start < high + 1))
      = ds.filter fun d => decide (high < d.span.start) := by
    rw [List.filter_filter]
    congr 1
    funext d
    rw [Bool.eq_iff_iff]
    simp only [Bool.and_eq_true, Bool.not_eq_true', decide_eq_true_eq, decide_eq_false_iff_not]
    omega
  rw [sort_eq_append low ds,
    sort_eq_append (high + 1) (ds.filter fun d => !decide (d.span.start < low)), hmiddle, hlast,
    List.append_assoc]

/-! ## Reports around a range -/

section Splice

variable {ι : Type} {old new : ι → Diagnostic} {move : Diagnostic → Diagnostic}
  {low high high' : Nat}

variable {before inner after outer : List ι} {inner' : List Diagnostic}
  (houter : ∀ i ∈ outer, (new i = old i ∧ (old i).span.start < low) ∨
    (new i = move (old i) ∧ high < (old i).span.start))
  (hmove : ∀ d : Diagnostic, high < d.span.start → high' < (move d).span.start)
  (hlow : low ≤ high) (hlow' : low ≤ high')

include houter hmove hlow hlow'

/-- The reports that do not change, and those that are moved. -/
theorem filter_map_outer :
    (outer.map new).filter (fun d => decide (d.span.start < low))
        = (outer.map old).filter (fun d => decide (d.span.start < low)) ∧
      (outer.map new).filter (fun d => decide (high' < d.span.start))
        = ((outer.map old).filter (fun d => decide (high < d.span.start))).map move := by
  induction outer with
  | nil => exact ⟨rfl, rfl⟩
  | cons i outer ih =>
    obtain ⟨hi, hmore⟩ := List.forall_mem_cons.1 houter
    obtain ⟨h1, h2⟩ := ih hmore
    rcases hi with ⟨hnew, hlt⟩ | ⟨hnew, hlt⟩
    · have hhigh : ¬ high' < (old i).span.start := by omega
      have hhigh' : ¬ high < (old i).span.start := by omega
      simp [hnew, hlt, hhigh, hhigh', h1, h2]
    · have hlt' := hmove (old i) hlt
      have hless : ¬ (move (old i)).span.start < low := by omega
      have hless' : ¬ (old i).span.start < low := by omega
      simp [hnew, hlt, hlt', hless, hless', h1, h2]

omit hlow hlow' in
/-- No report outside of the range begins in it. -/
theorem filter_map_outer_range : (outer.map new).filter
    (fun d => !decide (d.span.start < low) && !decide (high' < d.span.start)) = [] := by
  refine List.filter_eq_nil_iff.2 fun d hd => ?_
  obtain ⟨i, hi, rfl⟩ := List.mem_map.1 hd
  rcases houter i hi with ⟨hnew, hlt⟩ | ⟨hnew, hlt⟩
  · simp [hnew, hlt]
  · simp [hnew, hmove _ hlt]

omit houter

/-- **Reports in a range may be replaced, and those after it moved, once all are sorted.** -/
theorem sort_splice
    (hinner : ∀ i ∈ inner, low ≤ (old i).span.start ∧ (old i).span.start ≤ high)
    (hinner' : ∀ d ∈ inner', low ≤ d.span.start ∧ d.span.start ≤ high')
    (houter : ∀ i ∈ before ++ after, (new i = old i ∧ (old i).span.start < low) ∨
      (new i = move (old i) ∧ high < (old i).span.start))
    (hmono : ∀ c d : Diagnostic, high < c.span.start → high < d.span.start →
      (c.span.start ≤ d.span.start ↔ (move c).span.start ≤ (move d).span.start)) :
    sort (before.map new ++ inner' ++ after.map new)
      = (sort ((before ++ inner ++ after).map old)).filter (fun d => decide (d.span.start < low))
        ++ sort inner'
        ++ ((sort ((before ++ inner ++ after).map old)).filter
          (fun d => decide (high < d.span.start))).map move := by
  have hb : ∀ i ∈ before, _ := fun i hi => houter i (List.mem_append_left _ hi)
  have ha : ∀ i ∈ after, _ := fun i hi => houter i (List.mem_append_right _ hi)
  obtain ⟨hb1, hb2⟩ := filter_map_outer hb hmove hlow hlow'
  obtain ⟨ha1, ha2⟩ := filter_map_outer ha hmove hlow hlow'
  have hb3 := filter_map_outer_range hb hmove
  have ha3 := filter_map_outer_range ha hmove
  have hnone : ∀ d ∈ inner.map old, ¬ d.span.start < low ∧ ¬ high < d.span.start := by
    intro d hd
    obtain ⟨i, hi, rfl⟩ := List.mem_map.1 hd
    have := hinner i hi
    omega
  have hi1 : (inner.map old).filter (fun d => decide (d.span.start < low)) = [] :=
    List.filter_eq_nil_iff.2 fun d hd => by simpa using (hnone d hd).1
  have hi2 : (inner.map old).filter (fun d => decide (high < d.span.start)) = [] :=
    List.filter_eq_nil_iff.2 fun d hd => by simpa using (hnone d hd).2
  have hi1' : inner'.filter (fun d => decide (d.span.start < low)) = [] :=
    List.filter_eq_nil_iff.2 fun d hd => by simpa using (hinner' d hd).1
  have hi2' : inner'.filter (fun d => decide (high' < d.span.start)) = [] :=
    List.filter_eq_nil_iff.2 fun d hd => by simpa using (hinner' d hd).2
  have hi3' : inner'.filter
      (fun d => !decide (d.span.start < low) && !decide (high' < d.span.start)) = inner' :=
    List.filter_eq_self.2 fun d hd => by simpa using hinner' d hd
  have hmoved : ∀ ds : List Diagnostic,
      sort ((ds.filter fun d => decide (high < d.span.start)).map move)
        = (sort (ds.filter fun d => decide (high < d.span.start))).map move := by
    intro ds
    refine sort_map fun c hc d hd => hmono c d ?_ ?_
    · exact of_decide_eq_true (List.mem_filter.1 hc).2
    · exact of_decide_eq_true (List.mem_filter.1 hd).2
  rw [sort_eq_append_range hlow', filter_sort, filter_sort, ← hmoved]
  simp only [List.map_append, List.filter_append, hb1, hb2, hb3, ha1, ha2, ha3, hi1, hi2, hi1',
    hi2', hi3', List.nil_append, List.append_nil]

end Splice

end NginxConf.Diagnostic
