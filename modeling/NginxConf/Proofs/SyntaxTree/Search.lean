import NginxConf.Proofs.SyntaxTree.Pieces
import NginxConf.SyntaxTree.Search

/-!
# Pieces at an offset

Bisection finds the first number that satisfies a condition (`bisect_eq`). The pieces of a node
stand one after the other, so those that end before an offset come first, and the piece that
bisection finds is the one at which a scan from the left would stop (`NodeRef.scan_leafAt`).
-/

namespace NginxConf

/-- Bisection finds the number below which the condition fails and from which on it holds. -/
theorem bisect_eq {p : Nat → Bool} {lo hi k : Nat} (hlo : lo ≤ k) (hhi : k ≤ hi)
    (hbelow : ∀ i, lo ≤ i → i < k → p i = false) (habove : ∀ i, k ≤ i → i < hi → p i = true) :
    bisect p lo hi = k := by
  fun_induction bisect p lo hi with
  | case1 lo hi hlt mid hmid ih =>
    have hk : k ≤ mid := Nat.not_lt.1 fun hlt' => by simp [hbelow mid (by omega) hlt'] at hmid
    exact ih hlo hk hbelow fun i hi hi' => habove i hi (by omega)
  | case2 lo hi hlt mid hmid ih =>
    have hk : mid < k := Nat.not_le.1 fun hle => hmid (habove mid hle (by omega))
    exact ih hk hhi (fun i hi => hbelow i (by omega)) habove
  | case3 lo hi hle => omega

/-! ## Pieces one after the other -/

namespace LeafRef

@[simp]
theorem span_start (l : LeafRef) : l.span.start = l.start := rfl

theorem start_le_stop (l : LeafRef) : l.span.start ≤ l.span.stop := Nat.le_add_right _ _

theorem start_lt_stop {l : LeafRef} (h : l.text ≠ []) : l.span.start < l.span.stop :=
  Nat.lt_add_of_pos_right (Nat.pos_of_ne_zero fun hsize => h (Text.size_eq_zero.1 hsize))

end LeafRef

/-- Where a piece stands among others, between two offsets: behind those before it, before those
behind it, and without a gap to either side. -/
structure LeafRef.Amid (l : LeafRef) (start : Nat) (before after : List LeafRef) (stop : Nat) :
    Prop where
  start_le : start ≤ l.span.start
  le_stop : l.span.stop ≤ stop
  of_before : ∀ m ∈ before, start ≤ m.span.start ∧ m.span.stop ≤ l.span.start
  of_after : ∀ m ∈ after, l.span.stop ≤ m.span.start ∧ m.span.stop ≤ stop
  last_before : (before.getLast?.map fun m => m.span.stop).getD start = l.span.start
  first_after : (after.head?.map fun m => m.span.start).getD stop = l.span.stop

namespace Tiled

variable {offset : Nat} {s : Text} {ls ms before after : List LeafRef} {l : LeafRef}

theorem of_append (h : Tiled offset (ls ++ ms) s) :
    ∃ s₁ s₂, s = s₁ ++ s₂ ∧ Tiled offset ls s₁ ∧ Tiled (offset + Text.size s₁) ms s₂ := by
  induction ls generalizing offset s with
  | nil => exact ⟨[], s, rfl, rfl, h⟩
  | cons l ls ih =>
    obtain ⟨hstart, rest, rfl, hrest⟩ := h
    obtain ⟨s₁, s₂, rfl, hls, hms⟩ := ih hrest
    refine ⟨l.text ++ s₁, s₂, (List.append_assoc _ _ _).symm, ⟨hstart, s₁, rfl, hls⟩, ?_⟩
    rwa [Text.size_append, ← Nat.add_assoc]

/-- Pieces lie between the ends of their text. -/
theorem between (h : Tiled offset ls s) :
    ∀ l ∈ ls, offset ≤ l.span.start ∧ l.span.stop ≤ offset + Text.size s := by
  induction ls generalizing offset s with
  | nil => simp
  | cons l ls ih =>
    obtain ⟨hstart, rest, rfl, hrest⟩ := h
    have hmore := ih hrest
    simp only [LeafRef.span, Text.size_append] at hmore ⊢
    refine List.forall_mem_cons.2 ⟨by omega, fun m hm => ?_⟩
    have := hmore m hm
    omega

/-- The last piece ends where the text ends. -/
theorem last_stop (h : Tiled offset ls s) :
    (ls.getLast?.map fun m => m.span.stop).getD offset = offset + Text.size s := by
  rcases List.eq_nil_or_concat ls with rfl | ⟨init, l, rfl⟩
  · rw [show s = [] from h]
    rfl
  · rw [List.concat_eq_append] at h ⊢
    obtain ⟨s₁, s₂, rfl, -, hstart, rest, rfl, hrest⟩ := h.of_append
    rw [show rest = [] from hrest, List.getLast?_concat, Option.map_some, Option.getD_some,
      Text.size_append, List.append_nil, LeafRef.span, hstart, Nat.add_assoc]

theorem amid (h : Tiled offset (before ++ l :: after) s) :
    l.Amid offset before after (offset + Text.size s) := by
  obtain ⟨s₁, s₂, rfl, hbefore, hstart, rest, rfl, hafter⟩ := h.of_append
  have hstop : l.span.stop = offset + Text.size s₁ + Text.size l.text := by
    rw [LeafRef.span, hstart]
  have hend : offset + Text.size (s₁ ++ (l.text ++ rest)) = l.span.stop + Text.size rest := by
    simp [hstop, Nat.add_assoc]
  rw [← hstop] at hafter
  rw [← l.span_start] at hstart
  rw [hend]
  refine ⟨?_, Nat.le_add_right _ _, ?_, hafter.between, ?_, ?_⟩
  · rw [hstart]
    exact Nat.le_add_right _ _
  · rw [hstart]
    exact hbefore.between
  · rw [hstart, hbefore.last_stop]
  · cases after with
    | nil =>
      rw [show rest = [] from hafter]
      rfl
    | cons r after => exact hafter.1

end Tiled

/-! ## The scan -/

/-- The pieces that meet at an offset where this piece is the first one that does not end before
it, and that one comes next. -/
def LeafRef.meeting (l : LeafRef) (offset : Nat) : Option LeafRef → AtOffset
  | some r => if l.span.stop = offset then .between l r else .single l
  | none => .single l

theorem LeafRef.meeting_of_ne {l : LeafRef} {offset : Nat} (h : l.span.stop ≠ offset)
    (next : Option LeafRef) : l.meeting offset next = .single l := by
  cases next with
  | none => rfl
  | some r => exact if_neg h

/-- To the right there is the next piece, if there is one and it begins at the offset. -/
theorem LeafRef.right?_meeting (l : LeafRef) (offset : Nat) (next : Option LeafRef) :
    (l.meeting offset next).right? = some (if l.span.stop = offset then next.getD l else l) := by
  cases next with
  | none => exact congrArg some (ite_self l).symm
  | some r =>
    rw [meeting, apply_ite AtOffset.right?, apply_ite some]
    rfl

theorem LeafRef.meeting_ne_none (l : LeafRef) (offset : Nat) (next : Option LeafRef) :
    l.meeting offset next ≠ .none := by
  cases next with
  | none => nofun
  | some r =>
    rw [meeting]
    split <;> nofun

namespace NodeRef

variable {n : NodeRef} {offset : Nat} {before after : List LeafRef} {l : LeafRef}

theorem amid_leaves (h : n.leaves = before ++ l :: after) :
    l.Amid n.span.start before after n.span.stop := by
  have htiled := n.tiled_leaves
  rw [h] at htiled
  rw [span, ← size_text]
  exact htiled.amid

/-- Where the offset lies outside of the node, there is no piece. -/
theorem leafAt_of_not_touches (h : n.span.touches offset = false) : n.leafAt offset = .none := by
  rw [leafAt, LeafIndex.touching, leafIndex, h]
  rfl

theorem leafAt_of_leaves_nil (h : n.leaves = []) : n.leafAt offset = .none := by
  rw [leafAt, LeafIndex.touching, leafIndex, h]
  simp

/-- The piece at which a scan would stop is found. -/
theorem leafAt_of_split (ht : n.span.touches offset = true) (h : n.leaves = before ++ l :: after)
    (hbefore : ∀ m ∈ before, m.span.stop < offset) (hl : offset ≤ l.span.stop) :
    n.leafAt offset = l.meeting offset after.head? := by
  have hamid := amid_leaves h
  have hlength : n.leaves.length = before.length + (after.length + 1) := by
    rw [h, List.length_append, List.length_cons]
  have hindex : bisect (fun i => n.leaves[i]?.any (offset ≤ ·.span.stop)) 0 n.leaves.length
      = before.length := by
    refine bisect_eq (Nat.zero_le _) (by omega) (fun i _ hi => ?_) (fun i hi hi' => ?_)
    · rw [h, List.getElem?_append_left hi, List.getElem?_eq_getElem hi]
      have := hbefore _ (List.getElem_mem hi)
      simp only [Option.any_some, decide_eq_false_iff_not]
      omega
    · obtain ⟨j, rfl⟩ := Nat.exists_eq_add_of_le hi
      rw [h, List.getElem?_append_right hi, Nat.add_sub_cancel_left]
      cases j with
      | zero => simpa using hl
      | succ j =>
        have hj : j < after.length := by omega
        have hm := hamid.of_after _ (List.getElem_mem hj)
        have hle := after[j].start_le_stop
        simp only [List.getElem?_cons_succ, List.getElem?_eq_getElem hj, Option.any_some,
          decide_eq_true_eq]
        omega
  have hhere : n.leaves[before.length]? = some l := by simp [h]
  have hnext : n.leaves[before.length + 1]? = after.head? := by
    rw [h, List.getElem?_append_right (by omega)]
    simp [List.head?_eq_getElem?]
  rw [leafAt, LeafIndex.touching, leafIndex, if_pos ht]
  simp only [List.getElem?_toArray, List.size_toArray, hindex, hhere, hnext]
  cases after.head? with
  | none => simp [LeafRef.meeting]
  | some r => rfl

/-- A scan stops. -/
theorem exists_split (ht : n.span.touches offset = true) (hne : n.leaves ≠ []) :
    ∃ before l after, n.leaves = before ++ l :: after ∧
      (∀ m ∈ before, m.span.stop < offset) ∧ offset ≤ l.span.stop := by
  simp only [Span.touches, Bool.and_eq_true, decide_eq_true_eq] at ht
  cases hfind : n.leaves.find? fun l => decide (offset ≤ l.span.stop) with
  | some l =>
    obtain ⟨hl, before, after, h, hbefore⟩ := List.find?_eq_some_iff_append.1 hfind
    refine ⟨before, l, after, h, fun m hm => ?_, by simpa using hl⟩
    simpa using hbefore m hm
  | none =>
    -- the last piece ends with the node
    obtain ⟨init, l, hlast⟩ := (List.eq_nil_or_concat n.leaves).resolve_left hne
    rw [List.concat_eq_append] at hlast
    have hstop : n.span.stop = l.span.stop := (amid_leaves hlast).first_after
    have hnot := List.find?_eq_none.1 hfind l (by simp [hlast])
    simp only [decide_eq_true_eq] at hnot
    omega

/-- The piece at which a scan stops touches the offset. -/
theorem touches_of_split (ht : n.span.touches offset = true)
    (h : n.leaves = before ++ l :: after) (hbefore : ∀ m ∈ before, m.span.stop < offset)
    (hl : offset ≤ l.span.stop) : l.span.touches offset = true := by
  have hlast := (amid_leaves h).last_before
  simp only [Span.touches, Bool.and_eq_true, decide_eq_true_eq] at ht ⊢
  refine ⟨?_, hl⟩
  rw [← hlast]
  cases hm : before.getLast? with
  | none => exact ht.1
  | some m => exact Nat.le_of_lt (hbefore m (List.mem_of_getLast? hm))

/-- To the right of an offset in a node there is a piece of the node that touches it. It goes on
behind the offset if it is not empty and the offset is not the end of the node. -/
theorem exists_right_of_touches (ht : n.span.touches offset = true) (hne : n.leaves ≠ []) :
    ∃ l ∈ n.leaves, (n.leafAt offset).right? = some l ∧ l.span.touches offset = true ∧
      (offset < l.span.stop ∨ l.text = [] ∨ offset = n.span.stop) := by
  obtain ⟨before, l, after, h, hbefore, hl⟩ := exists_split ht hne
  have htouches := touches_of_split ht h hbefore hl
  rw [leafAt_of_split ht h hbefore hl, LeafRef.right?_meeting]
  rcases Nat.eq_or_lt_of_le hl with rfl | hlt
  · have hnext := (amid_leaves h).first_after
    rw [if_pos rfl]
    cases after with
    | nil => exact ⟨l, by simp [h], rfl, htouches, .inr (.inr hnext.symm)⟩
    | cons r after =>
      have hstart : r.span.start = l.span.stop := hnext
      have hr : r.start ≤ r.span.stop := r.start_le_stop
      refine ⟨r, by simp [h], rfl, by simp [Span.touches, ← hstart, hr], ?_⟩
      by_cases htext : r.text = []
      · exact .inr (.inl htext)
      · exact .inl (hstart ▸ LeafRef.start_lt_stop htext)
  · rw [if_neg (Nat.ne_of_gt hlt)]
    exact ⟨l, by simp [h], rfl, htouches, .inl hlt⟩

/-- A piece that has the offset in its inside is found alone. -/
theorem leafAt_of_inside (hl : l ∈ n.leaves) (hstart : l.span.start < offset)
    (hstop : offset < l.span.stop) : n.leafAt offset = .single l := by
  obtain ⟨before, after, h⟩ := List.append_of_mem hl
  have hamid := amid_leaves h
  have ht : n.span.touches offset = true := by
    have := hamid.start_le
    have := hamid.le_stop
    simp only [Span.touches, Bool.and_eq_true, decide_eq_true_eq]
    omega
  rw [leafAt_of_split ht h (fun m hm => Nat.lt_of_le_of_lt (hamid.of_before m hm).2 hstart)
    (Nat.le_of_lt hstop)]
  exact LeafRef.meeting_of_ne (Nat.ne_of_gt hstop) _

/--
What a scan of the pieces of a node from the left says of those at an offset. There is none exactly
where the offset lies outside of the node or the node has no pieces. Else the first piece that does
not end before the offset touches it, and is found with the next piece, which begins there, if it
ends there and is not the last one; otherwise it is found alone. So is every piece that has the
offset in its inside.
-/
structure Scan (n : NodeRef) (offset : Nat) (found : AtOffset) : Prop where
  none_iff : found = .none ↔ n.span.touches offset = false ∨ n.leaves = []
  first : n.span.touches offset = true → n.leaves ≠ [] → ∃ before l after,
    n.leaves = before ++ l :: after ∧ (∀ m ∈ before, m.span.stop < offset) ∧
      offset ≤ l.span.stop ∧ l.span.touches offset = true ∧
      (∀ r more, after = r :: more → l.span.stop = offset →
        found = .between l r ∧ r.span.start = offset) ∧
      (after = [] ∨ l.span.stop ≠ offset → found = .single l)
  inside : ∀ l ∈ n.leaves, l.span.start < offset → offset < l.span.stop → found = .single l

/-- **The pieces at an offset are those at which a scan from the left stops.** -/
theorem scan_leafAt (n : NodeRef) (offset : Nat) : n.Scan offset (n.leafAt offset) := by
  refine ⟨⟨fun hnone => ?_, ?_⟩, fun ht hne => ?_, fun l hl => leafAt_of_inside hl⟩
  · refine Classical.or_iff_not_imp_left.2 fun ht => Classical.byContradiction fun hne => ?_
    rw [Bool.not_eq_false] at ht
    obtain ⟨before, l, after, h, hbefore, hl⟩ := exists_split ht hne
    rw [leafAt_of_split ht h hbefore hl] at hnone
    exact l.meeting_ne_none offset after.head? hnone
  · rintro (ht | hnil)
    · exact leafAt_of_not_touches ht
    · exact leafAt_of_leaves_nil hnil
  · obtain ⟨before, l, after, h, hbefore, hl⟩ := exists_split ht hne
    have hfound := leafAt_of_split ht h hbefore hl
    refine ⟨before, l, after, h, hbefore, hl, touches_of_split ht h hbefore hl, ?_, ?_⟩
    · rintro r more rfl hstop
      refine ⟨hfound.trans (if_pos hstop), ?_⟩
      exact (amid_leaves h).first_after.trans hstop
    · rintro (rfl | hstop)
      · exact hfound
      · exact hfound.trans (LeafRef.meeting_of_ne hstop _)

end NodeRef

/-! ## Keys -/

theorem NodeKey.ofNode_eq_iff {k : NodeKey} {n : NodeRef} :
    .ofNode n = k ↔ k.kind = .node n.kind ∧ k.span = n.trimmedSpan := by
  cases k
  simp only [ofNode, mk.injEq, eq_comm]

theorem NodeKey.describes_iff {k : NodeKey} {n : NodeRef} :
    k.describes n = true ↔ .ofNode n = k := by
  rw [ofNode_eq_iff, describes, Bool.and_eq_true, beq_iff_eq, beq_iff_eq]

end NginxConf
