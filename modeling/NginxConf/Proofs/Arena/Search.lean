import NginxConf.Arena.Search
import NginxConf.Proofs.Arena.Places
import NginxConf.Proofs.SyntaxTree.Cover

/-!
# Finding the same in a tree and in its arena

Bisection of the stored ends finds the pieces that are found in the tree (`touching?_eq`), and the
numbers of parents lead to the nodes around a node (`forall₂_up`). So the same element is found
around a range (`covering?_eq`), and the same node by a key (`resolve?_eq`).
-/

namespace NginxConf

/-- In lists whose elements belong together, the same element is found. -/
theorem rel_find? {α β : Type} {R : α → β → Prop} {p : α → Bool} {q : β → Bool}
    {xs : List α} {ys : List β} (h : List.Forall₂ R xs ys)
    (hpq : ∀ {x y}, R x y → p x = q y) : Option.Rel R (xs.find? p) (ys.find? q) := by
  induction h with
  | nil => exact .none
  | @cons x y xs ys hxy hmore ih =>
    rw [List.find?_cons, List.find?_cons, hpq hxy]
    cases q y with
    | true => exact .some hxy
    | false => exact ih

namespace Arena

variable {t : SyntaxTree} {i j : Nat} {n : NodeRef} {l : LeafRef} {cell : Cell} {piece : Piece}

/-! ## Pieces at an offset -/

/-- What is found at an offset, in the tree. -/
def Touching.read? (t : SyntaxTree) : Touching → Option AtOffset
  | none => some .none
  | single i => (t.pieceAt? i).map .single
  | between i j => do return .between (← t.pieceAt? i) (← t.pieceAt? j)

theorem StoresPiece.pieceSpan? (h : StoresPiece t i piece l) :
    (ofTree t).pieceSpan? i = some l.span := by
  rw [Arena.pieceSpan?, h.start, startOf?_succ h.stored, h.stop]
  exact span?_of_le l.start_le_stop

theorem le_length_of_startOf? {a : Arena} {offset : Nat} (h : a.startOf? i = some offset) :
    i ≤ a.pieces.length := by
  cases i with
  | zero => exact Nat.zero_le _
  | succ i =>
    obtain ⟨piece, hpiece, -⟩ := Option.map_eq_some_iff.1 h
    exact (List.getElem?_eq_some_iff.1 hpiece).1

/-- The numbers of the pieces of a node are those of pieces. -/
theorem StoresNode.between (h : StoresNode t i cell n) :
    cell.first ≤ cell.stop ∧ cell.stop ≤ (ofTree t).pieces.length := by
  refine ⟨h.stop ▸ Nat.le_add_right _ _, ?_⟩
  have hspan := h.span
  rw [nodeSpan?, h.stored] at hspan
  simp only [Option.bind_eq_bind, Option.bind_some, Option.bind_eq_some_iff] at hspan
  obtain ⟨start, -, stop, hstop, -⟩ := hspan
  exact le_length_of_startOf? hstop

/-- A piece of a node stands where the arena has it. -/
theorem StoresNode.pieceAt? (h : StoresNode t i cell n) {k : Nat} (hk : n.leaves[k]? = some l) :
    t.pieceAt? (cell.first + k) = some l :=
  h.leaves.getElem? hk

/-- What bisection asks of a piece of a node. -/
theorem StoresNode.any_stop (h : StoresNode t i cell n) {k offset : Nat}
    (hk : n.leaves[k]? = some l) :
    (ofTree t).pieces[cell.first + k]?.any (offset ≤ ·.stop) = decide (offset ≤ l.span.stop) := by
  obtain ⟨piece, hpiece⟩ := t.storesPiece (h.pieceAt? hk)
  rw [hpiece.stored, Option.any_some, hpiece.stop]

/-- Bisection of the pieces of a node finds the one at which a scan would stop. -/
theorem StoresNode.bisect_eq {before after : List LeafRef} {offset : Nat}
    (h : StoresNode t i cell n) (hleaves : n.leaves = before ++ l :: after)
    (hbefore : ∀ m ∈ before, m.span.stop < offset) (hl : offset ≤ l.span.stop) :
    bisect (fun i => (ofTree t).pieces[i]?.any (offset ≤ ·.stop)) cell.first cell.stop
      = cell.first + before.length := by
  have hamid := NodeRef.amid_leaves hleaves
  have hstop := h.stop
  rw [hleaves, List.length_append, List.length_cons] at hstop
  refine NginxConf.bisect_eq (by omega) (by omega) (fun j hj hj' => ?_) (fun j hj hj' => ?_)
  · obtain ⟨k, rfl⟩ := Nat.exists_eq_add_of_le hj
    have hk : k < before.length := by omega
    have hm : n.leaves[k]? = some before[k] := by
      rw [hleaves, List.getElem?_append_left hk, List.getElem?_eq_getElem hk]
    rw [h.any_stop hm, decide_eq_false_iff_not, Nat.not_le]
    exact hbefore _ (List.getElem_mem hk)
  · obtain ⟨k, rfl⟩ := Nat.exists_eq_add_of_le hj
    cases k with
    | zero =>
      have hm : n.leaves[before.length]? = some l := by simp [hleaves]
      rw [Nat.add_zero, h.any_stop hm, decide_eq_true_eq]
      exact hl
    | succ k =>
      have hk : k < after.length := by omega
      have hm : n.leaves[before.length + (k + 1)]? = some after[k] := by
        rw [hleaves, List.getElem?_append_right (Nat.le_add_right _ _), Nat.add_sub_cancel_left,
          List.getElem?_cons_succ, List.getElem?_eq_getElem hk]
      rw [Nat.add_assoc, h.any_stop hm, decide_eq_true_eq]
      have := hamid.of_after _ (List.getElem_mem hk)
      have := after[k].start_le_stop
      omega

theorem StoresNode.touching? (h : StoresNode t i cell n) (offset : Nat) :
    (ofTree t).touching? i offset =
      if n.span.touches offset then
        let k := bisect (fun i => (ofTree t).pieces[i]?.any (offset ≤ ·.stop)) cell.first cell.stop
        if k < cell.stop then do
          let here ← (ofTree t).pieceSpan? k
          if here.stop = offset ∧ k + 1 < cell.stop then some (.between k (k + 1))
          else some (.single k)
        else some .none
      else some .none := by
  rw [Arena.touching?, h.stored]
  simp only [Option.bind_eq_bind, Option.bind_some, h.span, if_pos h.between]

/-- The piece at which a scan would stop is found, with the next one if it ends at the offset. -/
theorem StoresNode.touching?_of_split {before after : List LeafRef} {offset : Nat}
    (h : StoresNode t i cell n) (ht : n.span.touches offset = true)
    (hleaves : n.leaves = before ++ l :: after) (hbefore : ∀ m ∈ before, m.span.stop < offset)
    (hl : offset ≤ l.span.stop) :
    ((ofTree t).touching? i offset).bind (Touching.read? t)
      = some (l.meeting offset after.head?) := by
  have hstop := h.stop
  rw [hleaves, List.length_append, List.length_cons] at hstop
  have hhere : t.pieceAt? (cell.first + before.length) = some l := h.pieceAt? (by simp [hleaves])
  obtain ⟨piece, hpiece⟩ := t.storesPiece hhere
  rw [h.touching?, if_pos ht, h.bisect_eq hleaves hbefore hl]
  simp only [if_pos (show cell.first + before.length < cell.stop by omega), hpiece.pieceSpan?,
    Option.bind_eq_bind, Option.bind_some]
  cases after with
  | nil =>
    rw [if_neg (by simp at hstop; omega), Option.bind_some, Touching.read?, hhere]
    rfl
  | cons r after =>
    have hnext : t.pieceAt? (cell.first + before.length + 1) = some r := by
      rw [Nat.add_assoc]
      exact h.pieceAt? (by simp [hleaves])
    have hlt : cell.first + before.length + 1 < cell.stop := by
      simp only [List.length_cons] at hstop
      omega
    rw [List.head?_cons, LeafRef.meeting]
    by_cases hend : l.span.stop = offset
    · rw [if_pos ⟨hend, hlt⟩, if_pos hend, Option.bind_some, Touching.read?, hhere, hnext]
      rfl
    · rw [if_neg fun h => hend h.1, if_neg hend, Option.bind_some, Touching.read?, hhere]
      rfl

/-- **At an offset, the same pieces are found in a tree and in its arena.** -/
theorem touching?_eq (h : t.nodeAt? i = some n) (offset : Nat) :
    ((ofTree t).touching? i offset).bind (Touching.read? t) = some (n.leafAt offset) := by
  obtain ⟨cell, hcell⟩ := t.storesNode h
  cases ht : n.span.touches offset with
  | false =>
    rw [hcell.touching?, NodeRef.leafAt_of_not_touches ht, ht]
    rfl
  | true =>
    by_cases hne : n.leaves = []
    · -- there is nothing to bisect
      have hempty : cell.stop = cell.first := by
        rw [hcell.stop, hne]
        rfl
      rw [hcell.touching?, NodeRef.leafAt_of_leaves_nil hne, if_pos ht, hempty,
        NginxConf.bisect_eq (Nat.le_refl _) (Nat.le_refl _) (by omega) (by omega)]
      simp only [Nat.lt_irrefl, if_false]
      rfl
    · obtain ⟨before, l, after, hleaves, hbefore, hl⟩ := NodeRef.exists_split ht hne
      rw [hcell.touching?_of_split ht hleaves hbefore hl,
        NodeRef.leafAt_of_split ht hleaves hbefore hl]

/--
**At an offset, bisection finds what a scan from the left would find.** It does so among the pieces of
each node, and where these are a part of all pieces of an arena, what it finds there has the same
places in the tree.
-/
theorem bisection_scans (offset : Nat) :
    (∀ n : NodeRef, n.Scan offset (n.leafAt offset)) ∧
    ∀ (t : SyntaxTree) (i : Nat), i < (ofTree t).nodes.length → ∃ n, t.nodeAt? i = some n ∧
      ((ofTree t).touching? i offset).bind (Touching.read? t) = some (n.leafAt offset) := by
  refine ⟨fun n => n.scan_leafAt offset, fun t i hi => ?_⟩
  obtain ⟨n, hn⟩ := SyntaxTree.exists_nodeAt?_iff.2 hi
  exact ⟨n, hn, touching?_eq hn offset⟩

/-- Two pieces meet at the end of a word, but in the node of the word it is the last one. -/
theorem bisection_scans_end_of_word :
    let t : SyntaxTree := ⟨.sourceFile, [.node .directive [.leaf ⟨[], .word, ['a'], []⟩],
      .node .error [], .leaf ⟨[], .semicolon, [';'], []⟩]⟩
    (ofTree t).touching? 0 1 = some (.between 1 2) ∧ (ofTree t).touching? 1 1 = some (.single 1) ∧
      (ofTree t).touching? 2 1 = some .none ∧
      ∃ n, t.nodeAt? 1 = some n ∧ n.Scan 1 (n.leafAt 1) ∧
        ((ofTree t).touching? 1 1).bind (Touching.read? t) = some (n.leafAt 1) := by
  intro t
  obtain ⟨n, hn, hread⟩ := (bisection_scans 1).2 t 1 (by decide)
  exact ⟨by decide +kernel, by decide +kernel, by decide +kernel, n, hn, (bisection_scans 1).1 n,
    hread⟩

/-! ## The way up -/

/-- **The numbers of parents lead to the nodes around a node.** -/
theorem forall₂_up (h : t.nodeAt? i = some n) :
    List.Forall₂ (fun j m => t.nodeAt? j = some m) ((ofTree t).up i) n.ancestors := by
  induction i using Nat.strongRecOn generalizing n with
  | ind i ih =>
    obtain ⟨cell, hcell⟩ := t.storesNode h
    have hparent := hcell.parent
    rw [up, hcell.stored, Option.bind_some, n.ancestors_eq]
    generalize cell.parent = p?, n.parent? = m? at hparent
    cases hparent with
    | none => exact .cons h .nil
    | @some p m hpm =>
      obtain ⟨hlt, hm⟩ := hpm
      simp only [if_pos hlt]
      exact .cons h (ih p hlt hm)

/-! ## The smallest element around a range -/

/-- What is found around a range, in the tree. -/
def Child.cover? (t : SyntaxTree) : Child → Option Cover
  | .node i => (t.nodeAt? i).map .node
  | .piece i => (t.pieceAt? i).map .leaf

/-- To the right of an offset, the same piece is found. -/
theorem Touching.right?_eq {r : Touching} {found : AtOffset} (h : r.read? t = some found) :
    Option.Rel (fun j l => t.pieceAt? j = some l) r.right? found.right? := by
  cases r with
  | none =>
    cases h
    exact .none
  | single i =>
    obtain ⟨l, hl, rfl⟩ := Option.map_eq_some_iff.1 h
    exact .some hl
  | between i j =>
    simp only [read?, Option.bind_eq_bind, Option.bind_eq_some_iff, Option.pure_def,
      Option.some.injEq] at h
    obtain ⟨l, -, r, hr, rfl⟩ := h
    exact .some hr

/-- **Around a range, the same element is found in a tree and in its arena.** -/
theorem covering?_eq (h : t.nodeAt? i = some n) (range : Span) :
    ((ofTree t).covering? i range).bind (Child.cover? t) = some (n.covering range) := by
  obtain ⟨r, hr, hread⟩ := Option.bind_eq_some_iff.1 (touching?_eq h range.start)
  have hright := Touching.right?_eq hread
  rw [covering?, hr, NodeRef.covering]
  simp only [Option.bind_eq_bind, Option.bind_some]
  generalize r.right? = j?, (n.leafAt range.start).right? = l? at hright
  cases hright with
  | none => exact congrArg (Option.map Cover.node) h
  | @some j l hl =>
    obtain ⟨piece, hpiece⟩ := t.storesPiece hl
    simp only [hpiece.pieceSpan?, hpiece.stored, Option.bind_some]
    cases hcontains : l.span.contains range with
    | true => exact congrArg (Option.map Cover.leaf) hl
    | false =>
      have hfind := rel_find? (forall₂_up hpiece.parent)
        (p := fun m => ((ofTree t).nodeSpan? m).any (·.contains range))
        (q := fun m => m.span.contains range) fun hm => by
          obtain ⟨cell, hcell⟩ := t.storesNode hm
          rw [hcell.span, Option.any_some]
      simp only [Bool.false_eq_true, if_false, Option.bind_some, Child.cover?]
      generalize List.find? _ ((ofTree t).up piece.parent) = j?,
        List.find? _ l.parent.ancestors = m? at hfind
      cases hfind with
      | none => exact congrArg (Option.map Cover.node) h
      | some hm => exact congrArg (Option.map Cover.node) hm

/-! ## The innermost node of a kind and a range -/

theorem StoresPiece.isSolid (h : StoresPiece t i piece l) : (ofTree t).isSolid i = !l.isTrivia := by
  rw [Arena.isSolid, h.stored, Option.any_some, h.kind]
  rfl

/-- **The range without the trivia at its ends is the same in a tree and in its arena.** -/
theorem trimmedSpan?_eq (h : t.nodeAt? i = some n) :
    (ofTree t).trimmedSpan? i = some n.trimmedSpan := by
  obtain ⟨cell, hcell⟩ := t.storesNode h
  have hpieces := hcell.leaves.forall₂
  have hsolid : ∀ {j l}, t.pieceAt? j = some l → (ofTree t).isSolid j = !l.isTrivia := by
    intro j l hl
    obtain ⟨piece, hpiece⟩ := t.storesPiece hl
    exact hpiece.isSolid
  have hfirst := rel_find? hpieces (q := (!·.isTrivia)) hsolid
  have hlast := rel_find? (List.rel_reverse hpieces) (q := (!·.isTrivia)) hsolid
  have hle := n.trimmedSpan_start_le
  rw [trimmedSpan?, hcell.stored]
  rw [n.trimmedSpan_eq_find?] at hle ⊢
  simp only [Option.bind_eq_bind, Option.bind_some, hcell.stop, Nat.add_sub_cancel_left]
  generalize List.find? _ (List.range' _ _) = i?, n.leaves.find? _ = l? at hfirst hle
  generalize List.find? _ (List.range' _ _).reverse = j?, n.leaves.reverse.find? _ = m? at hlast hle
  cases hfirst with
  | none => simp only [hcell.span, Option.bind_some]; rfl
  | some hl =>
    cases hlast with
    | none => simp only [hcell.span, Option.bind_some]; rfl
    | some hm =>
      obtain ⟨piece, hpiece⟩ := t.storesPiece hl
      obtain ⟨piece', hpiece'⟩ := t.storesPiece hm
      simp only [hpiece.pieceSpan?, hpiece'.pieceSpan?, Option.bind_some]
      exact span?_of_le hle

/-- The key of a node is the same in a tree and in its arena. -/
theorem key?_eq (h : t.nodeAt? i = some n) : (ofTree t).key? i = some (.ofNode n) := by
  obtain ⟨cell, hcell⟩ := t.storesNode h
  rw [key?, hcell.stored]
  simp only [Option.bind_eq_bind, Option.bind_some, trimmedSpan?_eq h, hcell.kind]
  rfl

/-- The search for a key begins at the same node. -/
theorem nearest?_eq (h : t.nodeAt? i = some n) (range : Span) :
    ∃ j, (ofTree t).nearest? i range = some j ∧
      t.nodeAt? j = some (n.covering range).nearestNode := by
  obtain ⟨c, hc, hread⟩ := Option.bind_eq_some_iff.1 (covering?_eq h range)
  rw [nearest?, hc]
  cases c with
  | node j =>
    obtain ⟨m, hm, hcover⟩ := Option.map_eq_some_iff.1 hread
    rw [← hcover]
    exact ⟨j, rfl, hm⟩
  | piece j =>
    obtain ⟨l, hl, hcover⟩ := Option.map_eq_some_iff.1 hread
    obtain ⟨piece, hpiece⟩ := t.storesPiece hl
    rw [← hcover]
    exact ⟨piece.parent, congrArg (Option.map Piece.parent) hpiece.stored, hpiece.parent⟩

/-- **By a key, the same node is found in a tree and in its arena.** -/
theorem resolve?_eq (h : t.nodeAt? i = some n) (k : NodeKey) :
    ∃ r, (ofTree t).resolve? k i = some r ∧
      Option.Rel (fun j m => t.nodeAt? j = some m) r (k.resolve? n) := by
  obtain ⟨cell, hcell⟩ := t.storesNode h
  obtain ⟨j, hj, hnear⟩ := nearest?_eq h k.span
  have hroot : cell.parent.isNone = n.above.isEmpty := by
    have hparent := hcell.parent
    rw [NodeRef.parent?] at hparent
    generalize cell.parent = p?, n.above = above at hparent
    cases above with
    | nil => cases hparent; rfl
    | cons p above => cases hparent; rfl
  have hfind := rel_find? (forall₂_up hnear) (p := fun j => (ofTree t).key? j = some k)
    (q := k.describes) fun hm => by
      rw [key?_eq hm, Bool.eq_iff_iff, decide_eq_true_iff, NodeKey.describes_iff, Option.some_inj]
  rw [resolve?, hcell.stored, NodeKey.resolve?, ← hroot]
  simp only [Option.bind_eq_bind, Option.bind_some, hj]
  cases cell.parent.isNone with
  | true => exact ⟨_, rfl, hfind⟩
  | false => exact ⟨none, rfl, .none⟩

end Arena

end NginxConf
