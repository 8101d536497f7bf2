import NginxConf.Proofs.Arena.Build

/-!
# What an arena can hold

The numbers in an arena have 32 bits. All lists grow until the root is finished, so the largest
numbers are those in the cell of the root, and an arena tells itself whether its numbers are small
enough (`Arena.Fits`). What a builder of trees builds is built in an arena as well if the arena fits,
and is refused otherwise (`Arena.build_eq_ok_iff`).
-/

namespace NginxConf

/-- The numbers of an arena have 32 bits: those of its nodes, and those in the cell of the root. -/
structure Arena.Fits (a : Arena) : Prop where
  nodes : a.nodes.length ≤ Overflow.offsetBound
  root : ∀ cell ∈ a.nodes.head?, cell.stop < Overflow.offsetBound ∧
    cell.childrenStart < Overflow.offsetBound ∧ cell.childrenLength < Overflow.offsetBound

/-! ## Results that depend on the size in one way only -/

/-- A result that is as it should be, a call that is not in order, or no room. -/
inductive Settles (room : Prop) {α : Type} (P : α → Prop) : Except ArenaError α → Prop
  | ok {a} (h : P a) : Settles room P (.ok a)
  | refused (e : BuildError) : Settles room P (.error (.refused e))
  | full {e} (h : ¬ room) : Settles room P (.error e)

namespace Settles

variable {room : Prop} {α β : Type} {P : α → Prop} {Q : β → Prop}

theorem bind {x : Except ArenaError α} {f : α → Except ArenaError β} (h : Settles room P x)
    (hf : ∀ a, P a → Settles room Q (f a)) : Settles room Q (x >>= f) := by
  cases h with
  | ok h => exact hf _ h
  | refused e => exact .refused e
  | full h => exact .full h

theorem mono {P' : α → Prop} {x : Except ArenaError α} (h : Settles room P x)
    (himp : ∀ a, P a → P' a) : Settles room P' x := by
  cases h with
  | ok h => exact .ok (himp _ h)
  | refused e => exact .refused e
  | full h => exact .full h

/-- A number is stored if it is small, as it is where there is room. -/
theorem number {n : Nat} {f : Nat → Except ArenaError β}
    (hroom : room → n < Overflow.offsetBound)
    (hf : n < Overflow.offsetBound → Settles room Q (f n)) :
    Settles room Q (ArenaBuilder.number n >>= f) := by
  unfold ArenaBuilder.number
  split
  · next hn => exact hf hn
  · next hn => exact .full (mt hroom hn)

end Settles

/-! ## Call by call -/

namespace ArenaBuilder

open Arena

variable {b : ArenaBuilder} {room : Prop}

theorem run_append (b : ArenaBuilder) (cs ds : List BuildCall) :
    b.run (cs ++ ds) = b.run cs >>= fun b => b.run ds := by
  induction cs generalizing b with
  | nil => rfl
  | cons c cs ih =>
    rw [List.cons_append, run, run, bind_assoc]
    exact congrArg _ (funext fun b => ih b)

theorem settles_pushPiece (hroom : room → b.pieces.length < Overflow.offsetBound) (kind : Kind)
    (leading trailing size parent : Nat) :
    Settles room (fun p => ∃ piece, p.2 = b.cover [piece] size)
      (b.pushPiece kind leading trailing size parent) := by
  unfold pushPiece
  split
  · exact .refused _
  split
  · exact .refused _
  exact .number hroom fun _ => .ok ⟨_, rfl⟩

theorem settles_pushTrivia (parent : Nat) (ts : List Trivia)
    (hroom : room → b.pieces.length + ts.length ≤ Overflow.offsetBound) :
    Settles room (fun b' => ∃ pieces, pieces.length = ts.length ∧
        b' = b.cover pieces (Trivia.sizeOf ts))
      (b.pushTrivia parent (ts.map Trivia.length)) := by
  induction ts generalizing b with
  | nil => exact .ok ⟨[], rfl, by simp [cover, Trivia.sizeOf]⟩
  | cons t ts ih =>
    rw [List.length_cons] at hroom
    refine (settles_pushPiece (fun h => by have := hroom h; omega) _ 0 0 _ parent).bind ?_
    rintro ⟨i, _⟩ ⟨piece, rfl⟩
    refine (ih fun h => ?_).mono ?_
    · have := hroom h
      simp only [cover, List.length_append, List.length_singleton]
      omega
    · rintro _ ⟨pieces, hlength, rfl⟩
      refine ⟨piece :: pieces, by simp [hlength], ?_⟩
      simp [cover, Trivia.sizeOf, Trivia.length, Nat.add_assoc]

/-- How far a builder has come from another one: its lists end at a mark, so many more children wait,
and no other nodes are open. -/
structure Past (b b' : ArenaBuilder) (m : Mark) (waiting : Nat) : Prop where
  mark : b'.mark = m
  pending : b'.pending.length = b.pending.length + waiting
  opened : b'.opened = b.opened
  nodes : b.nodes.length ≤ Overflow.offsetBound → b'.nodes.length ≤ Overflow.offsetBound

theorem settles_token (t : Token)
    (hroom : room → (b.mark.past (.leaf t)).piece ≤ Overflow.offsetBound) :
    Settles room (fun b' => b.Past b' (b.mark.past (.leaf t)) 1) (b.call t.call) := by
  simp only [Mark.past, Mark.pastToken, mark] at hroom
  unfold Token.call call addToken
  dsimp only
  split
  · exact .refused _
  · next parent _ _ _ =>
    refine (settles_pushTrivia parent t.leading fun h => by have := hroom h; omega).bind ?_
    rintro _ ⟨before, hbefore, rfl⟩
    simp only [List.length_map]
    split
    · exact .full fun h => by have := hroom h; omega
    split
    · exact .full fun h => by have := hroom h; omega
    refine (settles_pushPiece (fun h => ?_) _ _ _ _ parent).bind ?_
    · have := hroom h
      simp only [cover, List.length_append, hbefore]
      omega
    rintro ⟨i, _⟩ ⟨piece, rfl⟩
    refine (settles_pushTrivia parent t.trailing fun h => ?_).mono ?_
    · have := hroom h
      simp only [cover, List.length_append, List.length_singleton, hbefore]
      omega
    · rintro _ ⟨after, hafter, rfl⟩
      refine ⟨?_, by simp [cover], rfl, id⟩
      simp [mark, cover, Mark.past, Mark.pastToken, Token.fullSize, Token.leadingSize, hbefore,
        hafter, Nat.add_assoc, Nat.add_comm 1]

theorem settles_startNode (hfirst : (b.innermost?.isNone && !b.nodes.isEmpty) = false)
    (hroom : room → b.nodes.length < Overflow.offsetBound ∧
      b.pieces.length < Overflow.offsetBound) (kind : NodeKind) :
    Settles room (fun b' => b' = b.withNode kind ∧ b.nodes.length < Overflow.offsetBound)
      (b.call (.start (.node kind))) := by
  rw [call, startNode]
  dsimp only [innermost?] at hfirst ⊢
  rw [hfirst]
  refine .number (fun h => (hroom h).1) fun hnodes => .number (fun h => (hroom h).2) fun _ => ?_
  refine .ok ⟨?_, hnodes⟩
  rw [withNode, link, innermost?]
  cases b.opened with
  | nil => simp
  | cons o outer => rfl

/-- The numbers of a node are stored when it is finished. -/
theorem settles_finishNode {index waiting : Nat} {outer : List (Nat × Nat)}
    (hopened : b.opened = (index, waiting) :: outer)
    (hroom : room → b.pieces.length < Overflow.offsetBound ∧
      b.children.length < Overflow.offsetBound ∧
      b.pending.length - waiting < Overflow.offsetBound) :
    Settles room (fun b' => b'.opened = outer ∧ b'.pending.length = min waiting b.pending.length ∧
        b'.mark = { b.mark with child := b.mark.child + (b.pending.length - waiting) } ∧
        b.pieces.length < Overflow.offsetBound ∧ b.children.length < Overflow.offsetBound ∧
        b.pending.length - waiting < Overflow.offsetBound)
      (b.call .finish) := by
  rw [call, finishNode, hopened]
  refine .number (fun h => (hroom h).1) fun hpieces => .number (fun h => (hroom h).2.1)
    fun hchildren => .number (fun h => (hroom h).2.2) fun hlength => ?_
  exact .ok ⟨rfl, by simp, by simp [mark], hpieces, hchildren, hlength⟩

end ArenaBuilder

/-! ## Trees -/

namespace Arena

/-- There is room up to a mark. -/
structure Mark.Room (m : Mark) : Prop where
  node : m.node ≤ Overflow.offsetBound
  piece : m.piece < Overflow.offsetBound
  child : m.child < Overflow.offsetBound

theorem Mark.Room.mono {m m' : Mark} (h : m'.Room) (hle : m.Le m') : m.Room :=
  ⟨Nat.le_trans hle.node h.node, Nat.lt_of_le_of_lt hle.piece h.piece,
    Nat.lt_of_le_of_lt hle.child h.child⟩

end Arena

namespace ArenaBuilder

open Arena

variable {b : ArenaBuilder} {room : Prop}

/-- A node is built if there is room for its children and its own numbers. -/
theorem settles_node {kind : NodeKind} {children : List (Tree Token)}
    (hfirst : (b.innermost?.isNone && !b.nodes.isEmpty) = false)
    (hroom : room → (b.mark.enter.pastAll children).Room ∧
      children.length < Overflow.offsetBound)
    (hforest : (room → ((b.withNode kind).mark.pastAll children).Room) →
      Settles room (fun b' => (b.withNode kind).Past b' ((b.withNode kind).mark.pastAll children)
        children.length) ((b.withNode kind).run (forestCalls children))) :
    Settles room (fun b' => b'.mark = b.mark.past (.node kind children) ∧ b'.opened = b.opened ∧
        b'.pending.length = (b.pending ++ b.link).length ∧
        (b.mark.enter.pastAll children).Room ∧ children.length < Overflow.offsetBound)
      (b.run (treeCalls (.node kind children))) := by
  have hmark : (b.withNode kind).mark = b.mark.enter := by simp [withNode, mark, Mark.enter]
  have hstop := b.mark.enter.le_pastAll children
  rw [hmark] at hforest
  rw [treeCalls, run]
  refine (settles_startNode hfirst (fun h => ?_) kind).bind ?_
  · exact ⟨Nat.le_trans hstop.node (hroom h).1.node,
      Nat.lt_of_le_of_lt hstop.piece (hroom h).1.piece⟩
  rintro _ ⟨rfl, hnodes⟩
  rw [run_append]
  refine (hforest fun h => (hroom h).1).bind fun b' h => ?_
  rw [Mark.past]
  generalize b.mark.enter.pastAll children = stop at hroom h ⊢
  have hpieces : b'.pieces.length = stop.piece := congrArg Mark.piece h.mark
  have hlisted : b'.children.length = stop.child := congrArg Mark.child h.mark
  have hwaiting : b'.pending.length - (b.pending ++ b.link).length = children.length := by
    rw [h.pending, withNode]
    exact Nat.add_sub_cancel_left _ _
  have hcount : b'.nodes.length ≤ Overflow.offsetBound :=
    h.nodes (by simpa [withNode] using Nat.succ_le_of_lt hnodes)
  refine (settles_finishNode h.opened fun hr => ⟨?_, ?_, ?_⟩).bind ?_
  · exact hpieces ▸ (hroom hr).1.piece
  · exact hlisted ▸ (hroom hr).1.child
  · exact hwaiting ▸ (hroom hr).2
  rintro b'' ⟨hopened, hpending, hpast, hpiece, hchild, hlength⟩
  rw [hpieces] at hpiece
  rw [hlisted] at hchild
  rw [hwaiting] at hlength
  refine .ok ⟨?_, hopened, ?_, ⟨?_, hpiece, hchild⟩, hlength⟩
  · rw [hpast, hwaiting, h.mark]
  · rw [hpending, h.pending, withNode]
    exact Nat.min_eq_left (Nat.le_add_right _ _)
  · rwa [← show b'.nodes.length = stop.node from congrArg Mark.node h.mark]

mutual

/-- The calls of a tree are carried out if there is room for it. -/
theorem settles_treeCalls {b : ArenaBuilder} (hinner : b.innermost?.isSome = true) :
    (t : Tree Token) → (room → (b.mark.past t).Room) →
    Settles room (fun b' => b.Past b' (b.mark.past t) 1) (b.run (treeCalls t))
  | .leaf t, hroom => by
    refine (settles_token t fun h => Nat.le_of_lt (hroom h).piece).bind fun b' h => ?_
    exact .ok h
  | .node kind children, hroom => by
    have hfirst : (b.innermost?.isNone && !b.nodes.isEmpty) = false := by
      cases hn : b.innermost? with
      | none => rw [hn] at hinner; cases hinner
      | some n => rfl
    refine (settles_node hfirst (fun h => ?_) (settles_forestCalls rfl children)).mono ?_
    · have hpast := hroom h
      rw [Mark.past] at hpast
      have hchild : _ + children.length < _ := hpast.child
      exact ⟨⟨hpast.node, hpast.piece, by omega⟩, by omega⟩
    · rintro b' ⟨hmark, hopened, hpending, hstop, -⟩
      refine ⟨hmark, ?_, hopened, fun _ => ?_⟩
      · rw [hpending, link, if_pos hinner]
        simp
      · rw [show b'.nodes.length = (b.mark.past (.node kind children)).node from
          congrArg Mark.node hmark, Mark.past]
        exact hstop.node

theorem settles_forestCalls {b : ArenaBuilder} (hinner : b.innermost?.isSome = true) :
    (ts : List (Tree Token)) → (room → (b.mark.pastAll ts).Room) →
    Settles room (fun b' => b.Past b' (b.mark.pastAll ts) ts.length) (b.run (forestCalls ts))
  | [], _ => .ok ⟨rfl, rfl, rfl, id⟩
  | t :: ts, hroom => by
    rw [forestCalls, run_append]
    refine (settles_treeCalls hinner t fun h => (hroom h).mono (Mark.le_pastAll _ ts)).bind ?_
    intro b' h
    refine (settles_forestCalls ?_ ts ?_).mono fun b'' h' => ?_
    · rwa [innermost?, h.opened]
    · rw [h.mark]
      exact hroom
    · refine ⟨h'.mark.trans (by rw [h.mark]; rfl), ?_, h'.opened.trans h.opened,
        fun hn => h'.nodes (h.nodes hn)⟩
      rw [h'.pending, h.pending, List.length_cons]
      omega

end

end ArenaBuilder

namespace Arena

/-- The arena of a tree fits if there is room up to the end of the root. -/
theorem fits_ofTree_iff {t : SyntaxTree} : (ofTree t).Fits ↔
    (Mark.first.enter.pastAll t.children).Room ∧ t.children.length < Overflow.offsetBound := by
  have hnodes : (ofTree t).nodes.length = (Mark.first.enter.pastAll t.children).node := by
    rw [Mark.pastAll_eq 0]
    simp [ofTree, rootBatch, Batch.enclose, Mark.behind, Mark.enter, Mark.first, Nat.add_comm]
  constructor
  · rintro ⟨hcount, hroot⟩
    obtain ⟨hpiece, hchild, hlength⟩ := hroot _ rfl
    exact ⟨⟨hnodes ▸ hcount, hpiece, hchild⟩, hlength⟩
  · rintro ⟨hroom, hlength⟩
    refine ⟨hnodes ▸ hroom.node, ?_⟩
    rintro _ ⟨⟩
    exact ⟨hroom.piece, hroom.child, hlength⟩

/-- The calls of a tree are carried out exactly if its arena fits. -/
theorem settles_build (t : SyntaxTree) (text : Text) :
    Settles (ofTree t).Fits (fun _ => (ofTree t).Fits) (build text t.calls) := by
  rw [fits_ofTree_iff]
  refine (ArenaBuilder.settles_node (b := .new text) rfl id
    (ArenaBuilder.settles_forestCalls rfl t.children)).bind ?_
  rintro b ⟨-, -, -, hfits⟩
  unfold ArenaBuilder.finish
  split
  · exact .refused _
  split
  · exact .refused _
  split
  · exact .ok hfits
  · exact .refused _

/-- **What is built as a tree is built in an arena if the arena fits, and only then.** -/
theorem build_eq_ok_iff {text : Text} {cs : List BuildCall} {t : SyntaxTree}
    (h : Builder.build text cs = .ok t) : build text cs = .ok (ofTree t) ↔ (ofTree t).Fits := by
  obtain ⟨-, hcalls, -⟩ := Builder.build_eq_ok h
  have hsettles := settles_build t text
  have hagree := agree_build text cs
  rw [h] at hagree
  rw [hcalls] at hsettles
  generalize build text cs = built at hsettles hagree ⊢
  cases hagree with
  | ok h =>
    cases hsettles with
    | ok hfits => exact ⟨fun _ => hfits, fun _ => by rw [h]⟩
  | full h =>
    cases hsettles with
    | refused e => exact absurd rfl (h e)
    | full hroom => exact ⟨nofun, fun hfits => absurd hfits hroom⟩

/-- What is refused as a tree is refused in an arena, for the same reason unless the arena is full
before. -/
theorem build_eq_error {text : Text} {cs : List BuildCall} {e : BuildError}
    (h : Builder.build text cs = .error e) : build text cs = .error (.refused e) ∨
      ∃ full, (∀ r, full ≠ .refused r) ∧ build text cs = .error full := by
  have hagree := agree_build text cs
  rw [h] at hagree
  generalize build text cs = built at hagree ⊢
  cases hagree with
  | refused => exact .inl rfl
  | full h => exact .inr ⟨_, h, rfl⟩

end Arena

end NginxConf
