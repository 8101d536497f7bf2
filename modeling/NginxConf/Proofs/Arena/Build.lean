import NginxConf.Arena.Builder
import NginxConf.Proofs.Arena.Layout
import NginxConf.Proofs.SyntaxTree.Build

/-!
# The arena that is built

The builder of an arena does the same as a builder of trees. After each call, its lists are those of
the nodes that are open and of the trees in them (`ArenaBuilder.Stage`), and a call that one of the
two refuses is refused by the other one, unless the arena has grown too large. So what is built is
the arena of the tree (`agree_build`).
-/

namespace NginxConf

/-! ## What two builders come to -/

/-- Results that belong together, the same refusal, or an arena that is too large. -/
inductive Agree {α β : Type} (R : α → β → Prop) :
    Except ArenaError α → Except BuildError β → Prop
  | ok {a b} (h : R a b) : Agree R (.ok a) (.ok b)
  | refused (e : BuildError) : Agree R (.error (.refused e)) (.error e)
  | full {e y} (h : ∀ r, e ≠ .refused r) : Agree R (.error e) y

namespace Agree

variable {α β γ δ : Type} {R : α → β → Prop} {S : γ → δ → Prop}

theorem bind {x : Except ArenaError α} {y : Except BuildError β} {f : α → Except ArenaError γ}
    {g : β → Except BuildError δ} (h : Agree R x y) (hf : ∀ a b, R a b → Agree S (f a) (g b)) :
    Agree S (x >>= f) (y >>= g) := by
  cases h with
  | ok h => exact hf _ _ h
  | refused e => exact .refused e
  | full h => exact .full h

theorem mono {R' : α → β → Prop} {x : Except ArenaError α} {y : Except BuildError β}
    (h : Agree R x y) (himp : ∀ a b, y = .ok b → R a b → R' a b) : Agree R' x y := by
  cases h with
  | ok h => exact .ok (himp _ _ rfl h)
  | refused e => exact .refused e
  | full h => exact .full h

/-- A number that cannot be stored ends the matter. -/
theorem number {n : Nat} {f : Nat → Except ArenaError γ} {y : Except BuildError δ}
    (h : Agree S (f n) y) : Agree S (ArenaBuilder.number n >>= f) y := by
  unfold ArenaBuilder.number
  split
  · exact h
  · exact .full (by simp)

end Agree

namespace ArenaBuilder

open Arena

/-! ## How the lists grow -/

/-- The marks up to which the lists are filled. -/
def mark (b : ArenaBuilder) : Mark := ⟨b.nodes.length, b.pieces.length, b.children.length, b.offset⟩

/-- The innermost node. -/
def innermost? (b : ArenaBuilder) : Option Nat := b.opened.head?.map Prod.fst

/-- The builder behind some more pieces. -/
def cover (b : ArenaBuilder) (pieces : List Piece) (size : Nat) : ArenaBuilder :=
  { b with pieces := b.pieces ++ pieces, offset := b.offset + size }

/-- The builder with another batch, and with more children that wait. -/
def grow (b : ArenaBuilder) (batch : Batch) (waiting : List Child) (size : Nat) : ArenaBuilder :=
  { b with
    pieces := b.pieces ++ batch.pieces
    nodes := b.nodes ++ batch.nodes
    children := b.children ++ batch.children
    pending := b.pending ++ waiting
    offset := b.offset + size }

/-- The builder with some more trees in its innermost node. -/
def withTrees (b : ArenaBuilder) (ts : List (Tree Token)) : ArenaBuilder :=
  b.grow (forestBatch (b.innermost?.getD 0) b.mark ts) (b.mark.refs ts)
    (Tree.forestSum Token.fullSize ts)

/-- The child that a node is of the innermost one. -/
def link (b : ArenaBuilder) : List Child :=
  if b.innermost?.isSome then [.node b.nodes.length] else []

/-- The builder with another node open. -/
def withNode (b : ArenaBuilder) (kind : NodeKind) : ArenaBuilder :=
  { b with
    nodes := b.nodes ++ [⟨b.innermost?, 0, 0, kind, b.pieces.length, b.pieces.length⟩]
    pending := b.pending ++ b.link
    opened := (b.nodes.length, (b.pending ++ b.link).length) :: b.opened }

/-- What the builder has when these nodes are open, innermost first. -/
def opening (text : Text) : List (NodeKind × List (Tree Token)) → ArenaBuilder
  | [] => new text
  | (kind, children) :: outer => ((opening text outer).withNode kind).withTrees children.reverse

/-- What the builder has when the root is finished. -/
def closing (text : Text) (root : SyntaxTree) : ArenaBuilder :=
  (new text).grow (rootBatch root) [] (Tree.forestSum Token.fullSize root.children)

variable {b : ArenaBuilder}

theorem withTrees_nil (b : ArenaBuilder) : b.withTrees [] = b := by
  simp [withTrees, grow, forestBatch, Mark.refs, Tree.forestSum]

theorem withTrees_append (b : ArenaBuilder) (ss ts : List (Tree Token)) :
    (b.withTrees ss).withTrees ts = b.withTrees (ss ++ ts) := by
  have hmark : (b.withTrees ss).mark = b.mark.pastAll ss := by
    rw [Mark.pastAll_eq (b.innermost?.getD 0)]
    simp [withTrees, grow, mark, Mark.behind]
  have hinner : (b.withTrees ss).innermost? = b.innermost? := rfl
  rw [withTrees, hmark, hinner]
  simp [withTrees, grow, forestBatch_append, Mark.refs_append, Batch.append, Nat.add_assoc]

theorem withTrees_leaf {parent : Nat} (h : b.innermost? = some parent) (u : Token) :
    b.withTrees [.leaf u] = { b with
      pieces := b.pieces ++ tokenPieces parent b.offset u
      pending := b.pending ++ [.piece (b.pieces.length + u.leading.length)]
      offset := b.offset + u.fullSize } := by
  simp [withTrees, grow, h, forestBatch, treeBatch, Batch.append, mark, Mark.refs, Mark.ref,
    Tree.forestSum, Tree.sum]

theorem withTrees_node (parent : Nat) (h : b.innermost? = some parent) (kind : NodeKind)
    (children : List (Tree Token)) :
    b.withTrees [.node kind children]
      = b.grow (.enclose b.innermost? b.mark kind children
        (forestBatch b.nodes.length b.mark.enter children)) b.link
        (Tree.forestSum Token.fullSize children) := by
  simp [withTrees, grow, h, forestBatch, treeBatch, Batch.append, Batch.enclose, mark, Mark.refs,
    Mark.ref, link, Tree.forestSum, Tree.sum]

/-- Where a node is started, it has no children yet. -/
theorem agree_withNode {β : Type} {R : ArenaBuilder → β → Prop} {y : β} {kind : NodeKind}
    (hfirst : (b.innermost?.isNone && !b.nodes.isEmpty) = false) (h : R (b.withNode kind) y) :
    Agree R (b.startNode (.node kind)) (.ok y) := by
  rw [startNode]
  dsimp only [innermost?] at hfirst ⊢
  rw [hfirst]
  refine .number (.number (.ok (Eq.mpr (congrArg (R · y) ?_) h)))
  rw [withNode, link, innermost?]
  cases b.opened with
  | nil => simp
  | cons o outer => rfl

/-- Where a node is finished, its children are listed, and it is a child that waits itself. -/
theorem agree_listed {β : Type} {R : ArenaBuilder → β → Prop} {y : β} {kind : NodeKind}
    {children : List (Tree Token)}
    (h : R (b.grow (.enclose b.innermost? b.mark kind children
      (forestBatch b.nodes.length b.mark.enter children)) b.link
      (Tree.forestSum Token.fullSize children)) y) :
    Agree R ((b.withNode kind).withTrees children).finishNode (.ok y) := by
  have hinner : (b.withNode kind).innermost? = some b.nodes.length := rfl
  have hmark : (b.withNode kind).mark = b.mark.enter := by simp [withNode, mark, Mark.enter]
  have hstop := b.mark.enter.pastAll_eq b.nodes.length children
  have hopened : ((b.withNode kind).withTrees children).opened
      = (b.nodes.length, (b.pending ++ b.link).length) :: b.opened := rfl
  rw [finishNode, hopened]
  refine .number (.number (.number (.ok (Eq.mpr (congrArg (R · y) ?_) h))))
  -- the cell of the node stands right behind `b.nodes`, as it was when the node was started
  rw [withTrees, hinner, hmark, Option.getD_some]
  simp only [grow, withNode, Batch.enclose, hstop, List.append_assoc b.nodes,
    List.singleton_append, List.modify_eq_take_drop, List.drop_left, List.take_left,
    List.modifyHead_cons]
  simp [Mark.behind, mark, Mark.enter]
  omega

/-! ## Text that is covered -/

/-- Both builders have covered the same part of a text. -/
structure Covered (b : ArenaBuilder) (t : Builder) : Prop where
  offset : b.offset = t.offset
  text : ∃ before, b.text = before ++ t.rest ∧ Text.size before = t.offset

theorem Covered.waiting {t : Builder} (h : b.Covered t) (pending : List Child) :
    { b with pending }.Covered t :=
  ⟨h.offset, h.text⟩

/-- Two builders have the same trees. -/
structure Beside (t t' : Builder) : Prop where
  opened : t'.opened = t.opened
  root : t'.root = t.root

theorem Beside.trans {t t' t'' : Builder} (h : Beside t t') (h' : Beside t' t'') : Beside t t'' :=
  ⟨h'.opened.trans h.opened, h'.root.trans h.root⟩

variable {t : Builder}

/-- Both cover the same piece of the text, or refuse it. -/
theorem agree_pushPiece (h : b.Covered t) (kind : Kind) (leading trailing size parent : Nat) :
    Agree (fun p q => p.1 = b.pieces.length ∧
        p.2 = b.cover [⟨kind, leading, trailing, b.offset + size, parent⟩] size ∧
        Text.size q.1 = size ∧ Beside t q.2 ∧ p.2.Covered q.2)
      (b.pushPiece kind leading trailing size parent) (t.take size) := by
  obtain ⟨before, htext, hbefore⟩ := h.text
  unfold pushPiece Builder.take
  rw [h.offset]
  by_cases hbound : Overflow.offsetBound ≤ t.offset + size
  · rw [if_pos hbound, if_pos hbound]
    exact .refused _
  rw [if_neg hbound, if_neg hbound]
  have hboundary : b.text.isBoundary (t.offset + size) = (Text.splitAt? t.rest size).isSome := by
    rw [htext, ← hbefore, Text.isBoundary_append_add]
    rfl
  rw [hboundary]
  cases hcut : Text.splitAt? t.rest size with
  | none => exact .refused _
  | some cut =>
    obtain ⟨piece, rest⟩ := cut
    obtain ⟨hrest, hsize⟩ := Text.splitAt?_eq_some.1 hcut
    have hend : b.text = (before ++ piece) ++ rest := by
      rw [htext, hrest, List.append_assoc]
    have hoffset : Text.size (before ++ piece) = t.offset + size := by
      rw [Text.size_append, hbefore, hsize]
    refine .number (.ok ⟨rfl, ?_, hsize, ⟨rfl, rfl⟩, ?_, before ++ piece, hend, hoffset⟩)
    · rw [cover, h.offset]
    · rfl

/-- Both cover the same pieces of trivia, or refuse them. -/
theorem agree_pushTrivia (h : b.Covered t) (parent : Nat) (lengths : List TriviaLength) :
    Agree (fun b' q => b' = b.cover (triviaPieces parent b.offset q.1) (Trivia.sizeOf q.1) ∧
        q.1.length = lengths.length ∧ Beside t q.2 ∧ b'.Covered q.2)
      (b.pushTrivia parent lengths) (t.takeTrivia lengths) := by
  induction lengths generalizing b t with
  | nil => exact .ok ⟨by simp [cover, triviaPieces, Trivia.sizeOf], rfl, ⟨rfl, rfl⟩, h⟩
  | cons l ls ih =>
    rw [pushTrivia, Builder.takeTrivia]
    refine (agree_pushPiece h _ 0 0 l.size parent).bind ?_
    rintro ⟨i, b₁⟩ ⟨piece, t₁⟩ ⟨-, rfl, hsize, hbeside, hcovered⟩
    dsimp only at hsize hbeside hcovered ⊢
    -- only the builder of trees has something left to do, so the other one gets an empty step
    rw [← bind_pure (pushTrivia _ parent ls)]
    refine (ih hcovered).bind ?_
    rintro b₂ ⟨more, t₂⟩ ⟨rfl, hlength, hbeside', hcovered'⟩
    refine .ok ⟨?_, ?_, hbeside.trans hbeside', hcovered'⟩
    · simp [cover, triviaPieces, Trivia.sizeOf, Trivia.size, hsize, Nat.add_assoc]
    · simp [hlength]

/-- Both add the same token, or refuse it. -/
theorem agree_addToken (h : b.Covered t) (leading : List TriviaLength) (kind : TokenKind)
    (size : Nat) (trailing : List TriviaLength) (hb : b.innermost?.isSome = !t.opened.isEmpty) :
    Agree (fun b' t' => ∃ u k ts outer, t.opened = (k, ts) :: outer ∧
        b' = b.withTrees [.leaf u] ∧ t'.opened = (k, .leaf u :: ts) :: outer ∧
        t'.root = t.root ∧ b'.Covered t')
      (b.addToken leading (.token kind) size trailing)
      (t.addToken leading (.token kind) size trailing) := by
  unfold addToken Builder.addToken
  dsimp only
  cases hopened : b.opened with
  | nil =>
    have hempty : t.opened.isEmpty = true := by
      simpa [innermost?, hopened] using hb
    rw [if_pos hempty]
    exact .refused _
  | cons o outer =>
    obtain ⟨parent, waiting⟩ := o
    have hempty : t.opened.isEmpty = false := by
      simpa [innermost?, hopened] using hb
    obtain ⟨⟨k, ts⟩, more, ho⟩ := List.exists_cons_of_ne_nil
      (show t.opened ≠ [] by simpa using hempty)
    -- from here on, both do the same in the same order: trivia, counts, the token, trivia
    dsimp only
    rw [if_neg (by simp [hempty])]
    refine (agree_pushTrivia h parent leading).bind ?_
    rintro b₁ ⟨before, t₁⟩ ⟨rfl, hleading, hbeside₁, hcovered₁⟩
    dsimp only at hleading hbeside₁ hcovered₁ ⊢
    by_cases hmany : Overflow.offsetBound ≤ leading.length
    · rw [if_pos hmany]
      exact .full (by simp)
    rw [if_neg hmany]
    by_cases hmany' : Overflow.offsetBound ≤ trailing.length
    · rw [if_pos hmany']
      exact .full (by simp)
    rw [if_neg hmany']
    refine (agree_pushPiece hcovered₁ _ _ _ size parent).bind ?_
    rintro ⟨i, b₂⟩ ⟨text, t₂⟩ ⟨hi, rfl, hsize, hbeside₂, hcovered₂⟩
    dsimp only at hi hsize hbeside₂ hcovered₂ ⊢
    rw [← bind_pure (pushTrivia _ parent trailing)]
    refine (agree_pushTrivia (hcovered₂.waiting _) parent trailing).bind ?_
    rintro b₃ ⟨after, t₃⟩ ⟨rfl, htrailing, hbeside₃, hcovered₃⟩
    dsimp only at htrailing hbeside₃ hcovered₃ ⊢
    have hbeside : Beside t t₃ := (hbeside₁.trans hbeside₂).trans hbeside₃
    rw [Builder.add, hbeside.opened, ho]
    refine .ok ⟨⟨before, kind, text, after⟩, k, ts, more, rfl, ?_, rfl, hbeside.root,
      hcovered₃.offset, hcovered₃.text⟩
    rw [withTrees_leaf (show b.innermost? = some parent by rw [innermost?, hopened]; rfl)]
    simp [cover, tokenPieces, Token.fullSize, Token.leadingSize, Token.size, hi, hleading,
      htrailing, hsize, Nat.add_assoc]

/-! ## Call by call -/

/-- The lists are those of what a builder of trees has: of its open nodes, or of its root. -/
inductive Stage (text : Text) : ArenaBuilder → Builder → Prop
  | opened {t : Builder} (hroot : t.root = none) : Stage text (opening text t.opened) t
  | closed {t : Builder} {root : SyntaxTree} (hopened : t.opened = [])
    (hroot : t.root = some root) : Stage text (closing text root) t

/-- The builder of an arena has come as far as the one of trees. -/
structure Follows (b : ArenaBuilder) (text : Text) (t : Builder) : Prop where
  stage : Stage text b t
  covered : b.Covered t

variable {text : Text}

theorem isSome_innermost?_opening (os : List (NodeKind × List (Tree Token))) :
    (opening text os).innermost?.isSome = !os.isEmpty := by
  cases os <;> rfl

theorem agree_startNode (h : b.Follows text t) (kind : Kind) :
    Agree (fun b t => b.Follows text t) (b.startNode kind) (t.startNode kind) := by
  obtain ⟨hstage, hcovered⟩ := h
  cases kind with
  | leaf kind => exact .refused _
  | node kind =>
    cases hstage with
    | closed hopened hroot =>
      rw [startNode, Builder.startNode, hopened, hroot]
      exact .refused _
    | opened hroot =>
      have hfirst : ((opening text t.opened).innermost?.isNone
          && !(opening text t.opened).nodes.isEmpty) = false := by
        cases t.opened <;> rfl
      have hnode : Stage text _ { t with opened := (kind, []) :: t.opened } := .opened hroot
      rw [opening, List.reverse_nil, withTrees_nil] at hnode
      have hsecond : (t.opened.isEmpty && t.root.isSome) = false := by
        rw [hroot, Option.isSome_none, Bool.and_false]
      rw [Builder.startNode, hsecond]
      exact agree_withNode hfirst ⟨hnode, hcovered.offset, hcovered.text⟩

theorem agree_finishNode (h : b.Follows text t) :
    Agree (fun b t => b.Follows text t) b.finishNode t.finishNode := by
  obtain ⟨hstage, hcovered⟩ := h
  cases hstage with
  | closed hopened hroot =>
    rw [Builder.finishNode, hopened]
    exact .refused _
  | opened hroot =>
    unfold Builder.finishNode
    split
    · next ho =>
      rw [ho]
      exact .refused _
    · next kind children ho =>
      rw [ho] at hcovered ⊢
      have hstage : Stage text _ { t with opened := [], root := some ⟨kind, children.reverse⟩ } :=
        .closed rfl rfl
      exact agree_listed ⟨hstage, hcovered.offset, hcovered.text⟩
    · next kind children outer siblings more ho =>
      rw [ho] at hcovered ⊢
      have hstage : Stage text _
          { t with opened := (outer, .node kind children.reverse :: siblings) :: more } :=
        .opened hroot
      rw [opening, List.reverse_cons, ← withTrees_append,
        withTrees_node (opening text more).nodes.length rfl] at hstage
      exact agree_listed ⟨hstage, hcovered.offset, hcovered.text⟩

theorem agree_token (h : b.Follows text t) (leading : List TriviaLength) (kind : TokenKind)
    (size : Nat) (trailing : List TriviaLength) :
    Agree (fun b t => b.Follows text t) (b.addToken leading (.token kind) size trailing)
      (t.addToken leading (.token kind) size trailing) := by
  obtain ⟨hstage, hcovered⟩ := h
  have hb : b.innermost?.isSome = !t.opened.isEmpty := by
    cases hstage with
    | opened hroot => exact isSome_innermost?_opening t.opened
    | closed hopened hroot =>
      rw [hopened]
      rfl
  refine (agree_addToken hcovered leading kind size trailing hb).mono ?_
  rintro b' t' - ⟨u, k, ts, outer, ho, rfl, ho', hroot', hcovered'⟩
  cases hstage with
  | closed hopened hroot =>
    rw [hopened] at ho
    cases ho
  | opened hroot =>
    have hstage : Stage text _ t' := .opened (hroot'.trans hroot)
    rw [ho', opening, List.reverse_cons, ← withTrees_append] at hstage
    rw [ho, opening] at hcovered' ⊢
    exact ⟨hstage, hcovered'⟩

/-- **Both builders carry out a call, or refuse it.** -/
theorem agree_call (h : b.Follows text t) (c : BuildCall) :
    Agree (fun b t => b.Follows text t) (b.call c) (t.call c) := by
  cases c with
  | start kind => exact agree_startNode h kind
  | finish => exact agree_finishNode h
  | token leading kind size trailing =>
    match kind with
    | .leaf (.token kind) => exact agree_token h leading kind size trailing
    | .leaf (.trivia kind) => exact .refused _
    | .node kind => exact .refused _

/-- **Both builders carry out the same calls.** -/
theorem agree_run (h : b.Follows text t) (cs : List BuildCall) :
    Agree (fun b t => b.Follows text t) (b.run cs) (t.run cs) := by
  induction cs generalizing b t with
  | nil => exact .ok h
  | cons c cs ih => exact (agree_call h c).bind fun b' t' h' => ih h'

theorem agree_finish (h : b.Follows text t) :
    Agree (fun a root => a = { Arena.ofTree root with text }) b.finish t.finish := by
  obtain ⟨hstage, hcovered⟩ := h
  unfold finish Builder.finish
  cases hstage with
  | opened hroot =>
    cases ho : t.opened with
    | nil =>
      rw [hroot]
      exact .refused _
    | cons o outer => exact .refused _
  | @closed t root ho hroot =>
    obtain ⟨before, hbefore, hsize⟩ := hcovered.text
    have hwhole : (closing text root).offset = Text.size (closing text root).text
        ↔ t.rest.isEmpty = true := by
      rw [hbefore, Text.size_append, hsize, hcovered.offset, List.isEmpty_iff,
        ← Text.size_eq_zero]
      omega
    have hopened : ¬ (!(closing text root).opened.isEmpty) = true := by simp [closing, grow, new]
    have hnodes : ¬ (closing text root).nodes.isEmpty = true := by
      simp [closing, grow, rootBatch, Batch.enclose]
    rw [ho, hroot, if_neg hopened, if_neg hnodes]
    by_cases hrest : t.rest.isEmpty = true
    · rw [if_pos (hwhole.2 hrest), if_neg (by simp)]
      dsimp only
      rw [if_pos hrest]
      exact .ok rfl
    · rw [if_neg (mt hwhole.1 hrest), if_neg (by simp)]
      dsimp only
      rw [if_neg hrest]
      exact .refused _

end ArenaBuilder

/-- **What is built is the arena of the tree that is built.** -/
theorem agree_build (text : Text) (cs : List BuildCall) :
    Agree (fun a t => a = .ofTree t) (Arena.build text cs) (Builder.build text cs) := by
  have hfirst : (ArenaBuilder.new text).Follows text (Builder.new text) :=
    ⟨.opened (t := .new text) rfl, rfl, [], rfl, rfl⟩
  refine ((ArenaBuilder.agree_run hfirst cs).bind fun b t h => ArenaBuilder.agree_finish h).mono ?_
  rintro a t hbuild rfl
  rw [← (Builder.build_eq_ok hbuild).1]
  rfl

/-- An arena that is built is that of a tree, which is built by the same calls. -/
theorem Arena.exists_of_build {text : Text} {cs : List BuildCall} {a : Arena}
    (h : Arena.build text cs = .ok a) : ∃ t, Builder.build text cs = .ok t ∧ a = .ofTree t := by
  have hagree := agree_build text cs
  rw [h] at hagree
  generalize Builder.build text cs = built at hagree ⊢
  cases hagree with
  | @ok _ t h => exact ⟨t, rfl, h⟩

end NginxConf
