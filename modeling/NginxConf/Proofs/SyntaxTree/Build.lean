import NginxConf.SyntaxTree.Builder

/-!
# What a builder builds

The calls of a tree build that tree (`build_calls`), and whatever a sequence of calls builds has
just these calls and the whole text (`build_eq_ok`). Together they say when the calls of a tree
build something over another text: exactly when the pieces have the right lengths.
-/

namespace NginxConf

/-! ## Texts of trees -/

namespace Tree

/-- The text of the leaves, trivia included. -/
def text (t : Tree Token) : Text := t.leaves.flatMap Token.fullText

/-- The text of the leaves of some trees. -/
def forestText (ts : List (Tree Token)) : Text := ts.flatMap text

@[simp]
theorem text_leaf (t : Token) : (leaf t).text = t.fullText := by simp [text, leaves]

@[simp]
theorem text_node (kind : NodeKind) (children : List (Tree Token)) :
    (node kind children).text = forestText children := by
  simp only [text, leaves, forestLeaves_eq, List.flatMap_assoc, forestText]
  rfl

@[simp]
theorem forestText_nil : forestText [] = [] := rfl

@[simp]
theorem forestText_cons (t : Tree Token) (ts : List (Tree Token)) :
    forestText (t :: ts) = t.text ++ forestText ts := List.flatMap_cons

@[simp]
theorem forestText_append (ss ts : List (Tree Token)) :
    forestText (ss ++ ts) = forestText ss ++ forestText ts := List.flatMap_append

mutual

/-- The bytes of a tree are those of its text. -/
theorem sum_fullSize : (t : Tree Token) → t.sum Token.fullSize = Text.size t.text
  | leaf t => by rw [sum, text_leaf, Token.size_fullText]
  | node _ children => by rw [sum, text_node, forestSum_fullSize children]

theorem forestSum_fullSize :
    (ts : List (Tree Token)) → forestSum Token.fullSize ts = Text.size (forestText ts)
  | [] => rfl
  | t :: ts => by
    rw [forestSum, forestText_cons, Text.size_append, sum_fullSize t, forestSum_fullSize ts]

end

end Tree

theorem SyntaxTree.text_eq (t : SyntaxTree) : t.text = Tree.forestText t.children := by
  rw [SyntaxTree.text, Node.leaves, List.flatMap_assoc]
  rfl

namespace Builder

/-- A builder that has covered so much more of its text. -/
def past (b : Builder) (s rest : Text) : Builder :=
  { b with rest := rest, offset := b.offset + Text.size s }

/-- A builder with some more trees in its innermost node. -/
def withTrees (b : Builder) (ts : List (Tree Token)) : Builder :=
  { b with opened := b.opened.modifyHead fun o => (o.1, ts.reverse ++ o.2) }

/-! ## The calls of a tree build it -/

variable {b : Builder} {s rest : Text}

theorem take_of_rest (hr : b.rest = s ++ rest) (hb : b.offset + Text.size s < Overflow.offsetBound) :
    b.take (Text.size s) = .ok (s, b.past s rest) := by
  have hsplit : Text.splitAt? b.rest (Text.size s) = some (s, rest) :=
    Text.splitAt?_eq_some.2 ⟨hr, rfl⟩
  rw [take, if_neg (Nat.not_le.2 hb), hsplit]
  rfl

theorem takeTrivia_of_rest {ts : List Trivia} (hr : b.rest = Trivia.textOf ts ++ rest)
    (hb : b.offset + Trivia.sizeOf ts < Overflow.offsetBound) :
    b.takeTrivia (ts.map Trivia.length) = .ok (ts, b.past (Trivia.textOf ts) rest) := by
  induction ts generalizing b with
  | nil => cases b; simp_all [takeTrivia, past, Trivia.textOf]
  | cons t ts ih =>
    have hrest : b.rest = t.text ++ (Trivia.textOf ts ++ rest) := by
      rw [hr, Trivia.textOf, Trivia.textOf, List.flatMap_cons, List.append_assoc]
    rw [Trivia.sizeOf, Trivia.size] at hb
    have htake := take_of_rest hrest (by omega)
    have hmore := ih (b := b.past t.text (Trivia.textOf ts ++ rest)) rfl
      (by rw [past]; simp only; omega)
    rw [List.map_cons, takeTrivia]
    simp only [Trivia.length, Trivia.size, htake]
    simp only [bind, Except.bind, hmore, pure, Except.pure]
    simp [past, Trivia.textOf, Nat.add_assoc]

/-- **The call of a token adds the token.** -/
theorem call_token {t : Token} (ho : b.opened ≠ []) (hr : b.rest = t.fullText ++ rest)
    (hb : b.offset + t.fullSize < Overflow.offsetBound) :
    b.call t.call = .ok ((b.past t.fullText rest).withTrees [.leaf t]) := by
  obtain ⟨⟨kind, children⟩, more, hopened⟩ := List.exists_cons_of_ne_nil ho
  rw [Token.fullSize, Token.leadingSize, Token.size] at hb
  rw [Token.fullText, List.append_assoc, List.append_assoc] at hr
  have hleading := takeTrivia_of_rest hr (by omega)
  have htext := take_of_rest
    (b := b.past (Trivia.textOf t.leading) (t.text ++ (Trivia.textOf t.trailing ++ rest))) rfl
    (by simp only [past, Trivia.size_textOf]; omega)
  have htrailing := takeTrivia_of_rest
    (b := (b.past (Trivia.textOf t.leading) (t.text ++ (Trivia.textOf t.trailing ++ rest))).past
      t.text (Trivia.textOf t.trailing ++ rest)) rfl
    (by simp only [past, Trivia.size_textOf]; omega)
  rw [Token.call, call, addToken]
  simp only [hopened, List.isEmpty_cons, Bool.false_eq_true, if_false, Token.size]
  simp only [bind, Except.bind, hleading, htext, htrailing]
  simp [add, past, withTrees, hopened, Token.fullText, Nat.add_assoc]

mutual

/-- The calls of a tree add the tree to the innermost node. -/
theorem run_treeCalls (b : Builder) (rest : Text) (more : List BuildCall) :
    (t : Tree Token) → b.opened ≠ [] → b.rest = t.text ++ rest →
    b.offset + Text.size t.text < Overflow.offsetBound →
    b.run (treeCalls t ++ more) = ((b.past t.text rest).withTrees [t]).run more
  | .leaf t, ho, hr, hb => by
    rw [Tree.text_leaf] at hr hb
    rw [Token.size_fullText] at hb
    rw [treeCalls, List.singleton_append, run, call_token ho hr hb, Tree.text_leaf]
    rfl
  | .node kind children, ho, hr, hb => by
    obtain ⟨⟨outer, siblings⟩, opened, hopened⟩ := List.exists_cons_of_ne_nil ho
    rw [Tree.text_node] at hr hb ⊢
    have hstart : b.call (.start kind) = .ok { b with opened := (kind, []) :: b.opened } := by
      simp [call, startNode, hopened]
    have hfinish : (({ b with opened := (kind, []) :: b.opened }.past (Tree.forestText children)
        rest).withTrees children).call .finish
        = .ok ((b.past (Tree.forestText children) rest).withTrees [.node kind children]) := by
      simp [call, finishNode, past, withTrees, hopened]
    have hinner := run_forestCalls { b with opened := (kind, []) :: b.opened } rest
      (.finish :: more) children (List.cons_ne_nil _ _) hr hb
    rw [treeCalls, List.cons_append, List.append_assoc, List.singleton_append, run, hstart]
    refine hinner.trans ?_
    rw [run, hfinish]
    rfl

/-- The calls of some trees add the trees to the innermost node. -/
theorem run_forestCalls (b : Builder) (rest : Text) (more : List BuildCall) :
    (ts : List (Tree Token)) → b.opened ≠ [] → b.rest = Tree.forestText ts ++ rest →
    b.offset + Text.size (Tree.forestText ts) < Overflow.offsetBound →
    b.run (forestCalls ts ++ more) = ((b.past (Tree.forestText ts) rest).withTrees ts).run more
  | [], _, hr, _ => by
    have hsame : (b.past (Tree.forestText []) rest).withTrees [] = b := by
      have hopened : b.opened.modifyHead (fun o => (o.1, [].reverse ++ o.2)) = b.opened := by
        cases b.opened <;> rfl
      rw [withTrees, past]
      simp only [hopened, ← show b.rest = rest from hr]
      rfl
    rw [forestCalls, List.nil_append, hsame]
  | t :: ts, ho, hr, hb => by
    obtain ⟨⟨kind, children⟩, opened, hopened⟩ := List.exists_cons_of_ne_nil ho
    rw [Tree.forestText_cons, List.append_assoc] at hr
    rw [Tree.forestText_cons, Text.size_append] at hb
    have hhead := run_treeCalls b _ (forestCalls ts ++ more) t ho hr (by omega)
    have htail := run_forestCalls ((b.past t.text (Tree.forestText ts ++ rest)).withTrees [t])
      rest more ts (by simp [past, withTrees, hopened]) rfl
      (by simp only [past, withTrees]; omega)
    rw [forestCalls, List.append_assoc, hhead, htail]
    simp [past, withTrees, hopened, Nat.add_assoc]

end

/-- **The calls of a tree build the tree over its text.** -/
theorem build_calls {t : SyntaxTree} (hb : Text.size t.text < Overflow.offsetBound) :
    build t.text t.calls = .ok t := by
  have htext := t.text_eq
  have hrun := run_forestCalls { new t.text with opened := [(t.kind, [])] } [] [.finish]
    t.children (List.cons_ne_nil _ _) (by simp [new, htext])
    (by rw [← htext]; simpa [new] using hb)
  have hcalls : t.calls = .start t.kind :: (forestCalls t.children ++ [.finish]) := rfl
  have hstart : (new t.text).call (.start t.kind)
      = .ok { new t.text with opened := [(t.kind, [])] } := by
    simp [call, startNode, new]
  rw [build, hcalls, run, hstart]
  simp only [bind, Except.bind, hrun]
  simp [run, call, finishNode, finish, past, withTrees, new, bind, Except.bind]

theorem build_calls_of_text {t : SyntaxTree} {text : Text} (htext : t.text = text)
    (hb : Text.size text < Overflow.offsetBound) : build text t.calls = .ok t := by
  subst htext
  exact build_calls hb

/-! ## What is built has the calls that built it -/

/-- The calls that a builder has carried out, read off what it holds. -/
def made (b : Builder) : List BuildCall :=
  (match b.root with | some t => t.calls | none => [])
    ++ b.opened.reverse.flatMap fun o => .start o.1 :: forestCalls o.2.reverse

/-- The text that a builder has covered, read off what it holds. -/
def covered (b : Builder) : Text :=
  (match b.root with | some t => t.text | none => [])
    ++ b.opened.reverse.flatMap fun o => Tree.forestText o.2.reverse

/-- While nodes are open, there is no root. -/
def Rootless (b : Builder) : Prop := b.opened ≠ [] → b.root = none

/-- The builder is somewhere in a text of so many bytes, at an offset that can be written down. -/
def Within (b : Builder) (size : Nat) : Prop :=
  b.offset < Overflow.offsetBound ∧ b.offset + Text.size b.rest = size

theorem forestCalls_append (ss ts : List (Tree Token)) :
    forestCalls (ss ++ ts) = forestCalls ss ++ forestCalls ts := by
  induction ss with
  | nil => rfl
  | cons s ss ih => rw [List.cons_append, forestCalls, forestCalls, ih, List.append_assoc]

theorem take_eq_ok {b' : Builder} {size n : Nat} {piece : Text}
    (h : b.take size = .ok (piece, b')) :
    Text.size piece = size ∧ b.rest = piece ++ b'.rest ∧ b'.opened = b.opened ∧
      b'.root = b.root ∧ (b.Within n → b'.Within n) := by
  unfold take at h
  split at h
  · cases h
  · next hbound =>
    split at h
    · next hsplit =>
      cases h
      obtain ⟨hrest, hsize⟩ := Text.splitAt?_eq_some.1 hsplit
      refine ⟨hsize, hrest, rfl, rfl, fun hwithin => ⟨Nat.not_le.1 hbound, ?_⟩⟩
      rw [← hwithin.2, hrest, Text.size_append, hsize, Nat.add_assoc]
    · cases h

theorem takeTrivia_eq_ok {b' : Builder} {lengths : List TriviaLength} {ts : List Trivia} {n : Nat}
    (h : b.takeTrivia lengths = .ok (ts, b')) :
    ts.map Trivia.length = lengths ∧ b.rest = Trivia.textOf ts ++ b'.rest ∧
      b'.opened = b.opened ∧ b'.root = b.root ∧ (b.Within n → b'.Within n) := by
  induction lengths generalizing b b' ts with
  | nil => cases h; exact ⟨rfl, rfl, rfl, rfl, id⟩
  | cons l ls ih =>
    rw [takeTrivia] at h
    cases htake : b.take l.size with
    | error e => rw [htake] at h; cases h
    | ok taken =>
      obtain ⟨piece, b₁⟩ := taken
      cases hmore : b₁.takeTrivia ls with
      | error e => simp [htake, hmore, bind, Except.bind] at h
      | ok more =>
        obtain ⟨us, b₂⟩ := more
        simp only [htake, hmore, bind, Except.bind, pure, Except.pure] at h
        cases h
        obtain ⟨hsize, hrest, hopened, hroot, hwithin⟩ := take_eq_ok htake
        obtain ⟨hlengths, hrest', hopened', hroot', hwithin'⟩ := ih hmore
        refine ⟨?_, ?_, hopened'.trans hopened, hroot'.trans hroot, hwithin' ∘ hwithin⟩
        · rw [List.map_cons, hlengths, Trivia.length, Trivia.size, hsize]
        · rw [hrest, hrest', Trivia.textOf, Trivia.textOf, List.flatMap_cons, List.append_assoc]

/-- What adding a token does. -/
theorem addToken_eq_ok {b' : Builder} {leading trailing : List TriviaLength} {kind : TokenKind}
    {size n : Nat} (h : b.addToken leading (.leaf (.token kind)) size trailing = .ok b') :
    ∃ t : Token, t.call = .token leading (.token kind) size trailing ∧
      b.rest = t.fullText ++ b'.rest ∧ b.opened ≠ [] ∧
      b'.opened = b.opened.modifyHead (fun o => (o.1, .leaf t :: o.2)) ∧ b'.root = b.root ∧
      (b.Within n → b'.Within n) := by
  simp only [addToken] at h
  split at h
  · cases h
  · next ho =>
    cases hl : b.takeTrivia leading with
    | error e => simp [hl, bind, Except.bind] at h
    | ok before =>
      obtain ⟨before, b₁⟩ := before
      cases ht : b₁.take size with
      | error e => simp [hl, ht, bind, Except.bind] at h
      | ok text =>
        obtain ⟨text, b₂⟩ := text
        cases hr : b₂.takeTrivia trailing with
        | error e => simp [hl, ht, hr, bind, Except.bind] at h
        | ok after =>
          obtain ⟨after, b₃⟩ := after
          obtain ⟨hl1, hl2, hl3, hl4, hl5⟩ := takeTrivia_eq_ok hl
          obtain ⟨ht1, ht2, ht3, ht4, ht5⟩ := take_eq_ok ht
          obtain ⟨hr1, hr2, hr3, hr4, hr5⟩ := takeTrivia_eq_ok hr
          simp only [hl, ht, hr, bind, Except.bind] at h
          have ho : b.opened ≠ [] := by simpa using ho
          obtain ⟨o, more, hopened⟩ := List.exists_cons_of_ne_nil ho
          have hopened₃ : b₃.opened = o :: more := hr3.trans (ht3.trans (hl3.trans hopened))
          simp only [add, hopened₃] at h
          cases h
          refine ⟨⟨before, kind, text, after⟩, ?_, ?_, ho, by rw [hopened]; rfl,
            hr4.trans (ht4.trans hl4), fun hwithin => hr5 (ht5 (hl5 hwithin))⟩
          · rw [Token.call, hl1, hr1, Token.size, ht1]
          · simp [Token.fullText, hl2, ht2, hr2]

/-- What a call that is carried out does. -/
theorem call_eq_ok {b' : Builder} {c : BuildCall} {n : Nat} (hroot : b.Rootless)
    (h : b.call c = .ok b') :
    b'.made = b.made ++ [c] ∧ b'.covered ++ b'.rest = b.covered ++ b.rest ∧ b'.Rootless ∧
      (b.Within n → b'.Within n) := by
  cases c with
  | start kind =>
    cases kind with
    | leaf kind => cases h
    | node kind =>
      rw [call, startNode] at h
      split at h
      · cases h
      · next hfirst =>
        cases h
        have hnone : b.root = none := by
          by_cases ho : b.opened = []
          · simpa [ho] using hfirst
          · exact hroot ho
        simp [made, covered, Rootless, Within, hnone, forestCalls]
  | token leading kind size trailing =>
    match kind, h with
    | .leaf (.token kind), h =>
      obtain ⟨t, hcall, hrest, ho, hopened, hsame, hwithin⟩ := addToken_eq_ok h
      obtain ⟨o, more, hb⟩ := List.exists_cons_of_ne_nil ho
      have hnone : b.root = none := hroot ho
      simp only [made, covered, Rootless, hopened, hb, hsame, hnone, hrest, ← hcall]
      refine ⟨?_, ?_, fun _ => trivial, hwithin⟩ <;>
        simp [forestCalls_append, forestCalls, treeCalls]
  | finish =>
    rw [call, finishNode] at h
    split at h
    · cases h
    · next kind children ho =>
      cases h
      have hnone : b.root = none := hroot (by simp [ho])
      simp [made, covered, Rootless, Within, ho, hnone, SyntaxTree.calls, Node.toTree, treeCalls,
        SyntaxTree.text_eq]
    · next kind children outer siblings more ho =>
      cases h
      have hnone : b.root = none := hroot (by simp [ho])
      simp [made, covered, Rootless, Within, ho, hnone, forestCalls_append, forestCalls, treeCalls]

/-- What calls that are carried out do. -/
theorem run_eq_ok {b' : Builder} {cs : List BuildCall} {n : Nat} (hroot : b.Rootless)
    (h : b.run cs = .ok b') :
    b'.made = b.made ++ cs ∧ b'.covered ++ b'.rest = b.covered ++ b.rest ∧
      (b.Within n → b'.Within n) := by
  induction cs generalizing b with
  | nil => cases h; simp
  | cons c cs ih =>
    rw [run] at h
    cases hc : b.call c with
    | error e => rw [hc] at h; cases h
    | ok b₁ =>
      rw [hc] at h
      obtain ⟨hmade, htext, hroot', hwithin⟩ := call_eq_ok hroot hc
      obtain ⟨hmade', htext', hwithin'⟩ := ih hroot' h
      exact ⟨by rw [hmade', hmade, List.append_assoc, List.singleton_append], htext'.trans htext,
        hwithin' ∘ hwithin⟩

/-- **A tree that is built has the text, which is not too long, and its calls are those that built
it.** -/
theorem build_eq_ok {text : Text} {cs : List BuildCall} {t : SyntaxTree}
    (h : build text cs = .ok t) :
    t.text = text ∧ t.calls = cs ∧ Text.size text < Overflow.offsetBound := by
  rw [build] at h
  cases hrun : (new text).run cs with
  | error e => rw [hrun] at h; cases h
  | ok b =>
    obtain ⟨hmade, htext, hwithin⟩ := run_eq_ok (b := new text) (fun ho => absurd rfl ho) hrun
    obtain ⟨hlt, hsize⟩ := hwithin ⟨Nat.succ_pos _, Nat.zero_add _⟩
    simp only [hrun, bind, Except.bind, finish] at h
    split at h
    · cases h
    · next ho =>
      have ho : b.opened = [] := by simpa using ho
      split at h
      · cases h
      · next hroot =>
        split at h
        · next hrest =>
          cases h
          have hrest : b.rest = [] := by simpa using hrest
          rw [hrest, Text.size_nil, Nat.add_zero] at hsize
          simp only [made, covered, ho, hroot, hrest, new] at hmade htext
          exact ⟨by simpa using htext, by simpa using hmade, hsize ▸ hlt⟩
        · cases h

/-- **The calls of a tree build nothing but the tree over its text.** -/
theorem eq_of_build_calls {t t' : SyntaxTree} {text : Text} (htext : t.text = text)
    (h : build text t.calls = .ok t') : t' = t := by
  subst htext
  rw [build_calls (build_eq_ok h).2.2] at h
  exact (Except.ok.inj h).symm

/-! ## Lengths -/

end Builder

/-- The bytes of some pieces of trivia. -/
def TriviaLength.total : List TriviaLength → Nat
  | [] => 0
  | t :: ts => t.size + total ts

/-- The bytes that some calls cover. -/
def BuildCall.covers : List BuildCall → Nat
  | [] => 0
  | token leading _ size trailing :: cs =>
    TriviaLength.total leading + size + TriviaLength.total trailing + covers cs
  | _ :: cs => covers cs

theorem BuildCall.covers_append (cs ds : List BuildCall) :
    covers (cs ++ ds) = covers cs + covers ds := by
  fun_induction covers cs with
  | case1 => rw [List.nil_append, Nat.zero_add]
  | case2 leading kind size trailing cs ih =>
    rw [List.cons_append, covers, ih, Nat.add_assoc _ (covers cs)]
  | case3 c cs hc ih =>
    rw [List.cons_append, covers, ih]
    exact hc

theorem Token.covers_call (t : Token) : BuildCall.covers [t.call] = Text.size t.fullText := by
  have htrivia : ∀ ts : List Trivia,
      TriviaLength.total (ts.map Trivia.length) = Trivia.sizeOf ts := by
    intro ts
    induction ts with
    | nil => rfl
    | cons t ts ih => rw [List.map_cons, TriviaLength.total, ih]; rfl
  rw [Token.call, BuildCall.covers, htrivia, htrivia, Token.size_fullText]
  rfl

mutual

theorem covers_treeCalls : (t : Tree Token) →
    BuildCall.covers (treeCalls t) = Text.size t.text
  | .leaf t => by rw [treeCalls, t.covers_call, Tree.text_leaf]
  | .node kind children => by
    rw [treeCalls, BuildCall.covers, BuildCall.covers_append, covers_forestCalls children,
      Tree.text_node]
    · rfl
    · simp

theorem covers_forestCalls : (ts : List (Tree Token)) →
    BuildCall.covers (forestCalls ts) = Text.size (Tree.forestText ts)
  | [] => rfl
  | t :: ts => by
    rw [forestCalls, BuildCall.covers_append, covers_treeCalls t, covers_forestCalls ts,
      Tree.forestText_cons, Text.size_append]

end

/-- The calls of a tree build nothing over a text of another length. -/
theorem Builder.size_of_build_calls {t t' : SyntaxTree} {text : Text}
    (h : build text t.calls = .ok t') : Text.size text = Text.size t.text := by
  obtain ⟨htext, hcalls, -⟩ := build_eq_ok h
  have hsum := covers_treeCalls t'.toTree
  have hsum' := covers_treeCalls t.toTree
  rw [show treeCalls t'.toTree = treeCalls t.toTree from hcalls, hsum'] at hsum
  rw [← htext, t.text_eq, t'.text_eq]
  simpa [Node.toTree] using hsum.symm

end NginxConf
