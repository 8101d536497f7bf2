import NginxConf.Proofs.Grammar.Blocks
import NginxConf.Proofs.Grammar.Lookahead
import NginxConf.Proofs.Tree.Hole

/-!
# Another block in the place of one

A rule that has built a block somewhere would have built any other block there, had it met the
tokens of that one between the same braces: nothing outside of the block depends on what stands in
it (`Runs.exists_fits`). The reports outside of the block do not name what stands in it, either.
-/

namespace NginxConf

variable {α : Type}

variable [Lexical α]

/-- Where there is room for `spare` more blocks in it, a block with these tokens between its braces
comes out as a tree with some issues, whatever stands around it. -/
def BlockIs (spare : Nat) (shape : BlockShape) (l : α) (mid : List α) (r : α) (block : Tree α)
    (issues : List (Issue α)) : Prop :=
  ∀ last rest, runBlock (spare + 1) shape last (l :: (mid ++ r :: rest)) = ⟨[block], issues, r, rest⟩

/--
A rule that has returned `a` fills a hole with a block: whatever block stands there, the rule
returns the same trees around it, and the same issues before and after those of the block.
-/
structure Hole.Fits (hole : Hole α) (spare : Nat) (shape : BlockShape) (l r : α) (room : Nat)
    (known : List α) (rule : Rule α) (last : α) (a : Outcome α) (before after : List (Issue α)) :
    Prop where
  room_eq : room = spare + 1 + Frame.blocks hole.frames
  run_eq : ∀ {mid block issues}, BlockIs spare shape l mid r block issues →
    rule.run room last (hole.tokens l mid r a.rest)
      = ⟨hole.fill block, before ++ issues ++ after, a.last, a.rest⟩
  /-- No report outside of the block is about what stands in it. -/
  among : ∀ i ∈ before ++ after, i.place.Among
    (known ++ (hole.leavesBefore ++ l :: hole.leavesAfter))
    (last :: (hole.leavesBefore ++ r :: hole.leavesAfter))

namespace Hole.Fits

variable {hole : Hole α} {spare : Nat} {shape : BlockShape} {l r : α} {room : Nat}
  {known known' seen : List α} {first second rule rule' : Rule α} {last : α}
  {rest' : List α} {a b : Outcome α} {before after : List (Issue α)}

/-- Reading on after a hole. -/
theorem followed (h : hole.Fits spare shape l r room known first last a before after)
    (hlast : a.last ∈ r :: hole.leavesAfter)
    (hb : Runs room known seen second a.last a.rest b) :
    (hole.followed b.trees).Fits spare shape l r room known (first ++ second) last (a.join b) before
      (after ++ b.issues) where
  room_eq := h.room_eq
  run_eq := by
    intro mid block issues hblock
    have hrest : b.trees.flatMap Tree.leaves ++ b.rest = a.rest := hb.read_append_rest
    rw [tokens_followed, Outcome.rest_join, hrest, Rule.run_append, h.run_eq hblock,
      Outcome.followedBy, hb.eq_run, fill_followed]
    simp only [Outcome.join, List.append_assoc]
  among := by
    intro i hi
    rw [leavesBefore_followed, leavesAfter_followed]
    rw [← List.append_assoc] at hi
    rcases List.mem_append.1 hi with hi | hi
    · refine (h.among i hi).mono ?_ ?_ <;> intro t ht <;> simp at ht ⊢ <;> grind
    · refine (hb.place_among i hi).mono ?_ ?_ <;> intro t ht <;>
        simp [Outcome.read] at ht ⊢ <;> grind

/-- What is read before a hole is the same, and ends before the same token. -/
theorem run_first {mid rest : List α} (ha : Runs room known seen first last rest' a)
    (hrest : a.rest = hole.tokens l mid r rest) (mid' : List α) :
    first.run room last (a.read ++ hole.tokens l mid' r rest)
        = { a with rest := hole.tokens l mid' r rest } ∧
      Outcome.nextKind { a with rest := hole.tokens l mid' r rest } = a.nextKind := by
  have hhead : (hole.tokens l mid' r rest).head? = a.rest.head? := by
    rw [hrest, head?_tokens, head?_tokens]
  have hne : a.rest ≠ [] := by
    rw [hrest]
    simp [tokens]
  refine ⟨ha.run_lookahead hne hhead, ?_⟩
  rw [Outcome.nextKind, Outcome.nextKind, hhead]

/-- A hole in what is read on. -/
theorem preceded (ha : Runs room known seen first last rest a)
    (h : hole.Fits spare shape l r room known second a.last b before after) {mid : List α}
    (hrest : a.rest = hole.tokens l mid r b.rest) :
    (hole.preceded a.trees).Fits spare shape l r room known (first ++ second) last (a.join b)
      (a.issues ++ before) after where
  room_eq := h.room_eq
  run_eq := by
    intro mid' block issues hblock
    obtain ⟨hfirst, -⟩ := run_first ha hrest mid'
    rw [tokens_preceded, Outcome.rest_join, Rule.run_append]
    rw [show a.trees.flatMap Tree.leaves = a.read from rfl, hfirst, Outcome.followedBy,
      h.run_eq hblock, fill_preceded]
    simp only [Outcome.join, List.append_assoc]
  among := by
    intro i hi
    rw [leavesBefore_preceded, leavesAfter_preceded]
    rw [List.append_assoc] at hi
    rcases List.mem_append.1 hi with hi | hi
    · refine (ha.place_among i hi).mono ?_ ?_ <;> intro t ht <;>
        simp [Outcome.read] at ht ⊢ <;> grind
    · have hlast := ha.last_mem
      refine (h.among i hi).mono ?_ ?_ <;> intro t ht <;>
        simp [Outcome.read] at ht hlast ⊢ <;> grind

/-- A rule that returns the same. -/
theorem congr (h : hole.Fits spare shape l r room known rule last a before after)
    (hrule : ∀ {mid block issues}, BlockIs spare shape l mid r block issues →
      rule'.run room last (hole.tokens l mid r a.rest)
        = rule.run room last (hole.tokens l mid r a.rest)) :
    hole.Fits spare shape l r room known rule' last a before after :=
  ⟨h.room_eq, fun hblock => (hrule hblock).trans (h.run_eq hblock), h.among⟩

/-- A rule that makes one node of what another one returns. -/
theorem wrapped {kind : NodeKind} {room' : Nat}
    (h : hole.Fits spare shape l r room known rule last a before after)
    (hroom : room' = room + if kind.isBlock then 1 else 0)
    (hrule : ∀ {mid block issues}, BlockIs spare shape l mid r block issues →
      rule'.run room' last (hole.tokens l mid r a.rest)
        = (rule.run room last (hole.tokens l mid r a.rest)).wrapped kind) :
    (hole.wrapped kind).Fits spare shape l r room' known rule' last (a.wrapped kind) before
      after where
  room_eq := by
    rw [hroom, h.room_eq, Hole.wrapped, Frame.blocks_cons, Nat.add_assoc]
  run_eq := by
    intro mid block issues hblock
    rw [tokens_wrapped, Outcome.rest_wrapped, hrule hblock, h.run_eq hblock]
    rfl
  among := by
    rw [leavesBefore_wrapped, leavesAfter_wrapped]
    exact h.among

/-- What the rule knows beside may be one of the tokens. -/
theorem mono (h : hole.Fits spare shape l r room known' rule last a before after)
    (hknown : known' ⊆ known ++ (hole.leavesBefore ++ [l])) :
    hole.Fits spare shape l r room known rule last a before after where
  room_eq := h.room_eq
  run_eq := h.run_eq
  among := by
    intro i hi
    refine (h.among i hi).mono (fun t ht => ?_) (List.Subset.refl _)
    rcases List.mem_append.1 ht with ht | ht
    · have := hknown ht
      simp at this ⊢
      grind
    · exact List.mem_append_right _ ht

end Hole.Fits

section Braces

omit [Lexical α]

variable {hole : Hole α} {shape : BlockShape} {l r : α} {items : List (Tree α)} {a : Outcome α}

/-- The leaves of a block are its braces and what stands between them. -/
theorem Tree.leaves_braces (shape : BlockShape) (l : α) (items : List (Tree α)) (r : α) :
    (Tree.braces shape l items r).leaves = l :: (items.flatMap Tree.leaves ++ [r]) := by
  simp [braces, leaves]

/-- The tokens read and left where a hole is filled with a block. -/
theorem Hole.read_append_rest (ht : a.trees = hole.fill (.braces shape l items r)) :
    a.read ++ a.rest = hole.tokens l (items.flatMap Tree.leaves) r a.rest := by
  rw [Outcome.read, ht, leaves_fill, Tree.leaves_braces]
  simp [tokens]

/-- The last token read is the closing brace of the block, or comes after it. -/
theorem Hole.last_mem {last : α} (ht : a.trees = hole.fill (.braces shape l items r))
    (hlast : a.last = a.read.getLast?.getD last) : a.last ∈ r :: hole.leavesAfter := by
  have hread : a.read = (hole.leavesBefore ++ l :: items.flatMap Tree.leaves)
      ++ r :: hole.leavesAfter := by
    rw [Outcome.read, ht, leaves_fill, Tree.leaves_braces]
    simp
  rw [hlast, hread, List.getLast?_append, List.getLast?_eq_some_getLast (List.cons_ne_nil _ _)]
  exact List.getLast_mem _

end Braces

/-- What is found in a block is about what stands in it. -/
structure InBlock (l : α) (items : List (Tree α)) (r : α) (inner issues : List (Issue α)) :
    Prop where
  issues_eq : issues = Outcome.faultOf l ++ inner ++ Outcome.faultOf r
  among : ∀ i ∈ inner, i.place.Among (items.flatMap Tree.leaves) (l :: items.flatMap Tree.leaves)

/-- A block that ends in a token is closed by it. -/
theorem Rule.exists_items_of_braced {room : Nat} {shape : BlockShape} {last t l r : α} {ts : List α}
    {items : List (Tree α)}
    (h : ((braced t shape).run room last (t :: ts)).trees = .leaf l :: items ++ [.leaf r]) :
    t = l ∧ ∃ rest, ((Rule.items shape).run room t ts).trees = items ∧
      ((Rule.items shape).run room t ts).rest = r :: rest := by
  cases hrest : ((Rule.items shape).run room t ts).rest with
  | nil =>
    rw [run_braced_open hrest] at h
    obtain ⟨-, hitems⟩ := List.cons.inj h
    have hmem : .leaf r ∈ ((Rule.items shape).run room t ts).trees := by
      rw [hitems]
      simp
    exact (isNode_items hmem).elim
  | cons r' rest =>
    rw [run_braced_closed hrest] at h
    rw [List.cons_append, List.cons_append, List.cons.injEq] at h
    obtain ⟨hl, hmore⟩ := h
    obtain ⟨hitems, hr⟩ := List.append_inj' hmore rfl
    cases hl
    cases hr
    exact ⟨rfl, rest, hitems, rfl⟩

/-- Another block can stand in a hole of what a rule has returned, with its own issues. -/
def Hole.Exchanges (hole : Hole α) (shape : BlockShape) (l : α) (items : List (Tree α)) (r : α)
    (room : Nat) (known : List α) (rule : Rule α) (last : α) (a : Outcome α) : Prop :=
  ∃ spare before inner issues after, InBlock l items r inner issues ∧
    a.issues = before ++ issues ++ after ∧
    hole.Fits spare shape l r room known rule last a before after

/--
A hole in what one rule returns after another is in what the first or the second one returns. Either
way, the first one ends before the same kind of token whatever block stands in the hole, and it reads
something if it did so before.
-/
theorem Hole.Exchanges.append {room : Nat} {known seen seen' : List α} {first second : Rule α}
    {last : α} {rest : List α} {a b : Outcome α} {hole : Hole α} {shape : BlockShape} {l r : α}
    {items : List (Tree α)} (ha : Runs room known seen first last rest a)
    (hb : Runs room known seen' second a.last a.rest b)
    (iha : ∀ {hole : Hole α}, a.trees = hole.fill (.braces shape l items r) →
      hole.Exchanges shape l items r room known first last a)
    (ihb : ∀ {hole : Hole α}, b.trees = hole.fill (.braces shape l items r) →
      hole.Exchanges shape l items r room known second a.last b)
    (ht : (a.join b).trees = hole.fill (.braces shape l items r)) :
    ∃ spare before inner issues after, InBlock l items r inner issues ∧
      (a.join b).issues = before ++ issues ++ after ∧
      hole.Fits spare shape l r room known (first ++ second) last (a.join b) before after ∧
      ∀ {mid block issues}, BlockIs spare shape l mid r block issues →
        (first.run room last (hole.tokens l mid r (a.join b).rest)).nextKind = a.nextKind ∧
        (a.read ≠ [] → (first.run room last (hole.tokens l mid r (a.join b).rest)).rest.length
          < (hole.tokens l mid r (a.join b).rest).length) := by
  rcases hole.eq_of_fill_eq_append ht with ⟨left, rfl, hleft⟩ | ⟨right, rfl, hright⟩
  · obtain ⟨spare, before, inner, issues, after, hin, hissues, hfits⟩ := iha hleft
    refine ⟨spare, before, inner, issues, after ++ b.issues, hin, by simp [Outcome.join, hissues],
      hfits.followed (Hole.last_mem hleft ha.last_eq) hb, fun {mid _ _} hblock => ?_⟩
    have htokens : (left.followed b.trees).tokens l mid r (a.join b).rest
        = left.tokens l mid r a.rest := by
      rw [Hole.tokens_followed, Outcome.rest_join]
      exact congrArg _ hb.read_append_rest
    rw [htokens, hfits.run_eq hblock]
    refine ⟨rfl, fun _ => ?_⟩
    simp [Hole.tokens]
    omega
  · obtain ⟨spare, before, inner, issues, after, hin, hissues, hfits⟩ := ihb hright
    have hrest := hb.read_append_rest.symm.trans (Hole.read_append_rest hright)
    refine ⟨spare, a.issues ++ before, inner, issues, after, hin, by simp [Outcome.join, hissues],
      hfits.preceded ha hrest, fun {mid _ _} _ => ?_⟩
    have htokens : (right.preceded a.trees).tokens l mid r (a.join b).rest
        = a.read ++ right.tokens l mid r b.rest := by
      rw [Hole.tokens_preceded, Outcome.rest_join]
      rfl
    obtain ⟨hfirst, hnext⟩ := Hole.Fits.run_first ha hrest mid
    rw [htokens, hfirst]
    refine ⟨hnext, fun hread => ?_⟩
    have hpos := List.length_pos_iff.2 hread
    rw [List.length_append]
    simp only
    omega

/-- **Another block can stand wherever a rule has built one.** -/
theorem Runs.exists_fits {room : Nat} {known seen : List α} {rule : Rule α} {last : α}
    {rest : List α} {a : Outcome α} (h : Runs room known seen rule last rest a) {hole : Hole α}
    {shape : BlockShape} {l r : α} {items : List (Tree α)}
    (ht : a.trees = hole.fill (.braces shape l items r)) :
    hole.Exchanges shape l items r room known rule last a := by
  induction h generalizing hole with
  | done | complain | complainSince | complainAt | atEnd | manyStop =>
    simp [Outcome.idle, Hole.fill] at ht
  | advance | acceptAll | rawGroup =>
    have hmem : Tree.fill hole.frames (.braces shape l items r)
        ∈ hole.fill (.braces shape l items r) := List.mem_append_right _ List.mem_cons_self
    rw [← ht] at hmem
    obtain ⟨x, -, hx⟩ := List.mem_map.1 hmem
    exact absurd hx.symm (Tree.fill_ne_leaf _ _ _ _)
  | andThen ha hb iha ihb =>
    obtain ⟨spare, before, inner, issues, after, hin, hissues, hfits, -⟩ :=
      Hole.Exchanges.append ha hb iha ihb ht
    exact ⟨spare, before, inner, issues, after, hin, hissues, hfits⟩
  | wrap hk _ ih =>
    rcases hole.eq_of_fill_eq_node ht with ⟨-, hnode⟩ | ⟨inside, rfl, hinside⟩
    · rw [← (Tree.node.inj hnode).1, shape.isBlock_kind] at hk
      cases hk
    · obtain ⟨spare, before, inner, issues, after, hin, hissues, hfits⟩ := ih hinside
      exact ⟨spare, before, inner, issues, after, hin, hissues, hfits.wrapped (by simp [hk]) fun _ => rfl⟩
  | @withNext _ _ _ _ _ t ts a ha hr ih =>
    obtain ⟨spare, before, inner, issues, after, hin, hissues, hfits⟩ := ih ht
    obtain ⟨hmem, hcons⟩ := hole.eq_of_tokens_eq_cons
      ((Hole.read_append_rest ht).symm.trans ha.read_append_rest)
    refine ⟨spare, before, inner, issues, after, hin, hissues,
      (hfits.mono (List.cons_subset.2 ⟨List.mem_append_right _ hmem,
        List.subset_append_left _ _⟩)).congr fun {mid _ _} _ => ?_⟩
    obtain ⟨us, hus⟩ := hcons mid a.rest
    rw [hus]
    rfl
  | @peek _ _ _ rule _ rest a ha ih =>
    obtain ⟨spare, before, inner, issues, after, hin, hissues, hfits⟩ := ih ht
    refine ⟨spare, before, inner, issues, after, hin, hissues, hfits.congr fun _ => ?_⟩
    rw [Rule.run_peek, ← ha.read_append_rest, Hole.read_append_rest ht, Hole.head?_tokens,
      Hole.head?_tokens]
  | @wrapBy _ _ _ start kind finish _ _ a b hk ha hb iha ihb =>
    rcases hole.eq_of_fill_eq_node ht with ⟨-, hnode⟩ | ⟨inside, rfl, hinside⟩
    · have hblock := hk a.nextKind
      rw [← (Tree.node.inj hnode).1, shape.isBlock_kind] at hblock
      cases hblock
    · obtain ⟨spare, before, inner, issues, after, hin, hissues, hfits, hstart⟩ :=
        Hole.Exchanges.append ha hb iha ihb hinside
      refine ⟨spare, before, inner, issues, after, hin, hissues,
        hfits.wrapped (by simp [hk]) fun hblock => ?_⟩
      rw [Rule.run_wrapBy, (hstart hblock).1, Rule.run_append]
  | @manyStep _ _ _ p item last t ts a b hp ha hr hb iha ihb =>
    obtain ⟨-, hcons⟩ := hole.eq_of_tokens_eq_cons ((Hole.read_append_rest ht).symm.trans
      (Runs.manyStep hp ha hr hb).read_append_rest)
    obtain ⟨spare, before, inner, issues, after, hin, hissues, hfits, hitem⟩ :=
      Hole.Exchanges.append ha hb iha ihb ht
    refine ⟨spare, before, inner, issues, after, hin, hissues,
      hfits.congr fun {mid _ _} hblock => ?_⟩
    obtain ⟨us, hus⟩ := hcons mid (a.join b).rest
    have hshorter := (hitem hblock).2 (List.ne_nil_of_mem hr)
    rw [hus] at hshorter ⊢
    rw [Rule.run_many_step hp hshorter, Rule.run_append]
  | tooDeep hb ha ih =>
    obtain ⟨spare, before, inner, issues, after, hin, hissues, hfits⟩ := ih ht
    have hroom := hfits.room_eq
    omega
  | @block room known _ shape' last t ts a hb ha ih =>
    rcases hole.eq_of_fill_eq_node ht with ⟨rfl, hnode⟩ | ⟨inside, rfl, hinside⟩
    · obtain ⟨hkind, htrees⟩ := Tree.node.inj hnode
      have hshape : shape' = shape := by
        cases shape' <;> cases shape <;> first | rfl | cases hkind
      subst hshape
      rw [← ha.eq_run] at htrees ⊢
      obtain ⟨rfl, ts', rfl, hrest⟩ := Rule.exists_items_of_braced htrees.symm
      rw [Rule.run_braced_closed hrest]
      refine ⟨room, [], ((Rule.items shape').run room t ts).issues, _, [], ⟨rfl, ?_⟩, ?_, ?_⟩
      · exact (Rule.runs_items shape' t ts).place_among
      · simp [Outcome.wrapped]
      · refine ⟨rfl, fun {mid block issues} hblock => ?_, by simp⟩
        have hrun := hblock last ts'
        simpa [Hole.tokens, Hole.leavesBefore, Hole.leavesAfter, Hole.fill, Tree.fill] using hrun
    · obtain ⟨spare, before, inner, issues, after, hin, hissues, hfits⟩ := ih hinside
      obtain ⟨hmem, hcons⟩ := inside.eq_of_tokens_eq_cons
        ((Hole.read_append_rest hinside).symm.trans ha.read_append_rest)
      refine ⟨spare, before, inner, issues, after, hin, hissues,
        (hfits.mono ?_).wrapped (by simp [shape'.isBlock_kind]) fun {mid _ _} _ => ?_⟩
      · exact List.cons_subset.2 ⟨List.mem_append_right _ hmem, List.nil_subset _⟩
      · obtain ⟨us, hus⟩ := hcons mid a.rest
        rw [hus]
        rfl

/-- **What a block taken alone comes out as is what it comes out as anywhere.** -/
theorem blockIs_of_items {spare : Nat} {shape : BlockShape} {l r : α} {mid : List α}
    (h : ((Rule.items shape).run spare l (mid ++ [r])).rest = [r]) :
    BlockIs spare shape l mid r (.braces shape l ((Rule.items shape).run spare l (mid ++ [r])).trees r)
      (Outcome.faultOf l ++ ((Rule.items shape).run spare l (mid ++ [r])).issues
        ++ Outcome.faultOf r) := by
  intro last rest
  have hruns : Runs spare [] [] (Rule.items shape) l (mid ++ [r]) _ :=
    Rule.runs_items shape l (mid ++ [r])
  have hread : ((Rule.items shape).run spare l (mid ++ [r])).read = mid := by
    have happend := hruns.read_append_rest
    rw [h] at happend
    exact List.append_cancel_right happend
  have hahead := hruns.run_lookahead (by simp [h])
    (show (r :: rest).head? = _ by rw [h]; rfl)
  rw [hread] at hahead
  have hbraced : (Rule.braced l shape).run spare last (l :: (mid ++ r :: rest)) = _ :=
    Rule.run_braced_closed (congrArg Outcome.rest hahead)
  show Outcome.wrapped _ ((Rule.braced l shape).run spare last (l :: (mid ++ r :: rest))) = _
  rw [hbraced, hahead]
  rfl

end NginxConf
