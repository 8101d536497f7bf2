import NginxConf.Proofs.Grammar.Sound

/-!
# Rules see nothing but kinds, texts and faults

A relabelling replaces tokens by others of the same kind, text and fault. Running a rule on
relabelled tokens gives the relabelled outcome (`run_relabel`), so a file may be parsed over any
sort of tokens that stand for those of the text.

A rule is a term that may hold tokens, so the rule itself is relabelled, too. `Relabels` relates the
two; each rule of the grammar is related to itself.
-/

namespace NginxConf

variable {α β : Type} [Lexical α] [Lexical β]

/-- The tokens look the same to the grammar. -/
structure Relabelling (f : α → β) : Prop where
  kind : ∀ t, Lexical.kind (f t) = Lexical.kind t
  text : ∀ t, Lexical.text (f t) = Lexical.text t
  fault : ∀ t, Lexical.fault (f t) = Lexical.fault t

namespace Outcome

omit [Lexical α] [Lexical β]

/-- The outcome with its tokens replaced. -/
def map (f : α → β) (a : Outcome α) : Outcome β :=
  ⟨a.trees.map (Tree.map f), a.issues.map (Issue.map f), f a.last, a.rest.map f⟩

theorem map_join (f : α → β) (a b : Outcome α) : (a.join b).map f = (a.map f).join (b.map f) := by
  simp [map, join]

theorem map_wrapped (f : α → β) (kind : NodeKind) (a : Outcome α) :
    (a.wrapped kind).map f = (a.map f).wrapped kind := by
  simp [map, wrapped, Tree.map]

end Outcome

section Relabelling

variable {f : α → β} (hf : Relabelling f)

include hf

theorem Relabelling.head? (rest : List α) :
    (rest.map f).head?.map Lexical.kind = rest.head?.map Lexical.kind := by
  cases rest with
  | nil => rfl
  | cons t ts => simp [hf.kind]

theorem Relabelling.nextKind (a : Outcome α) : (a.map f).nextKind = a.nextKind := hf.head? a.rest

theorem reading_relabel (n : Nat) (last : α) (rest : List α) :
    Outcome.reading n (f last) (rest.map f) = (Outcome.reading n last rest).map f := by
  have hfault : ∀ t, Outcome.faultOf (f t) = (Outcome.faultOf t).map (Issue.map f) := by
    intro t
    rw [Outcome.faultOf, Outcome.faultOf, hf.fault]
    split <;> simp [Issue.map, Place.map]
  have hlast : ((rest.take n).map f).getLast?.getD (f last)
      = f ((rest.take n).getLast?.getD last) := by
    rw [List.getLast?_map]
    cases (rest.take n).getLast? <;> rfl
  simp only [Outcome.reading, Outcome.map, ← List.map_take, ← List.map_drop, hlast, List.map_map,
    List.flatMap_map, hfault, List.map_flatMap]
  rfl

theorem groupLength_relabel (opened : Nat) (rest : List α) :
    groupLength opened (rest.map f) = groupLength opened rest := by
  induction rest generalizing opened with
  | nil => rfl
  | cons t ts ih =>
    rw [List.map_cons, groupLength, groupLength, hf.kind]
    split <;> simp [ih]

theorem takeWhile_relabel (p : TokenKind → Bool) (rest : List α) :
    ((rest.map f).takeWhile fun t => p (Lexical.kind t)).length
      = (rest.takeWhile fun t => p (Lexical.kind t)).length := by
  rw [List.takeWhile_map, List.length_map]
  simp only [Function.comp_def, hf.kind]

theorem manyFrom_relabel {p : TokenKind → Bool} {item : α → List α → Outcome α}
    {item' : β → List β → Outcome β}
    (hitem : ∀ last rest, item' (f last) (rest.map f) = (item last rest).map f) (last : α)
    (rest : List α) :
    manyFrom p item' (f last) (rest.map f) = (manyFrom p item last rest).map f := by
  induction hn : rest.length using Nat.strongRecOn generalizing last rest with
  | _ n ih =>
    cases rest with
    | nil =>
      rw [List.map_nil, manyFrom, manyFrom]
      rfl
    | cons t ts =>
      have hturn := hitem last (t :: ts)
      rw [List.map_cons] at hturn ⊢
      rw [manyFrom, manyFrom, hf.kind, hturn]
      by_cases hp : p (Lexical.kind t) = true
      · simp only [if_pos hp, List.length_cons, List.length_map,
          show ((item last (t :: ts)).map f).rest = (item last (t :: ts)).rest.map f from rfl]
        split
        · next hlt =>
          rw [Outcome.map_join, ← ih _ (by rw [← hn]; simpa using hlt) _ _ rfl]
          rfl
        · rfl
      · simp only [if_neg hp]
        rfl

end Relabelling

/-! ## Related rules -/

/-- The second rule is the first one with its tokens replaced. -/
inductive Relabels (f : α → β) : Rule α → Rule β → Prop
  | done : Relabels f .done .done
  | complain {problem} : Relabels f (.complain problem) (.complain problem)
  | complainSince {t problem} : Relabels f (.complainSince t problem) (.complainSince (f t) problem)
  | complainAt {t problem} : Relabels f (.complainAt t problem) (.complainAt (f t) problem)
  | andThen {first second first' second'} (ha : Relabels f first first')
    (hb : Relabels f second second') : Relabels f (first ++ second) (first' ++ second')
  | wrap {kind rule rule'} (h : Relabels f rule rule') :
    Relabels f (.wrap kind rule) (.wrap kind rule')
  | withNext {rule rule'} (h : ∀ t, Relabels f (rule t) (rule' (f t))) :
    Relabels f (.withNext rule) (.withNext rule')
  | peek {rule rule'} (h : ∀ next, Relabels f (rule next) (rule' next)) :
    Relabels f (.peek rule) (.peek rule')
  | advance : Relabels f .advance .advance
  | acceptAll {p} : Relabels f (.acceptAll p) (.acceptAll p)
  | rawGroup : Relabels f .rawGroup .rawGroup
  | wrapBy {start start' kind finish finish'} (ha : Relabels f start start')
    (hb : ∀ next, Relabels f (finish next) (finish' next)) :
    Relabels f (.wrapBy start kind finish) (.wrapBy start' kind finish')
  | many {p item item'} (h : Relabels f item item') : Relabels f (.many p item) (.many p item')
  | block {shape} : Relabels f (.block shape) (.block shape)

namespace Relabels

variable {f : α → β} {rule : Rule α} {rule' : Rule β}

/-- Related rules give related outcomes, if blocks do. -/
theorem runWith (hf : Relabelling f) {block : BlockShape → α → List α → Outcome α}
    {block' : BlockShape → β → List β → Outcome β}
    (hblock : ∀ shape last rest, block' shape (f last) (rest.map f) = (block shape last rest).map f)
    (h : Relabels f rule rule') (last : α) (rest : List α) :
    rule'.runWith block' (f last) (rest.map f) = (rule.runWith block last rest).map f := by
  induction h generalizing last rest with
  | done | complain | complainSince | complainAt => rfl
  | @andThen first second first' second' _ _ iha ihb =>
    show Outcome.followedBy (first'.runWith block' _ _) (second'.runWith block')
      = Outcome.map f (.followedBy (first.runWith block _ _) (second.runWith block))
    rw [iha, Outcome.followedBy, Outcome.followedBy, Outcome.map_join, ← ihb]
    rfl
  | wrap _ ih => rw [Rule.runWith, Rule.runWith, ih, Outcome.map_wrapped]
  | withNext _ ih =>
    cases rest with
    | nil => rfl
    | cons t ts => exact ih t last (t :: ts)
  | peek _ ih =>
    rw [Rule.runWith, Rule.runWith, hf.head?]
    exact ih _ last rest
  | advance => exact reading_relabel hf 1 last rest
  | acceptAll =>
    rw [Rule.runWith, Rule.runWith, takeWhile_relabel hf]
    exact reading_relabel hf _ last rest
  | rawGroup =>
    rw [Rule.runWith, Rule.runWith, groupLength_relabel hf]
    exact reading_relabel hf _ last rest
  | wrapBy _ _ iha ihb =>
    simp only [Rule.runWith, iha, hf.nextKind, Outcome.followedBy, Outcome.map_wrapped,
      Outcome.map_join, ← ihb]
    rfl
  | many _ ih =>
    rw [Rule.runWith, Rule.runWith]
    exact manyFrom_relabel hf ih last rest
  | block => exact hblock _ last rest

end Relabels

/-! ## The rules of the grammar -/

namespace Relabels

variable {f : α → β} (hf : Relabelling f)

section Closed

omit [Lexical α] [Lexical β]

theorem lacking {what : Missing} : Relabels f (Rule.lacking what) (Rule.lacking what) := .complain

theorem ifNext {p : TokenKind → Bool} {yes no : Rule α} {yes' no' : Rule β}
    (hy : Relabels f yes yes') (hn : Relabels f no no') :
    Relabels f (Rule.ifNext p yes no) (Rule.ifNext p yes' no') := by
  refine .peek fun next => ?_
  split
  · exact hy
  · exact hn

theorem accept {p : TokenKind → Bool} : Relabels f (Rule.accept p) (Rule.accept p) :=
  ifNext .advance .done

theorem reject {problem : Problem} : Relabels f (Rule.reject problem) (Rule.reject problem) :=
  .withNext fun _ => .wrap (.andThen .complainAt .advance)

theorem complainAcross {problem : Problem} {rule : Rule α} {rule' : Rule β}
    (h : Relabels f rule rule') :
    Relabels f (Rule.complainAcross problem rule) (Rule.complainAcross problem rule') :=
  .withNext fun _ => .andThen h .complainSince

theorem value {what : Missing} : Relabels f (Rule.value what) (Rule.value what) :=
  ifNext .advance lacking

theorem extraValues : Relabels f Rule.extraValues Rule.extraValues :=
  ifNext (.wrap (complainAcross .acceptAll)) .done

theorem semicolon : Relabels f Rule.semicolon Rule.semicolon :=
  .andThen extraValues (ifNext .advance lacking)

theorem setStatement : Relabels f Rule.setStatement Rule.setStatement :=
  .wrap (.andThen .advance (.andThen (ifNext (.andThen .advance value) lacking) semicolon))

theorem includeStatement : Relabels f Rule.includeStatement Rule.includeStatement :=
  .wrap (.andThen .advance (.andThen value semicolon))

theorem condition : Relabels f Rule.condition Rule.condition :=
  .wrap (ifNext (.andThen .advance value)
    (.andThen .advance (ifNext (.andThen .advance value) .done)))

theorem conditions : Relabels f Rule.conditions Rule.conditions :=
  ifNext (.andThen condition (ifNext (complainAcross (.many condition)) .done)) lacking

theorem ifStatement : Relabels f Rule.ifStatement Rule.ifStatement :=
  .wrap (.andThen .advance (ifNext
    (.andThen .advance (.andThen conditions (ifNext
      (.andThen .advance (ifNext .block lacking))
      (.andThen lacking (ifNext .block .done)))))
    (.andThen lacking (ifNext .block .done))))

theorem geoStatement : Relabels f Rule.geoStatement Rule.geoStatement :=
  .wrap (.andThen .advance (.andThen (ifNext (.andThen .advance accept) lacking)
    (.andThen extraValues (ifNext .block lacking))))

theorem closeScript (brace : α) :
    Relabels f (Rule.closeScript brace) (Rule.closeScript (f brace)) :=
  ifNext .advance .complainAt

theorem script : Relabels f Rule.script Rule.script := by
  refine .withNext fun brace => .andThen .advance (.peek fun next => ?_)
  unfold Rule.scriptBody
  split
  · exact .andThen .advance accept
  · exact .andThen .advance (closeScript brace)
  · exact closeScript brace

theorem geoOperand {strict : Bool} {what : Missing} :
    Relabels f (Rule.geoOperand strict what) (Rule.geoOperand strict what) := by
  cases strict with
  | true => exact value
  | false => exact accept

theorem tooDeep : Relabels f Rule.tooDeep Rule.tooDeep :=
  .withNext fun _ => .wrap (.andThen .complainAt .rawGroup)

end Closed

include hf

theorem directive : Relabels f Rule.directive Rule.directive := by
  refine .withNext fun name => .wrapBy (.andThen .advance .acceptAll) fun next => ?_
  unfold Rule.directiveEnd
  rw [hf.text]
  split
  · exact .advance
  · exact .block
  · exact .complainSince

theorem luaStatement : Relabels f Rule.luaStatement Rule.luaStatement := by
  refine .withNext fun keyword => ?_
  have hkind : Rule.luaKind (f keyword) = Rule.luaKind keyword := by
    rw [Rule.luaKind, Rule.luaKind, hf.text]
  simp only [hkind, hf.text]
  refine .wrap (.andThen .advance (.andThen ?_ (.andThen extraValues
    (ifNext script (.andThen .complain accept)))))
  split
  · exact value
  · exact .done

theorem geoEntry {strict : Bool} : Relabels f (Rule.geoEntry strict) (Rule.geoEntry strict) := by
  refine .withNext fun first => ?_
  have hkeyword : Rule.geoKeyword (f first) = Rule.geoKeyword first := by
    rw [Rule.geoKeyword, Rule.geoKeyword, hf.kind, hf.text]
  rw [hkeyword, hf.kind]
  repeat' split
  all_goals first
    | exact .wrap (.andThen .advance geoOperand)
    | exact .wrap .advance

theorem wholeGeoItem : Relabels f Rule.wholeGeoItem Rule.wholeGeoItem :=
  .wrap (.andThen (geoEntry hf) (.andThen
    (ifNext (.wrap (complainAcross (.many (geoEntry hf)))) .done)
    (ifNext .advance lacking)))

theorem statement : Relabels f Rule.statement Rule.statement := by
  refine .withNext fun first => ?_
  unfold Rule.statementFrom
  rw [hf.kind]
  split
  · exact ifStatement
  · exact setStatement
  · exact includeStatement
  · exact geoStatement
  · exact luaStatement hf
  · exact directive hf
  · exact directive hf
  · exact directive hf
  · exact .wrap (.andThen .complainAt .block)
  · exact .wrap .advance
  · exact reject

theorem geoItem : Relabels f Rule.geoItem Rule.geoItem := by
  refine .withNext fun first => ?_
  unfold Rule.geoItemFrom
  rw [hf.kind]
  split
  · exact wholeGeoItem hf
  · exact wholeGeoItem hf
  · exact wholeGeoItem hf
  · exact wholeGeoItem hf
  · exact reject
  · exact .wrap .advance
  · exact .wrap (.andThen .complainAt (statement hf))

theorem braced (brace : α) (shape : BlockShape) :
    Relabels f (Rule.braced brace shape) (Rule.braced (f brace) shape) := by
  refine .andThen .advance (.andThen (.many ?_) (ifNext .advance .complainAt))
  cases shape with
  | plain => exact statement hf
  | geo => exact geoItem hf

theorem topStatement : Relabels f Rule.topStatement Rule.topStatement :=
  ifNext reject (statement hf)

theorem file : Relabels f Rule.file Rule.file := .many (topStatement hf)

end Relabels

/-! ## Outcomes -/

variable {f : α → β}

theorem runBlock_relabel (hf : Relabelling f) (room : Nat) (shape : BlockShape) (last : α)
    (rest : List α) :
    runBlock room shape (f last) (rest.map f) = (runBlock room shape last rest).map f := by
  induction room generalizing shape last rest with
  | zero => exact Relabels.tooDeep.runWith hf (fun _ _ _ => rfl) last rest
  | succ room ih =>
    cases rest with
    | nil => rfl
    | cons t ts =>
      rw [List.map_cons, runBlock, runBlock, Outcome.map_wrapped]
      exact congrArg _ ((Relabels.braced hf t shape).runWith hf ih last (t :: ts))

/-- **A rule on relabelled tokens returns the relabelled outcome.** -/
theorem run_relabel (hf : Relabelling f) {rule : Rule α} {rule' : Rule β}
    (h : Relabels f rule rule') (room : Nat) (last : α) (rest : List α) :
    rule'.run room (f last) (rest.map f) = (rule.run room last rest).map f :=
  h.runWith hf (runBlock_relabel hf room) last rest

end NginxConf
