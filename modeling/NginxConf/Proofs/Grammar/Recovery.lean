import NginxConf.Proofs.Grammar.Nesting
import NginxConf.Proofs.Grammar.Settled

/-!
# Recovery is local

Whatever is wrong with a statement, it is over by the end of a settled row of tokens
(`Rule.topStatement_halts`). So the rule for a file makes of a settled row with other tokens behind
it what it makes of the row, and then what it makes of those tokens (`Rule.file_append`).

Blocks need no induction. What stands between the braces of a block closes all that it opens, so in
a settled row a block that begins there has its `}` there; and up to this `}` the rules do not look
behind it.
-/

namespace NginxConf

variable {α : Type} [Lexical α]

namespace Rule

variable {room : Nat} {P : α → Prop} {shape : BlockShape}

/-! ## Blocks -/

/-- A block that is nested too deep is over where its `}` is. -/
theorem tooDeep_halts : Halts 0 (fun t : α => Lexical.kind t = .leftBrace) (block shape) := by
  intro last rest hrest
  obtain ⟨t, ts, rfl, ht⟩ := hrest.exists_cons
  refine ⟨trivial, fun more => ?_⟩
  have hstep := Braces.step_leftBrace (b := Braces.none) ht
  have hgroup := groupLength_append (b := Braces.none.step t) (by simp [hstep]) hrest.opened more
  rw [show (Braces.none.step t).opened.length = 0 + 1 by rw [hstep]; rfl] at hgroup
  show Outcome.deep last t (ts ++ more) = (Outcome.deep last t ts).before more
  have hlength : groupLength 0 (t :: ts) ≤ (t :: ts).length := by
    rw [groupLength_leftBrace ht]
    exact Nat.succ_le_succ hgroup.2
  rw [Outcome.deep, groupLength_leftBrace ht, hgroup.1, ← groupLength_leftBrace ht,
    ← List.cons_append, Outcome.reading_append hlength]
  rfl

/-- In a settled row, the items of a block are followed by its `}`. -/
theorem exists_rest_items (room : Nat) (shape : BlockShape) {t : α} {ts : List α}
    (hrest : Settled (t :: ts)) (ht : Lexical.kind t = .leftBrace) :
    ∃ r rest, ((items shape).run room t ts).rest = r :: rest := by
  by_contra hnone
  obtain ⟨stage, hfits⟩ := hrest.fits
  obtain ⟨P, -, hitems, -⟩ := items_ends Outcome.closed_bracketed
    (blocksYield Outcome.closed_bracketed room) shape ht hfits
  -- all tokens are read by the items, so the `{` is left open
  have hread := (runs_items shape t ts : Runs room [] [] _ _ _ _).read_append_rest
  have hnil : ((items shape).run room t ts).rest = [] := by
    cases h : ((items shape).run room t ts).rest with
    | nil => rfl
    | cons r rest => exact absurd ⟨r, rest, h⟩ hnone
  rw [hnil, List.append_nil] at hread
  have hmatch : matchBraces (t :: ts) = (matchBraces [t]).join (matchBraces ts) :=
    matchBraces_append [t] (.inl (hread ▸ hitems.whole.unmatched))
  have hopened := hrest.opened
  rw [hmatch, matchBraces_open ht, Braces.join] at hopened
  exact List.append_ne_nil_of_right_ne_nil _ (List.cons_ne_nil _ _) hopened

/-- **A block is over where its `}` is**, whatever stands between its braces. -/
theorem block_halts : Halts room (fun t : α => Lexical.kind t = .leftBrace) (block shape) := by
  cases room with
  | zero => exact tooDeep_halts
  | succ room =>
    intro last rest hrest
    obtain ⟨t, ts, rfl, ht⟩ := hrest.exists_cons
    refine ⟨trivial, fun more => ?_⟩
    obtain ⟨r, rest, hr⟩ := exists_rest_items room shape hrest.settled ht
    have hruns : Runs room [] [] (items shape) t ts _ := runs_items shape t ts
    -- the items are followed by the `}` all the same
    have hmore : (items shape).run room t (ts ++ more)
        = ((items shape).run room t ts).before more := by
      have hsplit := hruns.read_append_rest
      have hhead : (r :: rest ++ more).head? = ((items shape).run room t ts).rest.head? := by
        rw [hr]
        rfl
      have hlook := hruns.run_lookahead (by simp [hr]) hhead
      rw [← List.append_assoc, ← hr, hsplit] at hlook
      rw [hlook, Outcome.before, hr]
    have hr' : ((items shape).run room t (ts ++ more)).rest = r :: (rest ++ more) := by
      rw [hmore, Outcome.before, hr]
      rfl
    show Outcome.wrapped _ ((braced t shape).run room last (t :: (ts ++ more)))
      = (Outcome.wrapped _ ((braced t shape).run room last (t :: ts))).before more
    rw [run_braced_closed hr, run_braced_closed hr', hmore]
    rfl

/-- The block that belongs to a statement, or what is done without one. -/
theorem ifBlock_halts {no : Rule α}
    (hno : Halts room (fun t => P t ∧ (Lexical.kind t == .leftBrace) = false) no) :
    Halts room P (ifNext (· == .leftBrace) (block shape) no) :=
  .ifNext (block_halts.of_head fun _ ht => beq_iff_eq.1 ht.2) hno

/-! ## Parts of statements -/

/-- A token of a kind that ends no statement is not the last one. -/
theorem token_pauses (kind : TokenKind) (h : kind.isTerminator = false) :
    Pauses room (fun t : α => Lexical.kind t = kind) advance := by
  refine .advance_pauses ?_
  intro t ht
  rw [ht, h]

theorem value_pauses {what : Missing} : Pauses room P (value what) :=
  .ifNext (.advance_of TokenKind.isValue ⟨rfl, rfl⟩) .lacking

theorem extraValues_pauses : Pauses room P extraValues :=
  .ifNext (.wrap (.complainAcross (.acceptAll ⟨rfl, rfl⟩))) .done

theorem semicolon_halts : Halts room P semicolon :=
  .andThen extraValues_pauses (.ifNext .advance (Local.lacking).halts)

/-! ## Statements without blocks -/

theorem setStatement_halts :
    Halts room (fun t : α => Lexical.kind t = .setKeyword) setStatement := by
  have hassigned : Pauses room (fun _ : α => True)
      (ifNext (fun kind => kind == .variableName || kind == .word)
        (advance ++ value .valueToAssign) (lacking .variableToSet)) :=
    .ifNext (.andThen (.advance_of (fun kind => kind == .variableName || kind == .word) ⟨rfl, rfl⟩)
      value_pauses) .lacking
  exact .wrap (.andThen (token_pauses .setKeyword rfl) (.andThen hassigned semicolon_halts))

theorem includeStatement_halts :
    Halts room (fun t : α => Lexical.kind t = .includeKeyword) includeStatement :=
  .wrap (.andThen (token_pauses .includeKeyword rfl) (.andThen value_pauses semicolon_halts))

theorem closeScript_halts (brace : α) : Halts room P (closeScript brace) :=
  .ifNext .advance Local.complainAt.halts

/-- What stands behind the `{` of a script. -/
theorem scriptBody_halts (brace u : α) :
    Halts room (· = u) (scriptBody brace (some (Lexical.kind u))) := by
  have hfirst {kind : TokenKind} (hu : some (Lexical.kind u) = some kind)
      (hkind : kind.isTerminator = false) : Pauses room (· = u) advance := by
    refine (token_pauses kind hkind).of_head ?_
    rintro t rfl
    exact Option.some.inj hu
  unfold scriptBody
  split
  · next hu => exact .andThen (hfirst hu rfl) (.ifNext .advance Local.done.halts)
  · next hu => exact .andThen (hfirst hu rfl) (closeScript_halts brace)
  · exact closeScript_halts brace

/-- A script is over where its `}` is. -/
theorem script_halts : Halts room (fun t : α => Lexical.kind t = .leftBrace) script := by
  refine .withNext fun brace hbrace => ?_
  have hopen : Pauses room (· = brace) advance := by
    refine (token_pauses .leftBrace rfl).of_head ?_
    rintro t rfl
    exact hbrace
  exact .andThen hopen (.peek fun u _ => scriptBody_halts brace u)

theorem luaStatement_halts :
    Halts room (fun t : α => Lexical.kind t = .luaKeyword) luaStatement := by
  refine .withNext fun keyword hkeyword => ?_
  have hfirst : Pauses room (· = keyword) advance := by
    refine (token_pauses .luaKeyword rfl).of_head ?_
    rintro t rfl
    exact hkeyword
  have hvariable : Pauses room (fun _ : α => True)
      (if luaKind keyword = .setLua then value .luaVariable else done) := by
    split
    · exact value_pauses
    · exact .done
  refine .wrap (.andThen hfirst (.andThen hvariable (.andThen extraValues_pauses (.ifNext ?_ ?_))))
  · exact script_halts.of_head fun _ ht => beq_iff_eq.1 ht.2
  · exact .andThen .complain (.ifNext .advance Local.done.halts)

/-! ## Statements with blocks -/

theorem operation_pauses :
    Pauses room (fun t => P t ∧ (Lexical.kind t == .operator) = true) (advance ++ value .operand) :=
  .andThen (.advance_of (· == .operator) ⟨rfl, rfl⟩) value_pauses

theorem condition_pauses :
    Pauses room (fun t : α => startsCondition (Lexical.kind t) = true) condition := by
  have hoperand : Pauses room (fun t : α => startsCondition (Lexical.kind t) = true
      ∧ (Lexical.kind t == .operator) = false) advance :=
    .advance_pauses fun _ ht => TokenKind.isTerminator_eq_false ⟨rfl, rfl⟩ ht.1
  exact .wrap (.ifNext operation_pauses (.andThen hoperand (.ifNext operation_pauses .done)))

theorem conditions_pauses : Pauses room P conditions := by
  refine .ifNext (.andThen (condition_pauses.of_head fun _ ht => ht.2) (.ifNext ?_ .done)) .lacking
  exact .complainAcross (.many condition_pauses)

/-- Where something is missing of the parentheses, the block may come all the same. -/
theorem withoutParen_halts {what : Missing} :
    Halts room P (lacking what ++ ifNext (· == .leftBrace) (block .plain) done) :=
  .andThen .lacking (ifBlock_halts Local.done.halts)

theorem ifStatement_halts :
    Halts room (fun t : α => Lexical.kind t = .ifKeyword) ifStatement := by
  have hblock : Halts room (fun t : α => True ∧ (Lexical.kind t == .rightParen) = true)
      (advance ++ ifNext (· == .leftBrace) (block .plain) (lacking .openingBrace)) :=
    .andThen (.advance_of (· == .rightParen) ⟨rfl, rfl⟩) (ifBlock_halts (Local.lacking).halts)
  exact .wrap (.andThen (token_pauses .ifKeyword rfl) (.ifNext
    (.andThen (.advance_of (· == .leftParen) ⟨rfl, rfl⟩)
      (.andThen conditions_pauses (.ifNext hblock withoutParen_halts))) withoutParen_halts))

theorem geoStatement_halts :
    Halts room (fun t : α => Lexical.kind t = .geoKeyword) geoStatement := by
  have hvalues : Pauses room (fun _ : α => True)
      (ifNext TokenKind.isValue (advance ++ accept TokenKind.isValue) (lacking .geoVariable)) :=
    .ifNext (.andThen (.advance_of TokenKind.isValue ⟨rfl, rfl⟩)
      (.ifNext (.advance_of TokenKind.isValue ⟨rfl, rfl⟩) .done)) .lacking
  exact .wrap (.andThen (token_pauses .geoKeyword rfl) (.andThen hvalues
    (.andThen extraValues_pauses (ifBlock_halts (Local.lacking).halts))))

theorem directive_halts :
    Halts room (fun t : α => (Lexical.kind t).isValue = true) directive := by
  refine .withNext fun name hname => ?_
  have hfirst : Pauses room (· = name) advance := by
    refine .advance_pauses ?_
    rintro t rfl
    exact TokenKind.isTerminator_eq_false ⟨rfl, rfl⟩ hname
  refine .wrapBy (.andThen hfirst (.acceptAll ⟨rfl, rfl⟩)) ?_
  intro k
  unfold directiveEnd
  split
  · exact .advance
  · next hk => exact block_halts.of_head fun _ ht => ht.trans (Option.some.inj hk)
  · exact Local.complainSince.halts

/-! ## Whole files -/

/-- **Every statement is over by the end of a settled row**, whatever is wrong with it. -/
theorem statement_halts : Halts room P statement := by
  refine .withNext fun first _ => ?_
  have of_kind {rule : Rule α} {kind : TokenKind} (hkind : Lexical.kind first = kind)
      (h : Halts room (fun t => Lexical.kind t = kind) rule) : Halts room (· = first) rule :=
    h.of_head fun _ ht => ht ▸ hkind
  have of_value {kind : TokenKind} (hkind : Lexical.kind first = kind)
      (h : kind.isValue = true) : Halts room (· = first) directive :=
    directive_halts.of_head fun _ ht => by rw [ht, hkind, h]
  unfold statementFrom
  split
  · next hkind => exact of_kind hkind ifStatement_halts
  · next hkind => exact of_kind hkind setStatement_halts
  · next hkind => exact of_kind hkind includeStatement_halts
  · next hkind => exact of_kind hkind geoStatement_halts
  · next hkind => exact of_kind hkind luaStatement_halts
  · next hkind => exact of_value hkind rfl
  · next hkind => exact of_value hkind rfl
  · next hkind => exact of_value hkind rfl
  · next hkind => exact .wrap (.andThen .complainAt (of_kind hkind block_halts))
  · exact .wrap .advance
  · exact .reject

/-- What is read at the top of a file is over by the end of a settled row. -/
theorem topStatement_halts : Halts room P topStatement := .ifNext .reject statement_halts

/-- **The statements of a settled row do not depend on what stands behind it**, and what stands
behind it is read as if nothing were wrong before. -/
theorem file_append {ts : List α} (h : ts = [] ∨ Settled ts) (last : α) (us : List α) :
    file.run maxDepth last (ts ++ us) = (file.run maxDepth last ts).join
      (file.run maxDepth (file.run maxDepth last ts).last us) := by
  induction hn : ts.length using Nat.strongRecOn generalizing last ts with
  | _ n ih =>
    rcases h with rfl | h
    · have hnil : file.run maxDepth last [] = .idle last [] := run_many_stop (by simp)
      rw [hnil]
      rfl
    obtain ⟨t, ts, rfl, -⟩ := h.exists_cons
    have hsound : SoundAt maxDepth [] t topStatement := topStatement_soundAt (blocksSound maxDepth)
    obtain ⟨hruns, hread, -⟩ := hsound [] last ts (List.nil_subset _)
    obtain ⟨-, happend⟩ := topStatement_halts last (t :: ts) h
    have hlt := hruns.length_rest_lt hread
    have hsplit := hruns.read_append_rest
    have hlt' : (topStatement.run maxDepth last (t :: (ts ++ us))).rest.length
        < (t :: (ts ++ us)).length := by
      rw [← List.cons_append, happend, Outcome.before, List.length_append, List.length_append]
      exact Nat.add_lt_add_right hlt _
    rw [file, List.cons_append, run_many_step rfl hlt', run_many_step rfl hlt, ← List.cons_append,
      happend]
    generalize topStatement.run maxDepth last (t :: ts) = a at *
    have hrest : a.rest = [] ∨ Settled a.rest := by
      by_cases hnil : a.rest = []
      · exact .inl hnil
      · rw [← hsplit] at h
        exact .inr (.of_append _ h hnil)
    have hmore := ih _ (hn ▸ hlt) hrest a.last rfl
    rw [file] at hmore
    rw [Outcome.followedBy, Outcome.followedBy, Outcome.before, hmore]
    simp [Outcome.join]

end Rule

end NginxConf
