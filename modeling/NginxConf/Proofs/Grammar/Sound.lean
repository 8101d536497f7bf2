import NginxConf.Proofs.Grammar.Runs

/-!
# Every rule of the grammar has a derivation

A rule is *sound* where running it has a derivation (`Runs`) from every state, and *sound at* a
token where it has one from every state in which this token is next, reads the token, and does not
ask which token came before. Both notions are closed under the ways to combine rules, and with that
each rule of the grammar is gone through once.

The rules that call blocks are sound as far as blocks are (`BlocksSound`); the induction on the
room for nested blocks closes the circle (`blocksSound`). The rule for a whole file reads all tokens,
and what it returns does not depend on what is taken for the token before the first one
(`parseFile_eq`).
-/

namespace NginxConf

variable {α : Type} [Lexical α]

namespace Rule

/-- Every run of the rule has a derivation, if the tokens that it knows have been read. -/
def Sound (room : Nat) (known : List α) (rule : Rule α) : Prop :=
  ∀ seen last rest, known ⊆ seen → Runs room known seen rule last rest (rule.run room last rest)

/--
Every run that begins at the token has a derivation, reads the token and does not depend on the
token before; the token itself may be known.
-/
def SoundAt (room : Nat) (known : List α) (t : α) (rule : Rule α) : Prop :=
  ∀ seen last ts, known ⊆ t :: seen →
    Runs room known seen rule last (t :: ts) (rule.run room last (t :: ts)) ∧
    t ∈ (rule.run room last (t :: ts)).read ∧
    ∀ last', rule.run room last' (t :: ts) = rule.run room last (t :: ts)

/-- Blocks are sound wherever a `{` stands. -/
def BlocksSound (α : Type) [Lexical α] (room : Nat) : Prop :=
  ∀ (known : List α) (t : α) (shape : BlockShape), Lexical.kind t = .leftBrace →
    SoundAt room known t (block shape)

variable {room : Nat} {known : List α} {t : α} {first second rule yes no : Rule α}

/-! ## Sound everywhere -/

namespace Sound

theorem done : Sound room known .done := fun _ _ _ _ => .done

theorem complain {problem : Problem} : Sound room known (.complain problem) :=
  fun _ _ _ _ => .complain

theorem lacking {what : Missing} : Sound room known (Rule.lacking what) := Sound.complain

theorem complainSince {problem : Problem} (h : t ∈ known) :
    Sound room known (.complainSince t problem) :=
  fun _ _ _ hseen => .complainSince h (hseen h)

theorem complainAt {problem : Problem} (h : t ∈ known) :
    Sound room known (.complainAt t problem) :=
  fun _ _ _ _ => .complainAt h

theorem advance : Sound room known .advance := fun _ _ _ _ => .advance

theorem acceptAll {p : TokenKind → Bool} : Sound room known (.acceptAll p) :=
  fun _ _ _ _ => .acceptAll

theorem andThen (ha : Sound room known first) (hb : Sound room known second) :
    Sound room known (first ++ second) := by
  intro seen last rest hseen
  have ha := ha seen last rest hseen
  exact .andThen ha (hb _ _ _ (List.subset_append_of_subset_left _ hseen))

theorem wrap {kind : NodeKind} (hk : kind.isBlock = false) (h : Sound room known rule) :
    Sound room known (.wrap kind rule) :=
  fun seen last rest hseen => .wrap hk (h seen last rest hseen)

theorem peek {rule : Option TokenKind → Rule α} (h : ∀ next, Sound room known (rule next)) :
    Sound room known (.peek rule) :=
  fun seen last rest hseen => .peek (h _ seen last rest hseen)

/-- A choice by the next token, where the first rule need only be sound at its tokens. -/
theorem ifNextAt {p : TokenKind → Bool}
    (hy : ∀ t, p (Lexical.kind t) = true → SoundAt room known t yes) (hn : Sound room known no) :
    Sound room known (ifNext p yes no) := by
  intro seen last rest hseen
  refine .peek ?_
  cases rest with
  | nil => exact hn seen last [] hseen
  | cons t ts =>
    by_cases hp : p (Lexical.kind t) = true
    · rw [run_ifNext_cons, if_pos hp]
      simpa [hp] using (hy t hp seen last ts (List.subset_cons_of_subset t hseen)).1
    · rw [run_ifNext_cons, if_neg hp]
      simpa [hp] using hn seen last (t :: ts) hseen

theorem ifNext {p : TokenKind → Bool} (hy : Sound room known yes) (hn : Sound room known no) :
    Sound room known (ifNext p yes no) := by
  refine peek fun next => ?_
  split
  · exact hy
  · exact hn

theorem accept {p : TokenKind → Bool} : Sound room known (accept p) :=
  Sound.ifNext Sound.advance Sound.done

/-- A rule that depends on the next token is sound if it is sound at each token. -/
theorem withNext {rule : α → Rule α} (h : ∀ t, SoundAt room (t :: known) t (rule t)) :
    Sound room known (.withNext rule) := by
  intro seen last rest hseen
  cases rest with
  | nil => exact .atEnd
  | cons t ts =>
    obtain ⟨hruns, hread, -⟩ := h t seen last ts (List.cons_subset_cons t hseen)
    exact .withNext hruns hread

end Sound

/-! ## Sound at a token -/

namespace SoundAt

theorem advance : SoundAt room known t .advance :=
  fun _ _ _ _ => ⟨.advance, by simp [run, runWith], fun _ => rfl⟩

theorem acceptAll {p : TokenKind → Bool} (hp : p (Lexical.kind t) = true) :
    SoundAt room known t (.acceptAll p) := by
  intro seen last ts _
  refine ⟨.acceptAll, by simp [run, runWith, hp], fun last' => ?_⟩
  simp [run, runWith, Outcome.reading, hp, List.getLast?_cons]

theorem rawGroup (hb : Lexical.kind t = .leftBrace) : SoundAt room known t .rawGroup := by
  intro seen last ts _
  have hlen : groupLength 0 (t :: ts) = groupLength 1 ts + 1 := by rw [groupLength]; simp [hb]
  refine ⟨.rawGroup (by simp [hb]), ?_, fun last' => ?_⟩
  · simp [run, runWith, hlen]
  · simp [run, runWith, Outcome.reading, hlen, List.getLast?_cons]

/-- What comes after a rule that reads the token has read it. -/
theorem andThen (ha : SoundAt room known t first) (hb : Sound room known second) :
    SoundAt room known t (first ++ second) := by
  intro seen last ts hseen
  obtain ⟨hruns, hread, hlast⟩ := ha seen last ts hseen
  refine ⟨.andThen hruns (hb _ _ _ ?_), ?_, fun last' => ?_⟩
  · intro x hx
    rcases List.mem_cons.1 (hseen hx) with rfl | hx
    · exact List.mem_append_right _ hread
    · exact List.mem_append_left _ hx
  · exact (Outcome.read_join _ _).symm ▸ List.mem_append_left _ hread
  · rw [run_append, run_append, hlast last']

/-- A report at the token itself may come before it is read. -/
theorem complainAt_andThen {problem : Problem} (ht : t ∈ known) (h : SoundAt room known t rule) :
    SoundAt room known t (complainAt t problem ++ rule) := by
  intro seen last ts hseen
  obtain ⟨hruns, hread, hlast⟩ := h seen last ts hseen
  refine ⟨.andThen (.complainAt ht) ?_, hread, fun last' => ?_⟩
  · show Runs room known (seen ++ []) rule last (t :: ts) (rule.run room last (t :: ts))
    rw [List.append_nil]
    exact hruns
  · show Outcome.join _ (rule.run room last' (t :: ts)) = _
    rw [hlast last']
    rfl

theorem wrap {kind : NodeKind} (hk : kind.isBlock = false) (h : SoundAt room known t rule) :
    SoundAt room known t (.wrap kind rule) := by
  intro seen last ts hseen
  obtain ⟨hruns, hread, hlast⟩ := h seen last ts hseen
  exact ⟨.wrap hk hruns, (Outcome.read_wrapped _ _).symm ▸ hread,
    fun last' => congrArg (Outcome.wrapped kind) (hlast last')⟩

theorem wrapBy {kind : Option TokenKind → NodeKind} {finish : Option TokenKind → Rule α}
    (hk : ∀ next, (kind next).isBlock = false) (ha : SoundAt room known t rule)
    (hb : Sound room known (.peek finish)) :
    SoundAt room known t (.wrapBy rule kind finish) := by
  intro seen last ts hseen
  obtain ⟨hruns, hread, hlast⟩ := ha seen last ts hseen
  have hseen' : known ⊆ seen ++ (rule.run room last (t :: ts)).read := by
    intro x hx
    rcases List.mem_cons.1 (hseen hx) with rfl | hx
    · exact List.mem_append_right _ hread
    · exact List.mem_append_left _ hx
  refine ⟨?_, ?_, fun last' => ?_⟩
  · cases hb _ (rule.run room last (t :: ts)).last (rule.run room last (t :: ts)).rest hseen' with
    | peek hend => exact .wrapBy hk hruns hend
  · refine (Outcome.read_wrapped _ _).symm ▸ (Outcome.read_join _ _).symm ▸ ?_
    exact List.mem_append_left _ hread
  · rw [run_wrapBy, run_wrapBy, hlast last']

theorem withNext {rule : α → Rule α} (h : SoundAt room (t :: known) t (rule t)) :
    SoundAt room known t (.withNext rule) := by
  intro seen last ts hseen
  obtain ⟨hruns, hread, hlast⟩ :=
    h seen last ts (List.cons_subset.2 ⟨List.mem_cons_self, hseen⟩)
  exact ⟨.withNext hruns hread, hread, hlast⟩

theorem ifNext {p : TokenKind → Bool} (hy : p (Lexical.kind t) = true → SoundAt room known t yes)
    (hn : p (Lexical.kind t) = false → SoundAt room known t no) :
    SoundAt room known t (ifNext p yes no) := by
  intro seen last ts hseen
  by_cases hp : p (Lexical.kind t) = true
  · obtain ⟨hruns, hread, hlast⟩ := hy hp seen last ts hseen
    simp only [run_ifNext_cons, if_pos hp]
    exact ⟨.peek (by simpa [hp] using hruns), hread, hlast⟩
  · obtain ⟨hruns, hread, hlast⟩ := hn (Bool.eq_false_iff.2 hp) seen last ts hseen
    simp only [run_ifNext_cons, if_neg hp]
    exact ⟨.peek (by simpa [hp] using hruns), hread, hlast⟩

theorem reject {problem : Problem} : SoundAt room known t (Rule.reject problem) :=
  withNext (wrap rfl (complainAt_andThen List.mem_cons_self advance))

/-- A report across what a rule reads begins at the first token that it reads. -/
theorem complainAcross {problem : Problem} (h : SoundAt room (t :: known) t rule) :
    SoundAt room known t (Rule.complainAcross problem rule) :=
  withNext (andThen h (Sound.complainSince List.mem_cons_self))

end SoundAt

/-! ## Loops -/

theorem Sound.many {p : TokenKind → Bool}
    (h : ∀ t, p (Lexical.kind t) = true → SoundAt room known t rule) :
    Sound room known (.many p rule) := by
  intro seen last rest hseen
  induction hn : rest.length using Nat.strongRecOn generalizing seen last rest with
  | _ n ih =>
    cases rest with
    | nil =>
      rw [run_many, manyFrom]
      exact .manyStop (by simp)
    | cons t ts =>
      by_cases hp : p (Lexical.kind t) = true
      · obtain ⟨hruns, hread, -⟩ := h t hp seen last ts (List.subset_cons_of_subset t hseen)
        have hlt := hruns.length_rest_lt hread
        rw [run_many, manyFrom]
        simp only [hp, if_true, if_pos hlt]
        refine .manyStep hp hruns hread ?_
        exact ih _ (hn ▸ hlt) _ _ _ (List.subset_append_of_subset_left _ hseen) rfl
      · rw [run_many, manyFrom, if_neg hp]
        exact .manyStop (by simpa using hp)

theorem SoundAt.many {p : TokenKind → Bool} (hp : p (Lexical.kind t) = true)
    (h : ∀ t, p (Lexical.kind t) = true → SoundAt room known t rule) :
    SoundAt room known t (.many p rule) := by
  intro seen last ts hseen
  obtain ⟨hruns, hread, hlast⟩ := h t hp seen last ts hseen
  have hlt := hruns.length_rest_lt hread
  have hrun : ∀ last', (Rule.many p rule).run room last' (t :: ts)
      = (rule.run room last (t :: ts)).followedBy ((Rule.many p rule).run room) := by
    intro last'
    rw [run_many, manyFrom]
    rw [← hlast last'] at hlt ⊢
    simp only [hp, if_true, if_pos hlt]
    rfl
  refine ⟨?_, ?_, fun last' => by rw [hrun, hrun]⟩
  · rw [hrun]
    refine .manyStep hp hruns hread (Sound.many h _ _ _ fun x hx => ?_)
    rcases List.mem_cons.1 (hseen hx) with rfl | hx
    · exact List.mem_append_right _ hread
    · exact List.mem_append_left _ hx
  · rw [hrun]
    exact (Outcome.read_join _ _).symm ▸ List.mem_append_left _ hread

/-! ## Parts of statements -/

theorem value_sound {what : Missing} : Sound room known (value what) :=
  Sound.ifNext Sound.advance Sound.lacking

theorem extraValues_sound : Sound room known extraValues :=
  Sound.ifNextAt (fun _ hp => SoundAt.wrap rfl (SoundAt.complainAcross (SoundAt.acceptAll hp)))
    Sound.done

theorem semicolon_sound : Sound room known semicolon :=
  Sound.andThen extraValues_sound (Sound.ifNext Sound.advance Sound.lacking)

theorem geoOperand_sound {strict : Bool} {what : Missing} :
    Sound room known (geoOperand strict what) := by
  cases strict with
  | true => exact value_sound
  | false => exact Sound.accept

theorem condition_soundAt : SoundAt room known t condition :=
  SoundAt.wrap rfl <| SoundAt.ifNext
    (fun _ => SoundAt.andThen SoundAt.advance value_sound)
    (fun _ => SoundAt.andThen SoundAt.advance
      (Sound.ifNext (Sound.andThen Sound.advance value_sound) Sound.done))

theorem conditions_sound : Sound room known conditions :=
  Sound.ifNextAt
    (fun _ _ => SoundAt.andThen condition_soundAt <| Sound.ifNextAt
      (fun _ hp => SoundAt.complainAcross (SoundAt.many hp fun _ _ => condition_soundAt))
      Sound.done)
    Sound.lacking

theorem closeScript_sound (h : t ∈ known) : Sound room known (closeScript t) :=
  Sound.ifNext Sound.advance (Sound.complainAt h)

theorem scriptBody_sound (h : t ∈ known) (next : Option TokenKind) :
    Sound room known (scriptBody t next) := by
  unfold scriptBody
  split
  · exact Sound.andThen Sound.advance Sound.accept
  · exact Sound.andThen Sound.advance (closeScript_sound h)
  · exact closeScript_sound h

theorem script_soundAt : SoundAt room known t script :=
  SoundAt.withNext <| SoundAt.andThen SoundAt.advance
    (Sound.peek (scriptBody_sound List.mem_cons_self))

theorem geoEntry_soundAt {strict : Bool} : SoundAt room known t (geoEntry strict) := by
  have hword : ∀ {what : Missing} {kind : NodeKind}, kind.isBlock = false →
      SoundAt room (t :: known) t (.wrap kind (advance ++ geoOperand strict what)) :=
    fun hk => SoundAt.wrap hk (SoundAt.andThen SoundAt.advance geoOperand_sound)
  refine SoundAt.withNext ?_
  split
  · exact hword rfl
  · split
    · exact hword rfl
    · split
      · exact hword rfl
      · split
        · exact hword rfl
        · split
          · exact SoundAt.wrap rfl SoundAt.advance
          · split
            · exact SoundAt.wrap rfl SoundAt.advance
            · exact hword rfl

/-! ## Statements without blocks -/

theorem setStatement_soundAt : SoundAt room known t setStatement :=
  SoundAt.wrap rfl <| SoundAt.andThen SoundAt.advance <| Sound.andThen
    (Sound.ifNext (Sound.andThen Sound.advance value_sound) Sound.lacking)
    semicolon_sound

theorem includeStatement_soundAt : SoundAt room known t includeStatement :=
  SoundAt.wrap rfl <| SoundAt.andThen SoundAt.advance <|
    Sound.andThen value_sound semicolon_sound

theorem luaStatement_soundAt : SoundAt room known t luaStatement := by
  refine SoundAt.withNext (SoundAt.wrap (isBlock_luaKind t) (SoundAt.andThen SoundAt.advance ?_))
  refine Sound.andThen ?_ (Sound.andThen extraValues_sound (Sound.ifNextAt
    (fun _ _ => script_soundAt) (Sound.andThen Sound.complain Sound.accept)))
  split
  · exact value_sound
  · exact Sound.done

theorem wholeGeoItem_soundAt : SoundAt room known t wholeGeoItem :=
  SoundAt.wrap rfl <| SoundAt.andThen geoEntry_soundAt <| Sound.andThen
    (Sound.ifNextAt
      (fun _ hp => SoundAt.wrap rfl
        (SoundAt.complainAcross (SoundAt.many hp fun _ _ => geoEntry_soundAt)))
      Sound.done)
    (Sound.ifNext Sound.advance Sound.lacking)

/-! ## Statements with blocks -/

section Blocks

variable (hblocks : BlocksSound α room)

include hblocks

/-- Where a block may stand but need not, it is read at a `{`. -/
theorem ifBlock_sound {shape : BlockShape} (hn : Sound room known no) :
    Sound room known (ifNext (· == .leftBrace) (block shape) no) :=
  Sound.ifNextAt (fun t hp => hblocks known t shape (by simpa using hp)) hn

theorem directiveEnd_sound (h : t ∈ known) : Sound room known (.peek (directiveEnd t)) := by
  intro seen last rest hseen
  refine .peek ?_
  cases rest with
  | nil => exact .complainSince h (hseen h)
  | cons u us =>
    rw [run_peek]
    simp only [List.head?_cons, Option.map_some]
    unfold directiveEnd
    split
    · exact .advance
    · next hk =>
      exact (hblocks known u .plain (by simpa using hk) seen last us
        (List.subset_cons_of_subset u hseen)).1
    · exact .complainSince h (hseen h)

theorem directive_soundAt : SoundAt room known t directive :=
  SoundAt.withNext <| SoundAt.wrapBy isBlock_directiveKind
    (SoundAt.andThen SoundAt.advance Sound.acceptAll)
    (directiveEnd_sound hblocks List.mem_cons_self)

theorem ifStatement_soundAt : SoundAt room known t ifStatement := by
  refine SoundAt.wrap rfl (SoundAt.andThen SoundAt.advance (Sound.ifNext ?_ ?_))
  · refine Sound.andThen Sound.advance (Sound.andThen conditions_sound (Sound.ifNext ?_ ?_))
    · exact Sound.andThen Sound.advance (ifBlock_sound hblocks Sound.lacking)
    · exact Sound.andThen Sound.lacking (ifBlock_sound hblocks Sound.done)
  · exact Sound.andThen Sound.lacking (ifBlock_sound hblocks Sound.done)

theorem geoStatement_soundAt : SoundAt room known t geoStatement :=
  SoundAt.wrap rfl <| SoundAt.andThen SoundAt.advance <| Sound.andThen
    (Sound.ifNext (Sound.andThen Sound.advance Sound.accept) Sound.lacking)
    (Sound.andThen extraValues_sound (ifBlock_sound hblocks Sound.lacking))

/-- **A statement is sound at every token.** -/
theorem statement_soundAt : SoundAt room known t statement := by
  refine SoundAt.withNext ?_
  unfold statementFrom
  split
  · exact ifStatement_soundAt hblocks
  · exact setStatement_soundAt
  · exact includeStatement_soundAt
  · exact geoStatement_soundAt hblocks
  · exact luaStatement_soundAt
  · exact directive_soundAt hblocks
  · exact directive_soundAt hblocks
  · exact directive_soundAt hblocks
  · next hk =>
    exact SoundAt.wrap rfl (SoundAt.complainAt_andThen List.mem_cons_self (hblocks _ t _ hk))
  · exact SoundAt.wrap rfl SoundAt.advance
  · exact SoundAt.reject

/-- **An entry of a geo block, or what stands in its place, is sound at every token.** -/
theorem geoItem_soundAt : SoundAt room known t geoItem := by
  refine SoundAt.withNext ?_
  unfold geoItemFrom
  split
  · exact wholeGeoItem_soundAt
  · exact wholeGeoItem_soundAt
  · exact wholeGeoItem_soundAt
  · exact wholeGeoItem_soundAt
  · exact SoundAt.reject
  · exact SoundAt.wrap rfl SoundAt.advance
  · exact SoundAt.wrap rfl
      (SoundAt.complainAt_andThen List.mem_cons_self (statement_soundAt hblocks))

theorem item_soundAt (shape : BlockShape) : SoundAt room known t (item shape) :=
  match shape with
  | .plain => statement_soundAt hblocks
  | .geo => geoItem_soundAt hblocks

theorem braced_soundAt (shape : BlockShape) : SoundAt room [t] t (braced t shape) :=
  SoundAt.andThen SoundAt.advance <| Sound.andThen
    (Sound.many fun _ _ => item_soundAt hblocks shape)
    (Sound.ifNext Sound.advance (Sound.complainAt List.mem_cons_self))

theorem topStatement_soundAt : SoundAt room known t topStatement :=
  SoundAt.ifNext (fun _ => SoundAt.reject) (fun _ => statement_soundAt hblocks)

end Blocks

/-! ## Blocks -/

theorem tooDeep_soundAt (hb : Lexical.kind t = .leftBrace) : SoundAt room known t tooDeep :=
  SoundAt.withNext <| SoundAt.wrap rfl <|
    SoundAt.complainAt_andThen List.mem_cons_self (SoundAt.rawGroup hb)

/-- **Blocks are sound, however much room there is.** -/
theorem blocksSound (room : Nat) : BlocksSound α room := by
  induction room with
  | zero =>
    intro known t shape hb seen last ts _
    have hraw : SoundAt 0 [] t tooDeep := tooDeep_soundAt hb
    obtain ⟨hruns, hread, hlast⟩ := hraw seen last ts (List.nil_subset _)
    exact ⟨.tooDeep hb hruns, hread, hlast⟩
  | succ room ih =>
    intro known t shape hb seen last ts _
    have hbraced : SoundAt room [t] t (braced t shape) := braced_soundAt ih shape
    obtain ⟨hruns, hread, hlast⟩ := hbraced seen last ts (by simp)
    exact ⟨.block hb hruns, (Outcome.read_wrapped _ _).symm ▸ hread,
      fun last' => congrArg (Outcome.wrapped _) (hlast last')⟩

/-! ## Whole files -/

/-- The rule for a whole file. -/
def file : Rule α := .many (fun _ => true) .topStatement

theorem file_sound : Sound (α := α) maxDepth [] file :=
  Sound.many fun _ _ => topStatement_soundAt (blocksSound maxDepth)

theorem runs_file (last : α) (tokens : List α) :
    Runs maxDepth [] [] file last tokens (file.run maxDepth last tokens) :=
  file_sound [] last tokens (List.nil_subset _)

/-- **The rule for a file leaves nothing.** -/
theorem rest_file (last : α) (tokens : List α) : (file.run maxDepth last tokens).rest = [] := by
  have hstop := (runs_file last tokens).rest_many
  cases h : (file.run maxDepth last tokens).rest with
  | nil => rfl
  | cons t ts =>
    rw [h] at hstop
    cases hstop t rfl

/-- **The leaves that the rule for a file builds are the tokens.** -/
theorem read_file (last : α) (tokens : List α) : (file.run maxDepth last tokens).read = tokens := by
  have h := (runs_file last tokens).read_append_rest
  rwa [rest_file, List.append_nil] at h

end Rule

/-- Whatever is taken for the token before the first one, a file is parsed the same. -/
theorem parseFile_eq (last : α) (tokens : List α) :
    parseFile tokens
      = ((Rule.file.run maxDepth last tokens).trees, (Rule.file.run maxDepth last tokens).issues) := by
  cases tokens with
  | nil =>
    rw [parseFile, Rule.file, Rule.run_many, manyFrom]
    rfl
  | cons t ts =>
    have hfile : Rule.SoundAt (α := α) maxDepth [] t Rule.file :=
      Rule.SoundAt.many rfl fun _ _ => Rule.topStatement_soundAt (Rule.blocksSound maxDepth)
    obtain ⟨-, -, hlast⟩ := hfile [] last ts (List.nil_subset _)
    show (_, _) = _
    rw [← hlast t]
    rfl

end NginxConf
