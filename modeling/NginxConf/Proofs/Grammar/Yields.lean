import NginxConf.Proofs.Grammar.Blocks
import NginxConf.Proofs.Grammar.Lookahead
import NginxConf.Proofs.Token.Braces
import NginxConf.Proofs.Token.Stage
import NginxConf.Proofs.Tree.Shape

/-!
# What rules make of the tokens of a text

The tokens of a text do not come in any order, and the grammar relies on it: a rule is run only
where the stage of the lexer and the next token are such as it takes for granted. `Rule.Yields` says
of a rule that from every such spot it goes to one of another sort, and that what it builds matches
a pattern. It is a triple of what holds before, the rule, and what holds after, with one lemma for
each way to combine rules.

Along the way, whatever is preserved by the ways in which outcomes are put together
(`Outcome.Closed`) is shown of all that is built.
-/

namespace NginxConf

open RegularExpression

/-- Whether a brace without a partner is the problem. -/
def Problem.isBrace : Problem → Bool
  | unmatchedBrace | unclosedBrace => true
  | _ => false

variable {α : Type} [Lexical α]

/-! ## What is read and what is left -/

theorem read_append_rest_manyFrom {p : TokenKind → Bool} {item : α → List α → Outcome α}
    (h : ∀ last rest, (item last rest).read ++ (item last rest).rest = rest) (last : α)
    (rest : List α) :
    (manyFrom p item last rest).read ++ (manyFrom p item last rest).rest = rest := by
  induction hn : rest.length using Nat.strongRecOn generalizing last rest with
  | _ n ih =>
    cases rest with
    | nil => rw [manyFrom]; rfl
    | cons t ts =>
      rw [manyFrom]
      split
      · dsimp only
        split
        · next hlt =>
          rw [Outcome.read_join, Outcome.rest_join, List.append_assoc, ih _ (hn ▸ hlt) _ _ rfl, h]
        · exact h _ _
      · rfl

theorem read_append_rest_runWith {block : BlockShape → α → List α → Outcome α}
    (h : ∀ shape last rest, (block shape last rest).read ++ (block shape last rest).rest = rest)
    (rule : Rule α) (last : α) (rest : List α) :
    (rule.runWith block last rest).read ++ (rule.runWith block last rest).rest = rest := by
  induction rule generalizing last rest with
  | done | complain | complainSince | complainAt => rfl
  | andThen first second iha ihb =>
    simp only [Rule.runWith, Outcome.followedBy, Outcome.read_join, Outcome.rest_join,
      List.append_assoc, ihb, iha]
  | wrap kind rule ih => simpa [Rule.runWith] using ih last rest
  | withNext rule ih =>
    cases rest with
    | nil => rfl
    | cons t ts => exact ih t last (t :: ts)
  | peek rule ih => exact ih _ last rest
  | advance | acceptAll | rawGroup =>
    rw [Rule.runWith, Outcome.read_reading]
    exact List.take_append_drop _ _
  | wrapBy start kind finish iha ihb =>
    simp only [Rule.runWith, Outcome.followedBy, Outcome.read_wrapped, Outcome.rest_wrapped,
      Outcome.read_join, Outcome.rest_join, List.append_assoc, ihb, iha]
  | many p item ih => exact read_append_rest_manyFrom ih last rest
  | block shape => exact h shape last rest

/-- **What a rule reads and what it leaves are the tokens that it was given**, for any rule. -/
theorem read_append_rest_run (room : Nat) (rule : Rule α) (last : α) (rest : List α) :
    (rule.run room last rest).read ++ (rule.run room last rest).rest = rest := by
  refine read_append_rest_runWith (fun shape last rest => ?_) rule last rest
  induction room generalizing shape last rest with
  | zero => exact read_append_rest_runWith (fun _ _ _ => rfl) .tooDeep last rest
  | succ room ih =>
    cases rest with
    | nil => rfl
    | cons t ts =>
      rw [runBlock, Outcome.read_wrapped, Outcome.rest_wrapped]
      exact read_append_rest_runWith ih (.braced t shape) last (t :: ts)

/-! ## What is shown of all outcomes -/

/-- The tokens of a script, from its `{` on. -/
inductive Script : List α → Prop
  | code {l u r} (hl : Lexical.kind l = .leftBrace) (hu : Lexical.kind u = .luaCode)
    (hr : Lexical.kind r = .rightBrace) : Script [l, u, r]
  | empty {l r} (hl : Lexical.kind l = .leftBrace) (hr : Lexical.kind r = .rightBrace) :
    Script [l, r]
  /-- The text ends before the script does. -/
  | cutOff {l u} (hl : Lexical.kind l = .leftBrace) (hu : Lexical.kind u = .malformed)
    (hfault : Lexical.fault u = some .unterminatedLua) : Script [l, u]

/-- A block that is nested too deep, as an error node of raw tokens. -/
def Outcome.deep (last t : α) (ts : List α) : Outcome α :=
  (join ⟨[], [⟨.tooDeep, .across t t⟩], last, t :: ts⟩
    (reading (groupLength 0 (t :: ts)) last (t :: ts))).wrapped .error

/-- A property that is kept wherever outcomes are put together, braces on their own apart. -/
structure Outcome.Closed (F : Outcome α → Prop) : Prop where
  issue {problem : Problem} {place : Place α} {last : α} {rest : List α}
    (hproblem : problem.isBrace = false) : F ⟨[], [⟨problem, place⟩], last, rest⟩
  /-- Tokens other than braces may be read. -/
  reading {n : Nat} {last : α} {rest : List α}
    (h : ∀ t ∈ rest.take n, Lexical.kind t ≠ .leftBrace ∧ Lexical.kind t ≠ .rightBrace) :
    F (.reading n last rest)
  script {n : Nat} {last : α} {rest : List α} (hscript : Script (rest.take n))
    (hwhole : Whole (rest.take n) (rest.drop n)) : F (.reading n last rest)
  deep {last t : α} {ts : List α} (ht : Lexical.kind t = .leftBrace)
    (hadmits : NodeKind.error.Admits (((t :: ts).take (groupLength 0 (t :: ts))).map .leaf)) :
    F (.deep last t ts)
  join {a b : Outcome α} (hrest : a.rest = b.read ++ b.rest) (ha : F a) (hb : F b) : F (a.join b)
  wrapped {kind : NodeKind} {a : Outcome α} (hkind : kind.isBlock = false)
    (hadmits : kind.Admits a.trees)
    (hmisfit : kind = .error → a.trees.map Tree.symbol ∈ Pattern.misfit.matches') (ha : F a) :
    F (a.wrapped kind)
  openBlock {shape : BlockShape} {t : α} {items : Outcome α} (ht : Lexical.kind t = .leftBrace)
    (hitems : F items) (hnodes : ∀ u ∈ items.trees, u.IsNode) (hrest : items.rest = [])
    (hadmits : shape.kind.Admits (.leaf t :: items.trees)) :
    F ⟨[.node shape.kind (.leaf t :: items.trees)],
      faultOf t ++ items.issues ++ [⟨.unclosedBrace, .across t t⟩], items.last, []⟩
  closedBlock {shape : BlockShape} {t r : α} {rest : List α} {items : Outcome α}
    (ht : Lexical.kind t = .leftBrace) (hr : Lexical.kind r = .rightBrace) (hitems : F items)
    (hnodes : ∀ u ∈ items.trees, u.IsNode) (hrest : items.rest = r :: rest)
    (hadmits : shape.kind.Admits (.leaf t :: items.trees ++ [.leaf r])) :
    F ⟨[.node shape.kind (.leaf t :: items.trees ++ [.leaf r])],
      faultOf t ++ items.issues ++ faultOf r, r, rest⟩

theorem Outcome.Closed.idle {F : Outcome α → Prop} (hF : Outcome.Closed F) (last : α)
    (rest : List α) : F (.idle last rest) :=
  hF.reading (n := 0) (by simp)

/-! ## Spots -/

/-- What can hold where a rule begins or ends: of the stage that has been reached, and of the tokens
that are left. -/
abbrev Spot (α : Type) := Stage → List α → Prop

namespace Spot

/-- Only the stage is of interest. -/
def on (I : Stage → Prop) : Spot α := fun stage _ => I stage

/-- The next token is of the right kind, too. -/
def before (pre : Spot α) (p : TokenKind → Bool) : Spot α :=
  fun stage rest => pre stage rest ∧ ∃ t ts, rest = t :: ts ∧ p (Lexical.kind t) = true

/-- The next token, if there is one, is not of such a kind. -/
def notBefore (pre : Spot α) (p : TokenKind → Bool) : Spot α :=
  fun stage rest => pre stage rest ∧ ∀ t ∈ rest.head?, p (Lexical.kind t) = false

end Spot

/-! ## The triple -/

namespace Rule

variable (F : Outcome α → Prop) (room : Nat)

/-- What is built matches a pattern, and the run ends at a spot of this sort. -/
def Ends (a : Outcome α) (P : Pattern) (post : Spot α) : Prop :=
  F a ∧ a.trees.map Tree.symbol ∈ P.matches' ∧ ∃ stage : Stage, stage.Fits a.rest ∧ post stage a.rest

section Ends

variable {F room} {a : Outcome α} {P Q : Pattern} {mid post : Spot α}

/-- What is built comes behind what has been built before. -/
theorem Ends.join (hF : Outcome.Closed F) {b : Outcome α} (hrest : a.rest = b.read ++ b.rest)
    (ha : Ends F a P mid) (hb : Ends F b Q post) : Ends F (a.join b) (P * Q) post := by
  refine ⟨hF.join hrest ha.1 hb.1, ?_, hb.2.2⟩
  rw [Outcome.join, List.map_append]
  exact Language.append_mem_mul ha.2.1 hb.2.1

/-- Less may be said of what is built. -/
theorem Ends.mono (h : Ends F a P mid) (hP : P.matches' ≤ Q.matches')
    (hpost : ∀ {stage rest}, stage.Fits rest → mid stage rest → post stage rest) :
    Ends F a Q post := by
  obtain ⟨hfact, hmem, stage, hfits, hmid⟩ := h
  exact ⟨hfact, hP hmem, stage, hfits, hpost hfits hmid⟩

/-- What is built may be put into a node that its pattern admits. -/
theorem Ends.wrapped (hF : Outcome.Closed F) {kind : NodeKind} (h : Ends F a P post)
    (hkind : kind.isBlock = false)
    (hP : P.matches' ≤ (kind.pattern (Tree.keyword a.trees)).matches')
    (hmisfit : kind = .error → P.matches' ≤ Pattern.misfit.matches')
    (hsymbol : [(Tree.node kind a.trees).symbol] ∈ Q.matches') :
    Ends F (a.wrapped kind) Q post :=
  ⟨hF.wrapped hkind (hP h.2.1) (fun herror => hmisfit herror h.2.1) h.1, hsymbol, h.2.2⟩

end Ends

/-- From every spot of one sort, the rule goes to one of another sort, and what it builds matches a
pattern. -/
def Yields (pre : Spot α) (rule : Rule α) (P : Pattern) (post : Spot α) : Prop :=
  ∀ (last : α) (stage : Stage) (rest : List α), stage.Fits rest → pre stage rest →
    Ends F (rule.run room last rest) P post

/-- What a rule builds comes behind what has been built before. -/
theorem Ends.followedBy {F : Outcome α → Prop} (hF : Outcome.Closed F) {room : Nat}
    {a : Outcome α} {P Q : Pattern} {mid post : Spot α} {rule : Rule α} (ha : Ends F a P mid)
    (hb : Yields F room mid rule Q post) : Ends F (a.followedBy (rule.run room)) (P * Q) post := by
  obtain ⟨stage, hfits, hmid⟩ := ha.2.2
  exact ha.join hF (read_append_rest_run room rule _ _).symm (hb a.last stage a.rest hfits hmid)

namespace Yields

variable {F : Outcome α → Prop} {room : Nat} (hF : Outcome.Closed F)
variable {pre pre' mid post post' : Spot α} {first second rule yes no item : Rule α}
variable {P Q : Pattern} {p : TokenKind → Bool} {problem : Problem}

/-- Less may be known before, and less be said of what comes out. -/
theorem mono (h : Yields F room pre rule P post) (hP : P.matches' ≤ Q.matches')
    (hpre : ∀ {stage rest}, stage.Fits rest → pre' stage rest → pre stage rest)
    (hpost : ∀ {stage rest}, stage.Fits rest → post stage rest → post' stage rest) :
    Yields F room pre' rule Q post' := by
  exact fun last stage rest hfits hp => (h last stage rest hfits (hpre hfits hp)).mono hP hpost

theorem of_pre (h : Yields F room pre rule P post)
    (hpre : ∀ {stage rest}, stage.Fits rest → pre' stage rest → pre stage rest) :
    Yields F room pre' rule P post :=
  h.mono le_rfl hpre fun _ => id

theorem of_post (h : Yields F room pre rule P post)
    (hpost : ∀ {stage rest}, stage.Fits rest → post stage rest → post' stage rest) :
    Yields F room pre rule P post' :=
  h.mono le_rfl (fun _ => id) hpost

theorem of_le (h : Yields F room pre rule P post) (hP : P.matches' ≤ Q.matches') :
    Yields F room pre rule Q post :=
  h.mono hP (fun _ => id) fun _ => id

/-- **A choice by the next token.** -/
theorem ifNext (hy : Yields F room (pre.before p) yes P post)
    (hn : Yields F room (pre.notBefore p) no Q post) :
    Yields F room pre (Rule.ifNext p yes no) (P + Q) post := by
  intro last stage rest hfits hpre
  cases rest with
  | nil =>
    rw [run_ifNext_nil]
    obtain ⟨hfact, hmem, hend⟩ := hn last stage [] hfits ⟨hpre, by simp⟩
    exact ⟨hfact, .inr hmem, hend⟩
  | cons t ts =>
    rw [run_ifNext_cons]
    by_cases hp : p (Lexical.kind t) = true
    · rw [if_pos hp]
      obtain ⟨hfact, hmem, hend⟩ := hy last stage (t :: ts) hfits ⟨hpre, t, ts, rfl, hp⟩
      exact ⟨hfact, .inl hmem, hend⟩
    · rw [if_neg hp]
      obtain ⟨hfact, hmem, hend⟩ := hn last stage (t :: ts) hfits ⟨hpre, by simpa using hp⟩
      exact ⟨hfact, .inr hmem, hend⟩

/-- Which token comes next may be known. -/
theorem of_head (h : Yields F room (pre.before p) rule P post) {t : α}
    (ht : p (Lexical.kind t) = true) :
    Yields F room (fun stage rest => pre stage rest ∧ rest.head? = some t) rule P post := by
  refine h.of_pre ?_
  rintro stage rest - ⟨hpre, hhead⟩
  obtain ⟨ts, rfl⟩ := List.head?_eq_some_iff.1 hhead
  exact ⟨hpre, t, ts, rfl, ht⟩

/-- A rule that depends on the next token, where there is one. -/
theorem withNext {rule : α → Rule α}
    (h : ∀ t, p (Lexical.kind t) = true →
      Yields F room (fun stage rest => pre stage rest ∧ rest.head? = some t) (rule t) P post) :
    Yields F room (pre.before p) (.withNext rule) P post := by
  rintro last stage _ hfits ⟨hpre, t, ts, rfl, hp⟩
  exact h t hp last stage (t :: ts) hfits ⟨hpre, rfl⟩

include hF

theorem done : Yields F room pre .done 1 pre :=
  fun last stage rest hfits hpre => ⟨hF.idle last rest, rfl, stage, hfits, hpre⟩

theorem complain (hp : problem.isBrace = false) : Yields F room pre (.complain problem) 1 pre :=
  fun _ stage _ hfits hpre => ⟨hF.issue hp, rfl, stage, hfits, hpre⟩

theorem lacking {what : Missing} : Yields F room pre (.lacking what) 1 pre := complain hF rfl

theorem complainSince {t : α} (hp : problem.isBrace = false) :
    Yields F room pre (.complainSince t problem) 1 pre :=
  fun _ stage _ hfits hpre => ⟨hF.issue hp, rfl, stage, hfits, hpre⟩

theorem complainAt {t : α} (hp : problem.isBrace = false) :
    Yields F room pre (.complainAt t problem) 1 pre :=
  fun _ stage _ hfits hpre => ⟨hF.issue hp, rfl, stage, hfits, hpre⟩

/-- **One rule after the other.** -/
theorem andThen (ha : Yields F room pre first P mid) (hb : Yields F room mid second Q post) :
    Yields F room pre (first ++ second) (P * Q) post :=
  fun last stage rest hfits hpre => (ha last stage rest hfits hpre).followedBy hF hb

/-- Where a token is read, the lexer tells the stage behind it. -/
theorem advance {I : Stage → Prop} (hbraces : p .leftBrace = false ∧ p .rightBrace = false)
    (hstep : ∀ {stage stage' : Stage} {t ts}, pre stage (t :: ts) → p (Lexical.kind t) = true →
      stage.next (Lexical.kind t) = some stage' → I stage') :
    Yields F room (pre.before p) .advance (.tokens p) (Spot.on I) := by
  rintro last stage _ hfits ⟨hpre, t, ts, rfl, hp⟩
  have hkind := hfits.kind_ne_endOfFile
  obtain ⟨-, stage', hnext, hmore⟩ := hfits
  refine ⟨hF.reading fun u hu => ?_, Pattern.mem_tokens hp hkind, stage', hmore,
    hstep hpre hp hnext⟩
  obtain rfl : u = t := by simpa using hu
  constructor
  · intro h; rw [h, hbraces.1] at hp; cases hp
  · intro h; rw [h, hbraces.2] at hp; cases hp

/-- What a rule builds as one node, where the pattern and what is seen of the node depend on what it
begins with. -/
theorem wrapped {kind : NodeKind} (hkind : kind.isBlock = false)
    (hP : ∀ {last stage rest}, pre stage rest →
      P.matches' ≤ (kind.pattern (Tree.keyword (rule.run room last rest).trees)).matches')
    (hmisfit : kind = .error → P.matches' ≤ Pattern.misfit.matches')
    (hsymbol : ∀ ts : List (Tree α), [(Tree.node kind ts).symbol] ∈ Q.matches')
    (h : Yields F room pre rule P post) :
    Yields F room pre (.wrap kind rule) Q post :=
  fun last stage rest hfits hpre =>
    (h last stage rest hfits hpre).wrapped hF hkind (hP hpre) hmisfit (hsymbol _)

/-- What a rule builds as one node. -/
theorem wrap {kind : NodeKind} (hkind : kind.isBlock = false) (herror : kind ≠ .error)
    (hproxy : kind ≠ .geoProxy) (hP : P.matches' ≤ (kind.pattern "").matches')
    (h : Yields F room pre rule P post) :
    Yields F room pre (.wrap kind rule) (.oneOf [.node kind]) post := by
  have hpattern : ∀ keyword, kind.pattern keyword = kind.pattern "" := by
    intro keyword
    cases kind <;> first | rfl | exact absurd rfl hproxy
  exact wrapped hF hkind (fun _ => hpattern _ ▸ hP) (fun h => absurd h herror)
    (fun ts => Tree.symbol_node herror ts) h

/-- What a rule builds as an error node. -/
theorem wrapError (hP : P.matches' ≤ Pattern.misfit.matches') (h : Yields F room pre rule P post) :
    Yields F room pre (.wrap .error rule) (.oneOf Symbol.errors) post :=
  wrapped hF rfl (fun _ => hP.trans Pattern.misfit_le_error) (fun _ => hP) Tree.symbol_error h

/-- A report across what a rule reads changes nothing of what it builds. -/
theorem complainAcross (hp : problem.isBrace = false) (h : Yields F room (pre.before p) rule P post) :
    Yields F room (pre.before p) (Rule.complainAcross problem rule) P post := by
  refine withNext fun t ht => (andThen hF (h.of_head ht) (complainSince hF hp)).of_le ?_
  rw [matches'_mul, matches'_epsilon, mul_one]

/-- A turn of a loop, and what is known of the turns after it. -/
theorem many_step (hsound : ∀ t, p (Lexical.kind t) = true → SoundAt room [] t item)
    (h : Yields F room (pre.before p) item P pre) (last : α) {t : α} {ts : List α} {stage : Stage}
    (hp : p (Lexical.kind t) = true) (hfits : stage.Fits (t :: ts)) (hpre : pre stage (t :: ts))
    (hmore : ∀ (last : α) (stage : Stage) (rest : List α), rest.length < (t :: ts).length →
      stage.Fits rest → pre stage rest →
      Ends F ((Rule.many p item).run room last rest) (Pattern.repeated P) (pre.notBefore p)) :
    Ends F ((Rule.many p item).run room last (t :: ts)) (P * Pattern.repeated P) (pre.notBefore p) := by
  obtain ⟨hruns, hread, -⟩ := hsound t hp [] last ts (List.nil_subset _)
  have hlt := hruns.length_rest_lt hread
  have hturn := h last stage _ hfits ⟨hpre, t, ts, rfl, hp⟩
  obtain ⟨stage', hfits', hpre'⟩ := hturn.2.2
  rw [run_many_step hp hlt]
  exact hturn.join hF (read_append_rest_run room _ _ _).symm
    (hmore (item.run room last (t :: ts)).last stage' _ hlt hfits' hpre')

/-- **A loop**, each turn of which reads something. -/
theorem many (hsound : ∀ t, p (Lexical.kind t) = true → SoundAt room [] t item)
    (h : Yields F room (pre.before p) item P pre) :
    Yields F room pre (.many p item) (Pattern.repeated P) (pre.notBefore p) := by
  intro last stage rest hfits hpre
  induction hn : rest.length using Nat.strongRecOn generalizing last stage rest with
  | _ n ih =>
    by_cases hnext : ∀ t ∈ rest.head?, p (Lexical.kind t) = false
    · rw [run_many_stop hnext]
      exact ⟨hF.idle last rest, Language.nil_mem_kstar _, stage, hfits, hpre, hnext⟩
    · obtain ⟨t, ts, rfl, hp⟩ : ∃ t ts, rest = t :: ts ∧ p (Lexical.kind t) = true := by
        cases rest with
        | nil => simp at hnext
        | cons t ts => exact ⟨t, ts, rfl, by simpa using hnext⟩
      have hturn := many_step hF hsound h last hp hfits hpre
        fun last stage rest hlt hfits hpre => ih _ (hn ▸ hlt) last stage rest hfits hpre rfl
      have hstar : (P * Pattern.repeated P).matches' ≤ (Pattern.repeated P).matches' :=
        mul_kstar_le_kstar
      exact ⟨hturn.1, hstar hturn.2.1, hturn.2.2⟩

/-- A loop that is begun. -/
theorem many_pos (hsound : ∀ t, p (Lexical.kind t) = true → SoundAt room [] t item)
    (h : Yields F room (pre.before p) item P pre) :
    Yields F room (pre.before p) (.many p item) (P * Pattern.repeated P) (pre.notBefore p) := by
  rintro last stage _ hfits ⟨hpre, t, ts, rfl, hp⟩
  exact many_step hF hsound h last hp hfits hpre
    fun last stage rest _ hfits hpre => many hF hsound h last stage rest hfits hpre

end Yields

end Rule

end NginxConf
