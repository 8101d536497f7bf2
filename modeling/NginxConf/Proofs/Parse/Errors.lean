import NginxConf.Proofs.Grammar.Relabel
import NginxConf.Proofs.Grammar.Statements
import NginxConf.Proofs.Parse.Lossless

/-!
# Texts without errors

A text parses without errors exactly if its tokens are in the language (`not_hasErrors_iff`).

The rules are known to accept the language over tokens that are faulty exactly if they are
malformed. The tokens of a text are of this sort, so they are moved to the type of such tokens and
back; neither the rules nor the language see a difference.
-/

namespace NginxConf

/-! ## The language sees kinds and texts -/

namespace Phrase

variable {α β : Type} [Lexical α] [Lexical β] {room : Nat} {w : List α}

/-- The two tokens are the same to the language. -/
def Same (f : α → β) (t : α) : Prop :=
  Lexical.kind (f t) = Lexical.kind t ∧ Lexical.text (f t) = Lexical.text t

theorem IsValue.map {f : α → β} {t : α} (h : IsValue t) (hf : Same f t) : IsValue (f t) := by
  rw [IsValue, hf.1]
  exact h

theorem IsCondition.map {f : α → β} (h : IsCondition w) (hf : ∀ t ∈ w, Same f t) :
    IsCondition (w.map f) := by
  cases h with
  | value hv => exact .value (hv.map (hf _ (by simp)))
  | comparison hv ho hw =>
    exact .comparison (hv.map (hf _ (by simp))) ((hf _ (by simp)).1.trans ho)
      (hw.map (hf _ (by simp)))
  | test ho hv => exact .test ((hf _ (by simp)).1.trans ho) (hv.map (hf _ (by simp)))

theorem IsItem.map {f : α → β} (h : IsItem w) (hf : ∀ t ∈ w, Same f t) : IsItem (w.map f) := by
  cases h with
  | @entry entry stop he hs =>
    rw [List.map_append]
    refine .entry ?_ ((hf stop (by simp)).1.trans hs)
    have hf' : ∀ t ∈ entry, Same f t := fun t ht => hf t (List.mem_append_left _ ht)
    cases he with
    | inclusion hk hv => exact .inclusion ((hf' _ (by simp)).1.trans hk) (hv.map (hf' _ (by simp)))
    | operand hk ht hv =>
      have hkeyword := hf' _ List.mem_cons_self
      exact .operand (hkeyword.1.trans hk) (hkeyword.2 ▸ ht) (hv.map (hf' _ (by simp)))
    | flag hk ht =>
      have hkeyword := hf' _ List.mem_cons_self
      exact .flag (hkeyword.1.trans hk) (hkeyword.2 ▸ ht)
    | pair hn ht hv =>
      have hnetwork := hf' _ List.mem_cons_self
      refine .pair (hn.map hnetwork) (fun hk => ?_) (hv.map (hf' _ (by simp)))
      rw [hnetwork.2]
      exact ht (hnetwork.1.symm.trans hk)

theorem IsScript.map {f : α → β} (h : IsScript w) (hf : ∀ t ∈ w, Same f t) :
    IsScript (w.map f) := by
  cases h with
  | @braces opening closing code hl hc hr =>
    rw [List.map_cons, List.map_append, ← Option.toList_map]
    refine .braces ((hf _ (by simp)).1.trans hl) (fun c hc' => ?_) ((hf closing (by simp)).1.trans hr)
    obtain ⟨c, hmem, rfl⟩ := Option.map_eq_some_iff.1 hc'
    exact (hf c (by simp [Option.mem_def.1 hmem])).1.trans (hc c hmem)

/-- A statement stays one, if its blocks do. -/
theorem IsStatement.map_of_blocks {f : α → β}
    (hblock : ∀ shape w, IsBlockOf shape room w → (∀ t ∈ w, Same f t) →
      IsBlockOf shape room (w.map f))
    (h : IsStatement room w) (hf : ∀ t ∈ w, Same f t) : IsStatement room (w.map f) := by
  have hoption : ∀ {x : Option α}, (∀ u ∈ x, IsValue u) → (∀ u ∈ x, Same f u) →
      ∀ u ∈ x.map f, IsValue u := by
    intro x hx hsame u hu
    obtain ⟨t, ht, rfl⟩ := Option.map_eq_some_iff.1 hu
    exact (hx t ht).map (hsame t ht)
  cases h with
  | @directive _ name args stop hn ha hs =>
    rw [List.map_cons, List.map_append]
    refine .directive (hn.map (hf _ (by simp))) (fun t ht => ?_) ((hf stop (by simp)).1.trans hs)
    obtain ⟨t, hmem, rfl⟩ := List.mem_map.1 ht
    exact (ha t hmem).map (hf t (by simp [hmem]))
  | @directiveBlock _ name args body hn ha hb =>
    rw [List.map_cons, List.map_append]
    refine .directiveBlock (hn.map (hf _ (by simp))) (fun t ht => ?_)
      (hblock .plain body hb fun t ht => hf t (by simp [ht]))
    obtain ⟨t, hmem, rfl⟩ := List.mem_map.1 ht
    exact (ha t hmem).map (hf t (by simp [hmem]))
  | @ifBlock _ keyword opening closing body conditions hk ho hne hc hcl hb =>
    simp only [List.map_cons, List.map_append, List.map_flatten]
    refine .ifBlock ((hf _ (by simp)).1.trans hk) ((hf opening (by simp)).1.trans ho) (by simpa)
      (fun c hc' => ?_) ((hf closing (by simp)).1.trans hcl)
      (hblock .plain body hb fun t ht => hf t (by simp [ht]))
    obtain ⟨c, hmem, rfl⟩ := List.mem_map.1 hc'
    refine (hc c hmem).map fun t ht => hf t ?_
    have : t ∈ conditions.flatten := List.mem_flatten.2 ⟨c, hmem, ht⟩
    simp [this]
  | setVariable hk hn hv hs =>
    refine .setVariable ((hf _ (by simp)).1.trans hk) ?_ (hv.map (hf _ (by simp)))
      ((hf _ (by simp)).1.trans hs)
    rw [(hf _ (by simp)).1]
    exact hn
  | inclusion hk hp hs =>
    exact .inclusion ((hf _ (by simp)).1.trans hk) (hp.map (hf _ (by simp)))
      ((hf _ (by simp)).1.trans hs)
  | @geo _ keyword v body x hk hv hx hb =>
    simp only [List.map_cons, List.map_append, ← Option.toList_map]
    exact .geo ((hf _ (by simp)).1.trans hk) (hv.map (hf v (by simp)))
      (hoption hx fun u hu => hf u (by simp [Option.mem_def.1 hu]))
      (hblock .geo body hb fun t ht => hf t (by simp [ht]))
  | @lua _ keyword body x hk hx ht hb =>
    simp only [List.map_cons, List.map_append, ← Option.toList_map]
    refine .lua ((hf _ (by simp)).1.trans hk)
      (hoption hx fun u hu => hf u (by simp [Option.mem_def.1 hu])) ?_
      (hb.map fun t ht => hf t (by simp [ht]))
    rw [Option.isSome_map, (hf keyword (by simp)).2]
    exact ht

theorem IsBlockOf.map {f : α → β} {shape : BlockShape} (h : IsBlockOf shape room w)
    (hf : ∀ t ∈ w, Same f t) : IsBlockOf shape room (w.map f) := by
  induction room generalizing shape w with
  | zero => exact absurd h not_isBlockOf_zero
  | succ room ih =>
    obtain ⟨opening, items, closing, rfl, hl, hi, hr⟩ := isBlockOf_succ.1 h
    refine isBlockOf_succ.2 ⟨f opening, items.map (List.map f), f closing, by simp,
      (hf _ (by simp)).1.trans hl, fun i hi' => ?_, (hf closing (by simp)).1.trans hr⟩
    obtain ⟨i, hmem, rfl⟩ := List.mem_map.1 hi'
    have hf' : ∀ t ∈ i, Same f t := by
      intro t ht
      have : t ∈ items.flatten := List.mem_flatten.2 ⟨i, hmem, ht⟩
      exact hf t (by simp [this])
    cases shape with
    | plain => exact IsStatement.map_of_blocks (fun _ _ => ih) (hi i hmem) hf'
    | geo => exact IsItem.map (hi i hmem) hf'

/-- **Whether tokens are in the language depends on their kinds and texts alone.** -/
theorem IsFile.map {f : α → β} (h : IsFile room w) (hf : ∀ t ∈ w, Same f t) :
    IsFile room (w.map f) := by
  obtain ⟨statements, rfl, hs⟩ := h
  refine ⟨statements.map (List.map f), by simp, fun s hs' => ?_⟩
  obtain ⟨s, hmem, rfl⟩ := List.mem_map.1 hs'
  exact IsStatement.map_of_blocks (fun _ _ => IsBlockOf.map) (hs s hmem)
    fun t ht => hf t (List.mem_flatten.2 ⟨s, hmem, ht⟩)

end Phrase

/-! ## Tokens of texts -/

/-- A token of the sort that a text has. -/
abbrev ShapedToken := { p : PlacedToken // p.Shaped }

namespace ShapedToken

instance : Lexical ShapedToken where
  kind t := Lexical.kind t.val
  text t := Lexical.text t.val
  fault t := Lexical.fault t.val

instance : LawfulLexical ShapedToken where
  isSome_fault t := t.property.isFaulty_iff

instance : Inhabited ShapedToken where
  default := ⟨⟨⟨[], .semicolon, [';'], []⟩, 0, none⟩, by constructor <;> simp⟩

theorem relabelling_val : Relabelling (Subtype.val : ShapedToken → PlacedToken) :=
  ⟨fun _ => rfl, fun _ => rfl, fun _ => rfl⟩

open Classical in
/-- A token as one of the sort that a text has, if it is. -/
noncomputable def ofToken (p : PlacedToken) : ShapedToken :=
  if h : p.Shaped then ⟨p, h⟩ else default

theorem val_ofToken {p : PlacedToken} (h : p.Shaped) : (ofToken p).val = p := by
  rw [ofToken, dif_pos h]

end ShapedToken

/-- No report is an error exactly if every issue is harmless. -/
theorem not_hasErrors_iff_clean (s : Text) :
    (parse s).hasErrors = false ↔ (fileOutcome s).Clean := by
  rw [Parse.hasErrors, parse_diagnostics, (Diagnostic.sort_perm _).any_eq, List.any_eq_false,
    List.forall_mem_map]
  unfold Outcome.Clean
  constructor
  · intro h i hi
    have hno := h i hi
    cases hw : i.problem.isWarning <;> simp_all [Diagnostic.isError, Issue.diagnostic]
  · intro h i hi
    simp [Diagnostic.isError, Issue.diagnostic, h i hi]

/-- **A text parses without errors exactly if its tokens are in the language, with blocks nested
no deeper than they may be.** -/
theorem not_hasErrors_iff (s : Text) :
    (parse s).hasErrors = false ↔ Phrase.IsFile maxDepth (tokenize s).tokens := by
  have hshaped : ∀ p ∈ (tokenize s).tokens, p.Shaped := fun p hp => tokenize_shaped hp
  have hval : ((tokenize s).tokens.map ShapedToken.ofToken).map Subtype.val
      = (tokenize s).tokens := by
    rw [List.map_map]
    exact (List.map_congr_left fun p hp => ShapedToken.val_ofToken (hshaped p hp)).trans
      (List.map_id _)
  have hrun := run_relabel ShapedToken.relabelling_val (.file ShapedToken.relabelling_val) maxDepth
    default ((tokenize s).tokens.map ShapedToken.ofToken)
  rw [hval] at hrun
  have hclean : (fileOutcome s).Clean ↔ Rule.Accepts maxDepth Rule.file
      ((tokenize s).tokens.map ShapedToken.ofToken) [] := by
    rw [fileOutcome, (run_alike maxDepth Rule.file _ (default : ShapedToken).val _).clean_iff, hrun,
      Rule.accepts_iff default]
    simp [Outcome.Clean, Outcome.map, Issue.map, Rule.rest_file]
  rw [not_hasErrors_iff_clean, hclean, Rule.accepts_file]
  constructor
  · intro h
    have := h.map (f := Subtype.val) fun t _ => ⟨rfl, rfl⟩
    rwa [hval] at this
  · intro h
    refine h.map fun p hp => ?_
    have hsame := ShapedToken.val_ofToken (hshaped p hp)
    exact ⟨congrArg Lexical.kind hsame, congrArg Lexical.text hsame⟩

end NginxConf
