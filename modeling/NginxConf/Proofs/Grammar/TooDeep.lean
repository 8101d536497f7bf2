import NginxConf.Proofs.Grammar.NestedPatterns
import NginxConf.Proofs.Tree.Subnodes

/-!
# Blocks that are nested too deep are reported

Only one rule builds an error node out of the raw tokens of a block, and it says so: whatever else
becomes an error node does not begin with a `{` of its own (`Pattern.head?_misfit`). So where nothing
is reported to be nested too deep, no node has raw tokens (`Outcome.deepReported_file`).
-/

namespace NginxConf

open RegularExpression

/-- What cannot be made sense of does not begin with a `{` of its own. -/
theorem Pattern.head?_misfit {w : List Symbol} (h : w ∈ misfit.matches') :
    w.head? ≠ some (.token .leftBrace) := by
  have hfirst {ss : List Symbol} {P : Pattern} (hss : ∀ s ∈ ss, s ≠ .token .leftBrace)
      (hw : w ∈ (oneOf ss * P).matches') : w.head? ≠ some (.token .leftBrace) := by
    obtain ⟨u, hu, v, -, rfl⟩ := Language.mem_mul.1 hw
    obtain ⟨s, hs, rfl⟩ := mem_oneOf.1 hu
    intro hhead
    exact hss s hs (Option.some.inj hhead)
  rcases h with (h | h) | h
  · obtain ⟨s, hs, rfl⟩ := mem_oneOf.1 h
    intro hhead
    have hne : ∀ s ∈ [.token .semicolon, .token .rightBrace, .token .malformed, .token .luaCode,
        .node .block] ++ Symbol.statements ++ Symbol.errors, s ≠ .token .leftBrace := by decide
    exact hne s hs (Option.some.inj hhead)
  · exact hfirst (by decide) h
  · exact hfirst (by decide) h

variable {α : Type} [Lexical α]

/-- A block that is nested too deep, as an error node of raw tokens. -/
def Node.isDeep (n : Node α) : Bool := n.kind == .error && Tree.areRaw n.children

/-- A block that is nested too deep does not go without a report. -/
def Tree.DeepReported (ts : List (Tree α)) (issues : List (Issue α)) : Prop :=
  ∀ n ∈ forestSubnodes ts, n.isDeep = true → ∃ i ∈ issues, i.problem = .tooDeep

namespace Tree.DeepReported

variable {ss ts : List (Tree α)} {issues issues' : List (Issue α)}

theorem leaves (us : List α) (issues : List (Issue α)) : DeepReported (us.map leaf) issues := by
  unfold DeepReported
  rw [forestSubnodes_leaves]
  rintro n ⟨⟩

theorem mono (h : DeepReported ts issues) (hissues : issues ⊆ issues') :
    DeepReported ts issues' := by
  intro n hn hdeep
  obtain ⟨i, hi, hproblem⟩ := h n hn hdeep
  exact ⟨i, hissues hi, hproblem⟩

theorem append (hs : DeepReported ss issues) (ht : DeepReported ts issues) :
    DeepReported (ss ++ ts) issues := by
  intro n hn
  rw [forestSubnodes_append] at hn
  exact (List.mem_append.1 hn).elim (hs n) (ht n)

/-- A node around trees that is not itself nested too deep. -/
theorem node {kind : NodeKind} (h : DeepReported ts issues)
    (hraw : kind = .error → areRaw ts = false) : DeepReported [.node kind ts] issues := by
  intro n hn hdeep
  rw [forestSubnodes_node] at hn
  rcases List.mem_cons.1 hn with rfl | hn
  · obtain ⟨hkind, hdeep⟩ := Bool.and_eq_true_iff.1 hdeep
    rw [hraw (beq_iff_eq.1 hkind)] at hdeep
    cases hdeep
  · exact h n hn hdeep

end Tree.DeepReported

namespace Outcome

/-- **Whatever is built, blocks that are nested too deep are reported.** -/
theorem closed_deepReported :
    Closed fun a : Outcome α => Tree.DeepReported a.trees a.issues where
  issue _ := .leaves [] _
  reading _ := .leaves _ _
  script _ _ := .leaves _ _
  deep _ _ := fun _ _ _ => ⟨_, List.mem_cons_self, rfl⟩
  join _ ha hb :=
    (ha.mono (List.subset_append_left _ _)).append (hb.mono (List.subset_append_right _ _))
  wrapped {_ a} _ _ hmisfit ha := by
    refine ha.node fun herror => ?_
    cases hraw : Tree.areRaw a.trees with
    | false => rfl
    | true =>
      obtain ⟨rest, hrest⟩ := Tree.symbols_of_areRaw hraw
      exact absurd (by rw [hrest]; rfl) (Pattern.head?_misfit (hmisfit herror))
  openBlock {shape t items} _ hitems _ _ _ := by
    have hissues : items.issues ⊆ faultOf t ++ items.issues ++ [⟨.unclosedBrace, .across t t⟩] :=
      fun i hi => List.mem_append_left _ (List.mem_append_right _ hi)
    have hchildren := (Tree.DeepReported.leaves [t] _).append (hitems.mono hissues)
    exact hchildren.node (by cases shape <;> rintro ⟨⟩)
  closedBlock {shape t r rest items} _ _ hitems _ _ _ := by
    have hissues : items.issues ⊆ faultOf t ++ items.issues ++ faultOf r :=
      fun i hi => List.mem_append_left _ (List.mem_append_right _ hi)
    have hchildren := ((Tree.DeepReported.leaves [t] _).append (hitems.mono hissues)).append
      (Tree.DeepReported.leaves [r] _)
    exact hchildren.node (by cases shape <;> rintro ⟨⟩)

/-- A `}` that closes nothing is not nested too deep. -/
theorem deepReported_strayBrace {r : α} (hr : Lexical.kind r = .rightBrace) (rest : List α) :
    Tree.DeepReported (strayBrace r rest).trees (strayBrace r rest).issues :=
  (Tree.DeepReported.leaves [r] _).node fun _ => by
    rw [List.map_singleton, Tree.areRaw, hr]
    rfl

/-- **In a file, blocks that are nested too deep are reported.** -/
theorem deepReported_file {stage : Stage} {tokens : List α} (last : α) (hfits : stage.Fits tokens)
    (hcalm : Spot.calm stage tokens) : Tree.DeepReported (Rule.file.run maxDepth last tokens).trees
      (Rule.file.run maxDepth last tokens).issues := by
  have hjoin {a b : Outcome α} (ha : Tree.DeepReported a.trees a.issues)
      (hb : Tree.DeepReported b.trees b.issues) :
      Tree.DeepReported (a.join b).trees (a.join b).issues :=
    (ha.mono (List.subset_append_left _ _)).append (hb.mono (List.subset_append_right _ _))
  refine (Rule.file_ends closed_deepReported
    (G := fun a => Tree.DeepReported a.trees a.issues) (fun _ => .leaves [] _)
    (fun _ => hjoin) (fun hr _ => hjoin (deepReported_strayBrace hr _)) last hfits hcalm).1

end Outcome

end NginxConf
