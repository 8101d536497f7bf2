import Mathlib.Data.List.Chain
import NginxConf.Proofs.Grammar.NestedPatterns
import NginxConf.Proofs.Tree.Subnodes

/-!
# Scripts that the text ends

In a node of a script, a `{` can have a malformed token behind it, the script that the text ends
(`Outcome.cutOff_file`). That the token is no string without its closing quote is a fact about the
lexer, which has gone on from the keyword to the `{` by the time the grammar gets there.
-/

namespace NginxConf

variable {α : Type} [Lexical α]

/-- If a malformed token comes after a `{`, then it is a script that the text ends. -/
def CutsOff (l u : α) : Prop :=
  Lexical.kind l = .leftBrace → Lexical.kind u = .malformed →
    Lexical.fault u = some .unterminatedLua

namespace Outcome

/-- Malformed tokens in the nodes of scripts are scripts that the text ends. -/
structure CutOff (a : Outcome α) : Prop where
  row : (Tree.row a.trees).IsChain CutsOff
  /-- What comes next is in a row with no `{`. -/
  last : ∀ l ∈ (Tree.row a.trees).getLast?, Lexical.kind l ≠ .leftBrace
  nodes : ∀ n ∈ Tree.forestSubnodes a.trees, n.kind.isLua = true → n.row.IsChain CutsOff

theorem CutOff.join {a b : Outcome α} (ha : a.CutOff) (hb : b.CutOff) : (a.join b).CutOff where
  row := by
    rw [Outcome.join, Tree.row_append]
    exact ha.row.append hb.row fun l hl u _ h => absurd h (ha.last l hl)
  last := by
    intro l hl
    rw [Outcome.join, Tree.row_append, List.getLast?_append] at hl
    cases h : (Tree.row b.trees).getLast? with
    | none => exact ha.last l (by rwa [h] at hl)
    | some u => exact hb.last l (by rw [h] at hl ⊢; exact hl)
  nodes := by
    rw [Outcome.join, Tree.forestSubnodes_append]
    exact fun n hn => (List.mem_append.1 hn).elim (ha.nodes n) (hb.nodes n)

theorem CutOff.node {kind : NodeKind} {children : List (Tree α)} {issues : List (Issue α)} {last : α}
    {rest : List α} (hlua : kind.isLua = true → (Tree.row children).IsChain CutsOff)
    (hnodes : ∀ n ∈ Tree.forestSubnodes children, n.kind.isLua = true → n.row.IsChain CutsOff) :
    CutOff ⟨[.node kind children], issues, last, rest⟩ := by
  refine ⟨.nil, by rintro l ⟨⟩, ?_⟩
  rw [Tree.forestSubnodes_node]
  exact List.forall_mem_cons.2 ⟨hlua, hnodes⟩

theorem CutOff.reading {n : Nat} {last : α} {rest : List α} (hrow : (rest.take n).IsChain CutsOff)
    (hlast : ∀ l ∈ (rest.take n).getLast?, Lexical.kind l ≠ .leftBrace) :
    CutOff (.reading n last rest) := by
  refine ⟨?_, ?_, ?_⟩
  · rwa [Outcome.reading, Tree.row_leaves]
  · rwa [Outcome.reading, Tree.row_leaves]
  · rw [Outcome.reading, Tree.forestSubnodes_leaves]
    rintro n ⟨⟩

theorem closed_cutOff : Closed (CutOff (α := α)) where
  issue _ := ⟨.nil, by rintro l ⟨⟩, by rintro n ⟨⟩⟩
  reading h := by
    refine .reading (List.Pairwise.isChain ?_) fun l hl => (h l (List.mem_of_getLast? hl)).1
    exact List.pairwise_of_forall_mem_list fun l hl u _ hkind => absurd hkind (h l hl).1
  script {n _ rest} hscript _ := by
    refine .reading ?_ ?_ <;> generalize rest.take n = row at hscript
    · cases hscript with
      | code hl hu hr => simp [CutsOff, hu, hr]
      | empty hl hr => simp [CutsOff, hr]
      | cutOff hl hu hfault => simp [CutsOff, hfault]
    · cases hscript with
      | code hl hu hr => simp [hr]
      | empty hl hr => simp [hr]
      | cutOff hl hu hfault => simp [hu]
  deep {_ t ts} _ _ := by
    refine .node (by rintro ⟨⟩) ?_
    show ∀ n ∈ Tree.forestSubnodes (((t :: ts).take (groupLength 0 (t :: ts))).map Tree.leaf), _
    rw [Tree.forestSubnodes_leaves]
    rintro n ⟨⟩
  join _ := CutOff.join
  wrapped _ _ _ h := .node (fun _ => h.row) h.nodes
  openBlock {shape t items} _ hitems _ _ _ :=
    .node (by cases shape <;> rintro ⟨⟩) hitems.nodes
  closedBlock {shape t r rest items} _ _ hitems _ _ _ := by
    refine .node (by cases shape <;> rintro ⟨⟩) ?_
    rw [Tree.forestSubnodes_append]
    simpa [Tree.forestSubnodes, Tree.subnodes] using hitems.nodes

theorem cutOff_strayBrace (r : α) (rest : List α) : (strayBrace r rest).CutOff :=
  .node (by rintro ⟨⟩) (by rintro n ⟨⟩)

/-- **In the scripts of a file** a malformed token after a `{` is a script that the text ends. -/
theorem cutOff_file {stage : Stage} {tokens : List α} (last : α) (hfits : stage.Fits tokens)
    (hcalm : Spot.calm stage tokens) : (Rule.file.run maxDepth last tokens).CutOff :=
  (Rule.file_ends closed_cutOff (fun _ => ⟨.nil, by rintro l ⟨⟩, by rintro n ⟨⟩⟩)
    (fun _ ha hb => ha.join hb) (fun _ _ hb => (cutOff_strayBrace _ _).join hb) last hfits hcalm).1

end Outcome

end NginxConf
