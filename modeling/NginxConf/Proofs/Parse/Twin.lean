import NginxConf.Proofs.Parse.Errors
import NginxConf.Proofs.SyntaxTree.Alike

/-!
# Texts with the same tokens

Texts whose tokens look the same are parsed the same: their trees are the same tree over pairs of
tokens (`exists_twinOutcome`), and neither has errors unless the other one has.
-/

namespace NginxConf

/-- What the grammar sees of a token. -/
def PlacedToken.look (p : PlacedToken) : TokenKind × Text × Option LexFault :=
  (p.token.kind, p.token.text, p.fault)

/-- Two tokens that look the same. -/
abbrev Twins := { pair : PlacedToken × PlacedToken // pair.2.look = pair.1.look }

namespace Twins

/-- The first of the two. -/
def left (t : Twins) : PlacedToken := t.val.1

/-- The second of the two. -/
def right (t : Twins) : PlacedToken := t.val.2

instance : Lexical Twins where
  kind t := t.left.token.kind
  text t := t.left.token.text
  fault t := t.left.fault

theorem kind_right (t : Twins) : t.right.token.kind = t.left.token.kind :=
  congrArg Prod.fst t.property

theorem text_right (t : Twins) : t.right.token.text = t.left.token.text :=
  congrArg (·.2.1) t.property

theorem relabelling_left : Relabelling left := ⟨fun _ => rfl, fun _ => rfl, fun _ => rfl⟩

theorem relabelling_right : Relabelling right :=
  ⟨kind_right, text_right, fun t => congrArg (·.2.2) t.property⟩

/-- Tokens that look the same one by one are pairs. -/
theorem exists_of_look {ps qs : List PlacedToken}
    (h : qs.map PlacedToken.look = ps.map PlacedToken.look) :
    ∃ ts : List Twins, ps = ts.map left ∧ qs = ts.map right := by
  induction ps generalizing qs with
  | nil => exact ⟨[], rfl, List.map_eq_nil_iff.1 h⟩
  | cons p ps ih =>
    obtain ⟨q, qs, rfl, hq, hqs⟩ := List.map_eq_cons_iff.1 h
    obtain ⟨ts, rfl, rfl⟩ := ih hqs
    exact ⟨⟨(p, q), hq⟩ :: ts, rfl, rfl⟩

end Twins

/-- What the rule for a file returns for pairs of tokens. -/
def twinOutcome (ts : List Twins) : Outcome Twins :=
  Rule.file.run maxDepth ⟨(.origin, .origin), rfl⟩ ts

section Look

variable {s s' : Text}
  (h : (tokenize s').tokens.map PlacedToken.look = (tokenize s).tokens.map PlacedToken.look)

include h

/-- **Texts whose tokens look the same are parsed as one**, over pairs of tokens. -/
theorem exists_twins : ∃ ts : List Twins,
    (tokenize s).tokens = ts.map Twins.left ∧ (tokenize s').tokens = ts.map Twins.right ∧
      fileOutcome s = (twinOutcome ts).map Twins.left ∧
      fileOutcome s' = (twinOutcome ts).map Twins.right := by
  obtain ⟨ts, hts, hts'⟩ := Twins.exists_of_look h
  have hleft := run_relabel Twins.relabelling_left (.file Twins.relabelling_left) maxDepth
    ⟨(.origin, .origin), rfl⟩ ts
  have hright := run_relabel Twins.relabelling_right (.file Twins.relabelling_right) maxDepth
    ⟨(.origin, .origin), rfl⟩ ts
  rw [← hts] at hleft
  rw [← hts'] at hright
  exact ⟨ts, hts, hts', hleft, hright⟩

/-- **Texts whose tokens look the same have the same tree over pairs of tokens**, and the same
errors. -/
theorem exists_twinOutcome :
    ∃ a : Outcome Twins, (fileOutcome s).trees = a.trees.map (Tree.map Twins.left) ∧
      (fileOutcome s').trees = a.trees.map (Tree.map Twins.right) ∧
      ((parse s).hasErrors = false ↔ (parse s').hasErrors = false) := by
  obtain ⟨ts, -, -, hleft, hright⟩ := exists_twins h
  refine ⟨twinOutcome ts, congrArg Outcome.trees hleft, congrArg Outcome.trees hright, ?_⟩
  rw [not_hasErrors_iff_clean, not_hasErrors_iff_clean, hleft, hright]
  simp [Outcome.Clean, Outcome.map, Issue.map]

end Look

/-! ## Trees without trivia -/

/-- The tree with its trivia left out. -/
def SyntaxTree.skeleton (t : SyntaxTree) : SyntaxTree := t.map Token.bare

/-- **Texts whose tokens look the same have trees that are the same but for trivia.** -/
theorem skeleton_of_look {s s' : Text}
    (h : (tokenize s').tokens.map PlacedToken.look = (tokenize s).tokens.map PlacedToken.look) :
    (parse s).tree.skeleton = (parse s').tree.skeleton := by
  obtain ⟨a, hleft, hright, -⟩ := exists_twinOutcome h
  have hstop : ∀ u : Text, (tokenize u).stop.token.bare = .endOfFile [] := by
    intro u
    obtain ⟨left, hstop⟩ := stop_attachTrivia 0 [] (lex u)
    rw [show (tokenize u).stop.token = .endOfFile left from hstop]
    rfl
  have htwins : ((a.trees.map (Tree.map Twins.left)).map (Tree.map PlacedToken.token)).map
        (Tree.map Token.bare)
      = ((a.trees.map (Tree.map Twins.right)).map (Tree.map PlacedToken.token)).map
        (Tree.map Token.bare) := by
    simp only [List.map_map]
    refine List.map_congr_left fun t _ => ?_
    simp only [Function.comp, Tree.map_map]
    congr 1
    funext pair
    exact Token.bare_eq pair.kind_right.symm pair.text_right.symm
  rw [parse_tree, parse_tree, hleft, hright]
  simp only [SyntaxTree.skeleton, Node.map, List.map_append, htwins, List.map_cons, List.map_nil,
    Tree.map, hstop]

end NginxConf
