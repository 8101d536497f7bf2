import NginxConf.Proofs.SyntaxTree.Build
import NginxConf.SyntaxTree.Walk

/-!
# The pieces of a tree cover its text

Walking through a tree meets its pieces of text, trivia included, one after the other and without a
gap (`tiled_leaves`). This holds of every tree, since places are counted and not stored.
-/

namespace NginxConf

/-- Pieces that stand one after the other from an offset on and are together a text. -/
def Tiled : Nat → List LeafRef → Text → Prop
  | _, [], s => s = []
  | offset, l :: ls, s =>
    l.start = offset ∧ ∃ rest, s = l.text ++ rest ∧ Tiled (offset + Text.size l.text) ls rest

theorem Tiled.append {ls ms : List LeafRef} {offset : Nat} {s u : Text} (hl : Tiled offset ls s)
    (hm : Tiled (offset + Text.size s) ms u) : Tiled offset (ls ++ ms) (s ++ u) := by
  induction ls generalizing offset s with
  | nil =>
    rw [show s = [] from hl] at hm ⊢
    exact hm
  | cons l ls ih =>
    obtain ⟨hstart, rest, rfl, htail⟩ := hl
    refine ⟨hstart, rest ++ u, List.append_assoc _ _ _, ih htail ?_⟩
    rw [Text.size_append, ← Nat.add_assoc] at hm
    exact hm

theorem TokenRef.tiled_placeTrivia (owner : TokenRef) (part : Nat → Part) (index offset : Nat)
    (ts : List Trivia) :
    Tiled offset (owner.placeTrivia part index offset ts) (Trivia.textOf ts) := by
  induction ts generalizing index offset with
  | nil => rfl
  | cons t ts ih => exact ⟨rfl, Trivia.textOf ts, List.flatMap_cons, ih (index + 1) _⟩

/-- A token with its trivia is covered by its pieces. -/
theorem TokenRef.tiled_pieces (t : TokenRef) : Tiled t.start t.pieces t.token.fullText := by
  rw [pieces, Token.fullText, List.append_assoc]
  refine (t.tiled_placeTrivia .leading 0 t.start _).append ?_
  rw [Trivia.size_textOf]
  exact ⟨rfl, _, rfl, t.tiled_placeTrivia .trailing 0 _ _⟩

/-- The tokens that a walk meets. -/
def Event.token? : Event → Option TokenRef
  | token t => some t
  | _ => none

mutual

theorem tiled_treeEvents (parent : NodeRef) (position offset : Nat) : (t : Tree Token) →
    Tiled offset (((treeEvents parent position offset t).filterMap Event.token?).flatMap
      TokenRef.pieces) t.text
  | .leaf token => by
    have h := TokenRef.tiled_pieces ⟨token, offset, position :: parent.address, parent⟩
    simpa [treeEvents, Event.token?] using h
  | .node kind children => by
    have h := tiled_forestEvents
      ⟨⟨kind, children, offset, position :: parent.address⟩, parent.toSite :: parent.above⟩ 0
      offset children
    simp only [treeEvents, List.filterMap_cons, List.filterMap_append, List.filterMap_nil,
      Event.token?, List.append_nil, Tree.text_node]
    exact h

theorem tiled_forestEvents (parent : NodeRef) (position offset : Nat) :
    (ts : List (Tree Token)) →
    Tiled offset (((forestEvents parent position offset ts).filterMap Event.token?).flatMap
      TokenRef.pieces) (Tree.forestText ts)
  | [] => rfl
  | t :: ts => by
    rw [forestEvents, List.filterMap_append, List.flatMap_append, Tree.forestText_cons]
    refine (tiled_treeEvents parent position offset t).append ?_
    rw [← Tree.sum_fullSize]
    exact tiled_forestEvents parent (position + 1) _ ts

end

theorem NodeRef.allTokens_eq (n : NodeRef) :
    n.allTokens = (forestEvents n 0 n.start n.children).filterMap Event.token? := by
  rw [allTokens, events_eq]
  simp only [List.filterMap_cons, List.filterMap_append, List.filterMap_nil, List.append_nil]
  rfl

theorem NodeRef.size_text (n : NodeRef) : Text.size n.text = n.size := by
  rw [text, size, Tree.forestSum_fullSize, Tree.forestLeaves_eq, List.flatMap_assoc]
  rfl

/-- **The pieces of a node stand one after the other and are together its text.** -/
theorem NodeRef.tiled_leaves (n : NodeRef) : Tiled n.start n.leaves n.text := by
  have h := tiled_forestEvents n 0 n.start n.children
  have htext : n.text = Tree.forestText n.children := by
    rw [text, Tree.forestLeaves_eq, List.flatMap_assoc]
    rfl
  rw [leaves, allTokens_eq, htext]
  exact h

theorem NodeRef.text_root (t : SyntaxTree) : (root t).text = t.text := by
  rw [text, Tree.forestLeaves_eq]
  rfl

end NginxConf
