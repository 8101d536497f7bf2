import NginxConf.Proofs.Grammar.Kinds
import NginxConf.Proofs.Parse.Semicolons

/-!
# Every item is read to its end

The loops of the parser go on for as long as there are items, so each item must read something, and
must leave the parser as the loop expects it: `completes_items`. A statement, an entry of a geo block
or a block comes to its end in every state, however many blocks are open and whatever comes next. It
reads at least one token and not the end of the text, leaves the blocks that it enters, and adds to
the events those of whole nodes, with the tokens that have been read.

It does so exactly if the places where it begins nodes can be stored (`HasMarks`). Otherwise a mark
is lost, or the same tokens are read and nodes have wrong kinds or none; and a text can be so long
that a mark is lost (`completes_items_lostMark`).

A machine notes the events of the trees that the rule builds (`reaches_driveWith`), so what holds of
the events is shown of trees. That an item reads its first token is what makes its rule sound at that
token (`Rule.SoundAt`).
-/

namespace NginxConf

/-- The token that an event notes. -/
def ParseEvent.token? : ParseEvent → Option PlacedToken
  | token t => some t
  | _ => none

/-! ## Whole nodes -/

/-- Events that are those of whole nodes and of tokens: a node that begins among them is completed
among them, after all nodes that begin in it, and none else is completed. -/
inductive WellNested : List ParseEvent → Prop
  | nil : WellNested []
  | token {t events} (h : WellNested events) : WellNested (.token t :: events)
  /-- The kind is known, and is one that stands for something. -/
  | node {kind inner events} (hk : kind ≠ .tombstone) (hi : WellNested inner)
    (h : WellNested events) : WellNested (.start (some kind) :: (inner ++ .finish :: events))

theorem WellNested.append {events more : List ParseEvent} (h : WellNested events)
    (hmore : WellNested more) : WellNested (events ++ more) := by
  induction h with
  | nil => exact hmore
  | token _ ih => exact .token ih
  | node hk hi _ _ ih =>
    rw [List.cons_append, List.append_assoc, List.cons_append]
    exact .node hk hi ih

namespace Tree

mutual

/-- The events of a tree are those of whole nodes. -/
theorem wellNested_steps : (t : Tree PlacedToken) → (∀ kind ∈ t.kinds, kind ≠ .tombstone) →
    WellNested t.steps
  | leaf _, _ => .token .nil
  | node kind children, h => by
    rw [steps]
    refine .node (h kind List.mem_cons_self) ?_ .nil
    exact wellNested_forestSteps children fun k hk => h k (List.mem_cons_of_mem _ hk)

theorem wellNested_forestSteps : (ts : List (Tree PlacedToken)) →
    (∀ kind ∈ forestKinds ts, kind ≠ .tombstone) → WellNested (forestSteps ts)
  | [], _ => .nil
  | t :: ts, h => by
    rw [forestSteps]
    exact (wellNested_steps t fun k hk => h k (List.mem_append_left _ hk)).append
      (wellNested_forestSteps ts fun k hk => h k (List.mem_append_right _ hk))

end

mutual

/-- The tokens among the events of a tree are its leaves. -/
theorem tokens_steps : (t : Tree PlacedToken) → t.steps.filterMap ParseEvent.token? = t.leaves
  | leaf _ => rfl
  | node kind children => by
    rw [steps, List.filterMap_cons_none rfl, List.filterMap_append, tokens_forestSteps children,
      leaves, forestLeaves_eq]
    exact List.append_nil _

theorem tokens_forestSteps : (ts : List (Tree PlacedToken)) →
    (forestSteps ts).filterMap ParseEvent.token? = ts.flatMap leaves
  | [] => rfl
  | t :: ts => by
    rw [forestSteps, List.filterMap_append, tokens_steps t, tokens_forestSteps ts,
      List.flatMap_cons]

end

end Tree

/-! ## What is ahead -/

namespace Machine

/-- Tokens that cannot be ahead: the report about a directive would end before it begins. -/
example : drive mark32 maxDepth .statement
    (new [⟨⟨[], .word, ['a'], []⟩, 5, none⟩, ⟨⟨[], .word, ['b'], []⟩, 0, none⟩])
      = .error .reversedRange := by
  cbv

end Machine

end NginxConf
