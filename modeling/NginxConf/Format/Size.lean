import NginxConf.Format
import NginxConf.Overflow

/-!
# The size of a formatted file

A style may ask for more than can be stored: for too many blank lines in a row, or for indents with
too many blanks. Formatting is given up at the first such place. To find it, the file is measured
first, token by token as it would be written.

What passes has the size that has been measured (`formatSize_eq`).
-/

namespace NginxConf

namespace Style

/-- The size of a text that goes on with an indent. -/
def sizeWithIndent (s : Style) (size level : Nat) : Except Overflow Nat :=
  if s.useTabs then .ok (size + level)
  else if Overflow.countBound ≤ level * s.indentWidth then .error .multiplication
  else if Overflow.lengthBound ≤ size + level * s.indentWidth then .error .capacity
  else .ok (size + level * s.indentWidth)

theorem sizeWithIndent_eq {s : Style} {size level n : Nat}
    (h : s.sizeWithIndent size level = .ok n) : n = size + Text.size (s.indent level) := by
  rw [sizeWithIndent] at h
  rw [indent]
  split at h
  · next ht =>
    cases h
    rw [if_pos ht, Text.size_replicate, show ('\t' : Char).utf8Size = 1 from rfl, Nat.mul_one]
  · next ht =>
    repeat' split at h
    all_goals cases h
    rw [if_neg ht, Text.size_replicate, show (' ' : Char).utf8Size = 1 from rfl, Nat.mul_one]

end Style

namespace Lines

/-- The size of a text that goes on with what stands in front of a comment. -/
def sizeBefore (style : Style) (layout : Lines) (opened : Bool) (size count : Nat)
    (sameLine : Bool) : Except Overflow Nat :=
  if sameLine && opened then .ok (size + 1)
  else style.sizeWithIndent (size + Text.size (breaks style opened count)) layout.commentIndent

/-- The size of a text that goes on with a gap written as lines, as by `writeFrom`. -/
def sizeFrom (style : Style) (layout : Lines) (opened : Bool) (size count : Nat)
    (sameLine : Bool) : List Trivia → Except Overflow Nat
  | [] =>
    let count := max count layout.minBreaks
    if count = 0 then .ok (size + Text.size layout.sameLine)
    else
      style.sizeWithIndent (size + Text.size (breaks style opened (min count layout.maxBreaks)))
        layout.indent
  | t :: ts =>
    match t.kind with
    | .newline => layout.sizeFrom style opened size (count + 1) false ts
    | .whitespace => layout.sizeFrom style opened size count sameLine ts
    | .comment => do
      let size ← layout.sizeBefore style opened size count sameLine
      layout.sizeFrom style true (size + Text.size t.text) 0 sameLine ts

end Lines

/-- The size of a text that goes on with a gap. -/
def Gap.sizeFrom (style : Style) (opened : Bool) (size : Nat) (trivia : List Trivia) :
    Gap → Except Overflow Nat
  | lines layout => layout.sizeFrom style opened size 0 true trivia
  | nothing => .ok size
  | verbatim => .ok (size + Text.size (writeVerbatim style trivia))

namespace NodeRef

/-- The size of a text that goes on with tokens and the gaps before them, as by `writeTokens`. -/
def sizeTokens (style : Style) (starts : List Nat) (previous : Option TokenRef) (size : Nat) :
    List TokenRef → Except Overflow Nat
  | [] => .ok size
  | t :: ts => do
    let (gap, trivia) := gapBefore style starts previous t
    let size ← gap.sizeFrom style previous.isSome size trivia
    sizeTokens style starts (some t) (size + Text.size t.token.text) ts

/-- The size of the text of a node in a style. The most line breaks in a row must be a count. -/
def formatSize (style : Style) (n : NodeRef) : Except Overflow Nat :=
  if Overflow.countBound ≤ style.maxBreaks then .error .addition
  else sizeTokens style n.itemStarts none 0 n.allTokens

end NodeRef

/-- The text of a parsed file in a style, if it can be stored. A refusal comes before that. -/
def Parse.formatStored (style : Style) (p : Parse) : Except Overflow (Except FormatError Text) :=
  if p.hasErrors then .ok (p.format style)
  else do
    let _ ← (NodeRef.root p.tree).formatSize style
    return p.format style

/-- The text of a file in a style, if it can be stored. -/
def formatStored (style : Style) (s : Text) : Except Overflow (Except FormatError Text) :=
  (parse s).formatStored style

/-! ## What has been measured is what is written -/

private theorem exists_of_bind_eq_ok {α β : Type} {x : Except Overflow α}
    {f : α → Except Overflow β} {b : β} (h : (x >>= f) = .ok b) : ∃ a, x = .ok a ∧ f a = .ok b := by
  cases x with
  | error o => cases h
  | ok a => exact ⟨a, rfl, h⟩

theorem Lines.sizeFrom_eq {style : Style} {layout : Lines} {trivia : List Trivia} :
    ∀ {opened : Bool} {size count : Nat} {sameLine : Bool} {n : Nat},
      layout.sizeFrom style opened size count sameLine trivia = .ok n →
        n = size + Text.size (layout.writeFrom style opened count sameLine trivia) := by
  induction trivia with
  | nil =>
    intro opened size count sameLine n h
    rw [sizeFrom] at h
    rw [writeFrom]
    split at h
    · next hc => cases h; rw [if_pos hc]
    · next hc =>
      rw [if_neg hc, Style.sizeWithIndent_eq h, Text.size_append, Nat.add_assoc]
  | cons t ts ih =>
    intro opened size count sameLine n h
    rw [sizeFrom] at h
    rw [writeFrom]
    cases hk : t.kind with
    | newline =>
      rw [hk] at h
      exact ih h
    | whitespace =>
      rw [hk] at h
      exact ih h
    | comment =>
      rw [hk] at h
      obtain ⟨m, hm, h⟩ := exists_of_bind_eq_ok h
      have hrest := ih h
      simp only [Text.size_append]
      rw [sizeBefore] at hm
      split at hm
      · next hs =>
        cases hm
        have hblank : Text.size [' '] = 1 := rfl
        rw [if_pos hs]
        omega
      · next hs =>
        have := Style.sizeWithIndent_eq hm
        rw [if_neg hs, Text.size_append]
        omega

theorem Gap.sizeFrom_eq {style : Style} {opened : Bool} {size n : Nat} {trivia : List Trivia}
    {gap : Gap} (h : gap.sizeFrom style opened size trivia = .ok n) :
    n = size + Text.size (gap.write style opened trivia) := by
  cases gap with
  | lines layout => exact Lines.sizeFrom_eq h
  | nothing => cases h; rfl
  | verbatim => cases h; rfl

namespace NodeRef

theorem sizeTokens_eq {style : Style} {starts : List Nat} {ts : List TokenRef} :
    ∀ {previous : Option TokenRef} {size n : Nat},
      sizeTokens style starts previous size ts = .ok n →
        n = size + Text.size (writeTokens style starts previous ts) := by
  induction ts with
  | nil => intro previous size n h; cases h; rfl
  | cons t ts ih =>
    intro previous size n h
    rw [sizeTokens] at h
    obtain ⟨m, hm, h⟩ := exists_of_bind_eq_ok h
    have : m = size + Text.size ((gapBefore style starts previous t).1.write style
      previous.isSome (gapBefore style starts previous t).2) := Gap.sizeFrom_eq hm
    have := ih h
    rw [writeTokens, Text.size_append, Text.size_append]
    omega

/-- **A text that can be stored has the size that was measured for it.** -/
theorem formatSize_eq {style : Style} {root : NodeRef} {n : Nat}
    (h : root.formatSize style = .ok n) : n = Text.size (root.format style) := by
  rw [formatSize] at h
  split at h
  · cases h
  · have := sizeTokens_eq h
    rw [format]
    omega

end NodeRef

/-- **What is stored is the formatted text, or the refusal to format.** -/
theorem Parse.formatStored_eq {style : Style} {p : Parse} {r : Except FormatError Text}
    (h : p.formatStored style = .ok r) : r = p.format style := by
  rw [formatStored] at h
  split at h
  · cases h; rfl
  · obtain ⟨_, _, h⟩ := exists_of_bind_eq_ok h
    cases h
    rfl

end NginxConf
