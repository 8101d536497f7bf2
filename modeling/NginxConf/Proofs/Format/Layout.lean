import NginxConf.Proofs.Format.Spans
import NginxConf.Proofs.Format.Tidy
import NginxConf.Proofs.Tree.Hole

/-!
# The layout of a gap written as lines

A gap written as lines is a text with line feeds for line breaks, in which the line feeds are then
written as the style has it (`LineEnding.write`). That text is a row of lines: each begins with the
indent of its level, and holds a comment unless it is the last one (`Lines.exists_writesAs`). So
blanks stand at the end of no line but that of a comment, and line breaks do not pile up
(`Text.LaidOut`).
-/

namespace NginxConf

open Trivia

/-! ## Line breaks -/

/-- A text with its line feeds written as such a line ending. -/
def LineEnding.write (ending : LineEnding) (plain : Text) : Text :=
  plain.flatMap fun c => if c = '\n' then ending.text else [c]

namespace LineEnding

variable {ending : LineEnding} {plain plain' : Text}

theorem write_append : ending.write (plain ++ plain') = ending.write plain ++ ending.write plain' :=
  List.flatMap_append

theorem write_of_notMem (h : '\n' ∉ plain) : ending.write plain = plain := by
  induction plain with
  | nil => rfl
  | cons c plain ih =>
    rw [List.mem_cons, not_or] at h
    rw [write, List.flatMap_cons, if_neg (Ne.symm h.1), ← write, ih h.2]
    rfl

theorem write_replicate (n : Nat) :
    ending.write (List.replicate n '\n') = (List.replicate n ending.text).flatten := by
  induction n with
  | zero => rfl
  | succ n ih =>
    rw [List.replicate_succ, List.replicate_succ, List.flatten_cons, ← ih]
    rfl

end LineEnding

/-! ## Laws of a layout -/

/-- The layout of the text before a token: the level of the token and the level of comments on lines
of their own. -/
structure Text.LaidOut (style : Style) (level commentLevel : Nat) (plain : Text) : Prop where
  /-- What follows the last line break is the indentation of the token. -/
  last : ∀ u v, plain = u ++ '\n' :: v → '\n' ∉ v → v = style.indent level
  /-- So is what stands before a comment on a line of its own. -/
  comment : ∀ u blanks v, plain = u ++ '\n' :: (blanks ++ '#' :: v) →
    (∀ c ∈ blanks, isInlineBlank c = true) → blanks = style.indent commentLevel
  run : ∀ n, List.replicate n '\n' <:+: plain → n ≤ style.keepBlankLines + 1
  /-- A blank before a line break belongs to a comment. -/
  tidy : ∀ u c v, plain = u ++ c :: '\n' :: v → isInlineBlank c = true →
    ∃ before run, u = before ++ '#' :: run ∧ '\n' ∉ run

namespace Text.LaidOut

variable {style : Style} {level commentLevel n : Nat} {line rest : Text}

/-- A run of line breaks that goes over a text without line breaks is behind it. -/
theorem infix_of_notMem (h : '\n' ∉ line) (hn : 0 < n)
    (hpart : List.replicate n '\n' <:+: line ++ rest) : List.replicate n '\n' <:+: rest := by
  induction line with
  | nil => exact hpart
  | cons c line ih =>
    rw [List.mem_cons, not_or] at h
    rw [List.cons_append, List.infix_cons_iff] at hpart
    rcases hpart with hhead | hpart
    · obtain ⟨k, rfl⟩ := Nat.exists_eq_add_one.2 hn
      rw [List.replicate_succ, List.cons_prefix_cons] at hhead
      exact absurd hhead.1 h.1
    · exact ih h.2 hpart

/-- A run of line breaks at the start of a text is not longer than the line breaks there. -/
theorem le_of_leading_breaks {k : Nat} (hhead : line.head? ≠ some '\n')
    (h : List.replicate k '\n' <+: List.replicate n '\n' ++ line) : k ≤ n := by
  induction n generalizing k with
  | zero =>
    cases k with
    | zero => exact Nat.le_refl 0
    | succ k =>
      rw [List.replicate_zero, List.nil_append] at h
      obtain ⟨more, rfl⟩ := h
      exact absurd rfl hhead
  | succ n ih =>
    cases k with
    | zero => exact Nat.zero_le _
    | succ k =>
      rw [List.replicate_succ, List.replicate_succ, List.cons_append, List.cons_prefix_cons] at h
      exact Nat.succ_le_succ (ih h.2)

theorem le_or_infix_of_breaks {k : Nat} (hhead : line.head? ≠ some '\n')
    (h : List.replicate k '\n' <:+: List.replicate n '\n' ++ line) :
    k ≤ n ∨ List.replicate k '\n' <:+: line := by
  induction n with
  | zero => exact .inr h
  | succ n ih =>
    rw [List.replicate_succ, List.cons_append, List.infix_cons_iff, ← List.cons_append,
      ← List.replicate_succ] at h
    rcases h with h | h
    · exact .inl (le_of_leading_breaks hhead h)
    · exact (ih h).imp_left Nat.le_succ_of_le

/-- A line without line breaks, by itself. -/
theorem of_notMem (h : '\n' ∉ line) : LaidOut style level commentLevel line := by
  have hnot {u v : Text} (hsplit : line = u ++ '\n' :: v) : False := h (by rw [hsplit]; simp)
  constructor
  case last => exact fun u v hsplit _ => (hnot hsplit).elim
  case comment => exact fun u blanks v hsplit _ => (hnot hsplit).elim
  case run =>
    intro n hpart
    rcases Nat.eq_zero_or_pos n with rfl | hn
    · exact Nat.zero_le _
    · rw [← List.append_nil line] at hpart
      have hlength := (infix_of_notMem h hn hpart).length_le
      rw [List.length_replicate, List.length_nil] at hlength
      omega
  case tidy =>
    intro u c v hsplit _
    rw [← List.singleton_append, ← List.append_assoc] at hsplit
    exact (hnot hsplit).elim

/-- A comment at the end of a line, with blanks before it, and what is laid out behind it. -/
theorem of_comment {blanks run : Text} (hblanks : ∀ c ∈ blanks, isInlineBlank c = true)
    (hrun : '\n' ∉ run) (hrest : LaidOut style level commentLevel rest) :
    LaidOut style level commentLevel (blanks ++ '#' :: run ++ rest) := by
  have hline : '\n' ∉ blanks ++ '#' :: run := by
    rw [List.mem_append, List.mem_cons, not_or, not_or]
    exact ⟨newline_notMem_of_isInlineBlank hblanks, by decide, hrun⟩
  -- all line breaks are in the rest
  have hcut {u v : Text} (hsplit : blanks ++ '#' :: run ++ rest = u ++ '\n' :: v) :
      ∃ w, u = blanks ++ '#' :: run ++ w ∧ rest = w ++ '\n' :: v := by
    rcases append_eq_append_cons hsplit with ⟨inner, hinner, -⟩ | hmore
    · exact absurd (by rw [hinner]; simp) hline
    · exact hmore
  constructor
  case last =>
    intro u v hsplit hv
    obtain ⟨w, -, hw⟩ := hcut hsplit
    exact hrest.last w v hw hv
  case comment =>
    intro u blanks' v hsplit hblanks'
    obtain ⟨w, -, hw⟩ := hcut hsplit
    exact hrest.comment w blanks' v hw hblanks'
  case run =>
    intro n hpart
    rcases Nat.eq_zero_or_pos n with rfl | hn
    · exact Nat.zero_le _
    · exact hrest.run n (infix_of_notMem hline hn hpart)
  case tidy =>
    intro u c v hsplit hc
    obtain ⟨w, hu, hw⟩ := hcut (u := u ++ [c]) (v := v) (by rw [hsplit]; simp)
    rcases List.eq_nil_or_concat w with rfl | ⟨w, d, rfl⟩
    · -- the blank is the last character of the comment
      rw [List.append_nil] at hu
      rcases List.eq_nil_or_concat run with rfl | ⟨run, d, rfl⟩
      · obtain ⟨-, hd⟩ := List.append_inj' hu rfl
        rw [List.singleton_inj.1 hd] at hc
        exact absurd hc (by decide)
      · rw [List.concat_eq_append, ← List.cons_append, ← List.append_assoc] at hu
        obtain ⟨rfl, -⟩ := List.append_inj' hu rfl
        rw [List.concat_eq_append, List.mem_append, not_or] at hrun
        exact ⟨blanks, run, rfl, hrun.1⟩
    · rw [List.concat_eq_append, ← List.append_assoc] at hu
      obtain ⟨rfl, hd⟩ := List.append_inj' hu rfl
      obtain rfl := List.singleton_inj.1 hd
      rw [List.concat_eq_append, List.append_assoc] at hw
      obtain ⟨before, run', rfl, hrun'⟩ := hrest.tidy w _ v hw hc
      exact ⟨blanks ++ '#' :: run ++ before, run', by simp, hrun'⟩

/-- Line breaks before a line that is the last one, or begins with a comment on its level. -/
theorem of_breaks (hmax : n ≤ style.maxBreaks)
    (hline : LaidOut style level commentLevel line) (hhead : line.head? ≠ some '\n')
    (hlast : '\n' ∉ line → line = style.indent level)
    (hcomment : ∀ blanks v, line = blanks ++ '#' :: v → (∀ c ∈ blanks, isInlineBlank c = true) →
      blanks = style.indent commentLevel) :
    LaidOut style level commentLevel (List.replicate n '\n' ++ line) := by
  have hbreaks {c : Char} (hc : c ∈ List.replicate n '\n') : c = '\n' := List.eq_of_mem_replicate hc
  constructor
  case last =>
    intro u v hsplit hv
    rcases append_eq_append_cons hsplit with ⟨inner, hinner, rfl⟩ | ⟨inner, rfl, hinner⟩
    · rw [List.mem_append, not_or] at hv
      have hnil : inner = [] := by
        refine List.eq_nil_iff_forall_not_mem.2 fun c hc => hv.1 ?_
        rw [← hbreaks (c := c) (by rw [hinner]; simp [hc])]
        exact hc
      rw [hnil, List.nil_append]
      exact hlast hv.2
    · exact hline.last inner v hinner hv
  case comment =>
    intro u blanks v hsplit hblanks
    rcases append_eq_append_cons hsplit with ⟨inner, hinner, hmore⟩ | ⟨inner, rfl, hinner⟩
    · cases inner with
      | nil => exact hcomment blanks v hmore.symm hblanks
      | cons c inner =>
        -- neither a blank nor a comment begins with a line feed
        obtain rfl := hbreaks (c := c) (by rw [hinner]; simp)
        cases blanks with
        | nil => exact absurd (List.cons.inj hmore).1 (by decide)
        | cons d blanks =>
          obtain ⟨rfl, -⟩ := List.cons.inj hmore
          exact absurd (hblanks _ List.mem_cons_self) (by decide)
    · exact hline.comment inner blanks v hinner hblanks
  case run =>
    intro k hpart
    rcases le_or_infix_of_breaks hhead hpart with hk | hpart
    · exact Nat.le_trans hk hmax
    · exact hline.run k hpart
  case tidy =>
    intro u c v hsplit hc
    rcases append_eq_append_cons hsplit with ⟨inner, hinner, -⟩ | ⟨inner, rfl, hinner⟩
    · obtain rfl := hbreaks (c := c) (by rw [hinner]; simp)
      cases hc
    · obtain ⟨before, run, rfl, hrun⟩ := hline.tidy inner c v hinner hc
      exact ⟨List.replicate n '\n' ++ before, run, by simp, hrun⟩

end Text.LaidOut

/-! ## A gap written as lines -/

/-- The blanks before a comment end where it begins. -/
theorem Trivia.blanks_eq_of_comment {blanks blanks' v v' : Text}
    (hblanks : ∀ c ∈ blanks, isInlineBlank c = true)
    (hblanks' : ∀ c ∈ blanks', isInlineBlank c = true)
    (h : blanks ++ '#' :: v = blanks' ++ '#' :: v') : blanks = blanks' := by
  have hstop : ¬ isInlineBlank '#' = true := by decide
  have htake := congrArg (List.takeWhile isInlineBlank) h
  rw [List.takeWhile_append_of_pos hblanks, List.takeWhile_append_of_pos hblanks',
    List.takeWhile_cons_of_neg hstop, List.takeWhile_cons_of_neg hstop, List.append_nil,
    List.append_nil] at htake
  exact htake

/-- A comment with a line break behind it. -/
theorem Trivia.NeatBefore.comment_text {t : Trivia} {ts : List Trivia} (h : t.NeatBefore False ts)
    (hkind : t.kind = .comment) : ∃ run, t.text = '#' :: run ∧
      (∀ c ∈ run, isLineEnd c = false) ∧ ∃ u ∈ ts.head?, u.kind = .newline := by
  unfold NeatBefore at h
  rw [hkind] at h
  obtain ⟨⟨run, htext, hrun⟩, hnil, hnext⟩ := h
  refine ⟨run, htext, hrun, ?_⟩
  cases ts with
  | nil => exact (hnil rfl).elim
  | cons u us => exact ⟨u, rfl, hnext u rfl⟩

namespace Lines

variable {style : Style} {layout : Lines} {old : List Trivia}

/-- The text before a token is the line breaks and comments of a layout. -/
structure WritesAs (style : Style) (layout : Lines) (text plain : Text) : Prop where
  text_eq : text = style.lineEnding.write plain
  noReturn : '\r' ∉ plain
  laidOut : plain.LaidOut style layout.indent layout.commentIndent

theorem writesAs_blanks {blanks : Text} (h : ∀ c ∈ blanks, isInlineBlank c = true) :
    WritesAs style layout blanks blanks := by
  have hfeed := newline_notMem_of_isInlineBlank h
  refine ⟨(LineEnding.write_of_notMem hfeed).symm, fun hmem => ?_, .of_notMem hfeed⟩
  exact absurd (h _ hmem) (by decide)

/-- A comment, with blanks before it, and what follows it. -/
theorem WritesAs.comment {text plain blanks run : Text} (h : WritesAs style layout text plain)
    (hblanks : ∀ c ∈ blanks, isInlineBlank c = true) (hrun : ∀ c ∈ run, isLineEnd c = false) :
    WritesAs style layout (blanks ++ '#' :: run ++ text) (blanks ++ '#' :: run ++ plain) := by
  have hnot : ∀ c, isLineEnd c = true → c ∉ blanks ++ '#' :: run := by
    intro c hc hmem
    rcases List.mem_append.1 hmem with hmem | hmem
    · have hinline := Bool.and_eq_true_iff.1 (hblanks c hmem)
      simp [hc] at hinline
    · rcases List.mem_cons.1 hmem with rfl | hmem
      · cases hc
      · rw [hrun c hmem] at hc
        cases hc
  have hfeed : '\n' ∉ run := fun hmem => absurd (hrun _ hmem) (by decide)
  refine ⟨?_, ?_, .of_comment hblanks hfeed h.laidOut⟩
  · rw [LineEnding.write_append, ← h.text_eq, LineEnding.write_of_notMem (hnot '\n' rfl)]
  · rw [List.mem_append, not_or]
    exact ⟨hnot '\r' rfl, h.noReturn⟩

/-- Line breaks before a line that begins with an indent: the last one, or one with a comment. -/
theorem WritesAs.breaks {count level : Nat} {text rest : Text} (hcount : 0 < count)
    (h : WritesAs style layout text (style.indent level ++ rest))
    (hrest : rest = [] ∧ level = layout.indent ∨
      (∃ more, rest = '#' :: more ∧ '\n' ∈ more) ∧ level = layout.commentIndent) :
    ∃ plain, plain.head? = some '\n' ∧
      WritesAs style layout (Lines.breaks style true count ++ text) plain := by
  obtain ⟨n, hn⟩ : ∃ n, min count style.maxBreaks = n + 1 :=
    Nat.exists_eq_add_one.2 (by rw [Style.maxBreaks]; omega)
  have hindent := style.isInlineBlank_indent level
  refine ⟨List.replicate (n + 1) '\n' ++ (style.indent level ++ rest), rfl, ?_, ?_, ?_⟩
  · rw [LineEnding.write_append, ← h.text_eq, LineEnding.write_replicate, ← hn]
    rfl
  · rw [List.mem_append, not_or]
    exact ⟨fun hmem => absurd (List.eq_of_mem_replicate hmem) (by decide), h.noReturn⟩
  · refine .of_breaks (by omega) h.laidOut ?_ ?_ ?_
    · intro hhead
      cases hblanks : style.indent level with
      | nil =>
        rw [hblanks, List.nil_append] at hhead
        rcases hrest with ⟨rfl, -⟩ | ⟨⟨more, rfl, -⟩, -⟩ <;> cases hhead
      | cons c blanks =>
        rw [hblanks] at hhead
        obtain rfl := Option.some.inj hhead
        exact absurd (hindent _ (by rw [hblanks]; exact List.mem_cons_self)) (by decide)
    · intro hfeed
      rcases hrest with ⟨rfl, rfl⟩ | ⟨⟨more, rfl, hmore⟩, -⟩
      · exact List.append_nil _
      · exact absurd (by simp [hmore]) hfeed
    · intro blanks v hline hblanks
      rcases hrest with ⟨rfl, rfl⟩ | ⟨⟨more, rfl, -⟩, rfl⟩
      · rw [List.append_nil] at hline
        exact absurd (hindent '#' (by rw [hline]; simp)) (by decide)
      · exact (blanks_eq_of_comment hindent hblanks hline).symm

/-- Line breaks before the line of the token. -/
theorem exists_writesAs_last (style : Style) (layout : Lines) {count : Nat} (hcount : 0 < count) :
    ∃ plain, plain.head? = some '\n' ∧ WritesAs style layout
      (Lines.breaks style true count ++ style.indent layout.indent) plain := by
  have hline : WritesAs style layout (style.indent layout.indent)
      (style.indent layout.indent ++ []) := by
    rw [List.append_nil]
    exact writesAs_blanks (style.isInlineBlank_indent layout.indent)
  exact hline.breaks hcount (.inl ⟨rfl, rfl⟩)

/-- Where a line break has been met, or comes next, the token and all comments before it stand on
lines of their own. -/
theorem exists_writesAs_of_break (style : Style) (hmax : 0 < layout.maxBreaks)
    (hold : Neat False old) (count : Nat) (sameLine : Bool)
    (hbreak : 0 < count ∧ sameLine = false ∨ ∃ u ∈ old.head?, u.kind = .newline) :
    ∃ plain, plain.head? = some '\n' ∧
      WritesAs style layout (layout.writeFrom style true count sameLine old) plain := by
  induction old generalizing count sameLine with
  | nil =>
    rcases hbreak with ⟨hcount, -⟩ | ⟨u, hu, -⟩
    · rw [writeFrom, if_neg (by omega)]
      exact exists_writesAs_last style layout (by omega)
    · cases hu
  | cons t ts ih =>
    rw [writeFrom]
    cases hkind : t.kind with
    | newline => exact ih hold.2 (count + 1) false (.inl ⟨Nat.succ_pos count, rfl⟩)
    | whitespace =>
      rcases hbreak with hbreak | ⟨u, hu, hnewline⟩
      · exact ih hold.2 count sameLine (.inl hbreak)
      · obtain rfl := Option.some.inj hu
        rw [hkind] at hnewline
        cases hnewline
    | comment =>
      rcases hbreak with ⟨hcount, rfl⟩ | ⟨u, hu, hnewline⟩
      · -- the comment ends its line, so the rest begins with a line break
        obtain ⟨run, htext, hrun, hnext⟩ := hold.1.comment_text hkind
        obtain ⟨plain, hhead, hwrites⟩ := ih hold.2 0 false (.inr hnext)
        have hline := hwrites.comment (style.isInlineBlank_indent layout.commentIndent) hrun
        rw [List.append_assoc _ _ plain] at hline
        obtain ⟨plain', hhead', hwrites'⟩ := hline.breaks hcount
          (.inr ⟨⟨run ++ plain, rfl, List.mem_append_right _ (List.mem_of_head? hhead)⟩, rfl⟩)
        refine ⟨plain', hhead', ?_⟩
        rw [htext]
        simpa using hwrites'
      · obtain rfl := Option.some.inj hu
        rw [hkind] at hnewline
        cases hnewline

/-- **A gap that is written as lines is laid out**, if a line break follows each of its comments. -/
theorem exists_writesAs (style : Style) (hsame : ∀ c ∈ layout.sameLine, isInlineBlank c = true)
    (hmax : 0 < layout.maxBreaks) (hold : Neat False old) :
    ∃ plain, WritesAs style layout (layout.writeFrom style true 0 true old) plain := by
  induction old with
  | nil =>
    rw [writeFrom]
    split
    · exact ⟨_, writesAs_blanks hsame⟩
    · next hcount =>
      obtain ⟨plain, -, hwrites⟩ := exists_writesAs_last style layout
        (show 0 < min (max 0 layout.minBreaks) layout.maxBreaks by omega)
      exact ⟨plain, hwrites⟩
  | cons t ts ih =>
    rw [writeFrom]
    cases hkind : t.kind with
    | newline =>
      obtain ⟨plain, -, hwrites⟩ :=
        exists_writesAs_of_break style hmax hold.2 (0 + 1) false (.inl ⟨Nat.one_pos, rfl⟩)
      exact ⟨plain, hwrites⟩
    | whitespace => exact ih hold.2
    | comment =>
      -- the comment stays on the line of the token before it
      obtain ⟨run, htext, hrun, hnext⟩ := hold.1.comment_text hkind
      obtain ⟨plain, -, hwrites⟩ := exists_writesAs_of_break style hmax hold.2 0 true (.inr hnext)
      have hblank : ∀ c ∈ [' '], isInlineBlank c = true := List.forall_mem_singleton.2 rfl
      refine ⟨[' '] ++ '#' :: run ++ plain, ?_⟩
      rw [htext]
      exact hwrites.comment hblank hrun

end Lines

end NginxConf
