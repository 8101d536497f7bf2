import NginxConf.Proofs.Lexeme.Partition
import NginxConf.Proofs.Token.Rows
import NginxConf.Token.Reader

/-!
# Tokens read one at a time

A reader of a text gives its tokens, and then bare ends for ever (`Reader.take_start`). It never
halts on a text that a file can hold. Of the pieces that the scanner finds, none is lost or read
twice, though there are two places where one can wait: what a scanner with a piece held back has
ahead is said by `PeekedScanner.Ahead`, and each operation takes from it what it hands out.
-/

namespace NginxConf

variable {m : Scanner} {p : PeekedScanner} {offset : Nat} {l : Lexeme} {ls : List Lexeme}

/-- A lexeme as a scanner finds it at an offset. -/
def Lexeme.found (l : Lexeme) (offset : Nat) : ScanToken :=
  .ofPlaced (l, ⟨offset, offset + l.size⟩)

/-! ## What is ahead -/

/-- A scanner has come to an offset, and these lexemes are left. -/
def Scanner.At (m : Scanner) (offset : Nat) (ls : List Lexeme) : Prop :=
  ∃ before, m.Within before [] ∧ Text.size before = offset ∧ lexFrom m.lexMode m.rest = ls

theorem Scanner.At.next_nil (h : m.At offset []) : m.next = .ok none := by
  obtain ⟨before, -, -, hls⟩ := h
  cases hstep : lexStep m.lexMode m.rest with
  | none => exact next_of_none hstep
  | some step =>
    rw [lexFrom_of_some hstep] at hls
    cases hls

theorem Scanner.At.next_cons (h : m.At offset (l :: ls)) :
    ∃ m', m.next = .ok (some (l.found offset, m')) ∧ m'.At (offset + l.size) ls ∧
      m'.weight < m.weight := by
  obtain ⟨before, hwithin, rfl, hls⟩ := h
  cases hstep : lexStep m.lexMode m.rest with
  | none =>
    rw [lexFrom_of_none hstep] at hls
    cases hls
  | some step =>
    rw [lexFrom_of_some hstep] at hls
    obtain ⟨rfl, hmore⟩ := List.cons.inj hls
    obtain ⟨m', hnext, hwithin', hrest, hmode⟩ := next_of_some hwithin hstep
    refine ⟨m', hnext, ⟨_, hwithin', Text.size_append _ _, ?_⟩, ?_⟩
    · rw [hrest, hmode, hmore]
    · rw [weight_eq, weight_eq, hrest, hmode]
      exact lexStep_weight hstep

namespace PeekedScanner

/-- From an offset on, these lexemes are to be handed out. -/
inductive Ahead : PeekedScanner → Nat → List Lexeme → Prop
  | scanning {m : Scanner} {offset : Nat} {ls : List Lexeme} (h : m.At offset ls) :
      Ahead ⟨m, none⟩ offset ls
  | held {m : Scanner} {offset : Nat} {l : Lexeme} {ls : List Lexeme}
      (h : m.At (offset + l.size) ls) : Ahead ⟨m, some (some (l.found offset))⟩ offset (l :: ls)
  | ended {m : Scanner} {offset : Nat} (h : m.At offset []) : Ahead ⟨m, some none⟩ offset []

namespace Ahead

theorem next_nil (h : p.Ahead offset []) :
    ∃ m, p.next = .ok (none, ⟨m, none⟩) ∧ m.At offset [] := by
  cases h with
  | @scanning m offset ls h => exact ⟨m, by rw [next, h.next_nil]; rfl, h⟩
  | @ended m offset h => exact ⟨m, rfl, h⟩

theorem next_cons (h : p.Ahead offset (l :: ls)) :
    ∃ m, p.next = .ok (some (l.found offset), ⟨m, none⟩) ∧ m.At (offset + l.size) ls ∧
      (⟨m, none⟩ : PeekedScanner).weight < p.weight := by
  cases h with
  | scanning h =>
    obtain ⟨m', hnext, hmore, hweight⟩ := h.next_cons
    exact ⟨m', by rw [next, hnext]; rfl, hmore, hweight⟩
  | held h => exact ⟨_, rfl, h, Nat.lt_succ_self _⟩

section NextIf

variable {α : Type} {select : ScanToken → Option α}

theorem nextIf_nil (h : p.Ahead offset []) :
    ∃ p', p.nextIf select = .ok (none, p') ∧ p'.Ahead offset [] := by
  obtain ⟨m, hnext, hmore⟩ := h.next_nil
  exact ⟨_, by rw [nextIf, hnext]; rfl, .ended hmore⟩

/-- A piece that is looked for is handed out. -/
theorem nextIf_of_some (h : p.Ahead offset (l :: ls)) {found : α}
    (hselect : select (l.found offset) = some found) :
    ∃ p', p.nextIf select = .ok (some found, p') ∧ p'.Ahead (offset + l.size) ls ∧
      p'.weight < p.weight := by
  obtain ⟨m, hnext, hmore, hweight⟩ := h.next_cons
  refine ⟨⟨m, none⟩, ?_, .scanning hmore, hweight⟩
  rw [nextIf, hnext]
  simp only [bind, Except.bind, hselect]
  rfl

/-- **A piece that is not looked for is held back**, and is handed out next. -/
theorem nextIf_of_none (h : p.Ahead offset (l :: ls)) (hselect : select (l.found offset) = none) :
    ∃ p', p.nextIf select = .ok (none, p') ∧ p'.Ahead offset (l :: ls) := by
  obtain ⟨m, hnext, hmore, -⟩ := h.next_cons
  refine ⟨_, ?_, .held hmore⟩
  rw [nextIf, hnext]
  simp only [bind, Except.bind, hselect]
  rfl

end NextIf

end Ahead

end PeekedScanner

/-! ## Tokens as they are read -/

/-- A piece of trivia without its text. -/
def Trivia.piece (t : Trivia) : TriviaPiece := ⟨t.kind, t.size⟩

/-- A token without its texts. -/
def PlacedToken.read (p : PlacedToken) : ReadToken :=
  ⟨p.token.leading.map Trivia.piece, p.token.kind, p.span, p.token.trailing.map Trivia.piece,
    p.fault⟩

theorem size_span_found (l : Lexeme) (offset : Nat) : (l.found offset).span.size = l.size :=
  Nat.add_sub_cancel_left offset l.size

namespace PeekedScanner

theorem splitTrailing_of_none (h : inlineTrivia? (l.found offset) = none) :
    splitTrailing (l :: ls) = ([], l :: ls) := by
  unfold inlineTrivia? at h
  rw [show (l.found offset).kind = l.kind from rfl] at h
  cases hkind : l.kind with
  | token kind => simp only [splitTrailing, hkind]
  | trivia kind =>
    rw [hkind] at h
    cases kind with
    | newline => simp only [splitTrailing, hkind]
    | whitespace | comment => cases h

theorem splitTrailing_of_some {piece : TriviaPiece} (ls : List Lexeme)
    (h : inlineTrivia? (l.found offset) = some piece) :
    ∃ t : Trivia, t.piece = piece ∧ t.size = l.size ∧
      splitTrailing (l :: ls) = (t :: (splitTrailing ls).1, (splitTrailing ls).2) := by
  unfold inlineTrivia? at h
  rw [show (l.found offset).kind = l.kind from rfl, size_span_found] at h
  cases hkind : l.kind with
  | token kind =>
    rw [hkind] at h
    cases h
  | trivia kind =>
    rw [hkind] at h
    refine ⟨⟨kind, l.text⟩, ?_, rfl, ?_⟩
    · cases kind <;> cases h <;> rfl
    · cases kind with
      | newline => cases h
      | whitespace | comment => simp only [splitTrailing, hkind]

/-- **The trivia behind a token is taken up to the end of its line.** -/
theorem Ahead.takeTrailing (h : p.Ahead offset ls) (trailing : List TriviaPiece) :
    ∃ p', p.takeTrailing trailing
        = .ok (trailing ++ (splitTrailing ls).1.map Trivia.piece, p') ∧
      p'.Ahead (offset + Trivia.sizeOf (splitTrailing ls).1) (splitTrailing ls).2 := by
  induction ls generalizing p offset trailing with
  | nil =>
    obtain ⟨p', hnext, hmore⟩ := h.nextIf_nil
    refine ⟨p', ?_, hmore⟩
    rw [PeekedScanner.takeTrailing, hnext, splitTrailing, List.map_nil, List.append_nil]
  | cons l ls ih =>
    -- a piece that does not end the line is taken, any other one is held back
    cases hselect : inlineTrivia? (l.found offset) with
    | none =>
      obtain ⟨p', hnext, hmore⟩ := h.nextIf_of_none hselect
      rw [PeekedScanner.takeTrailing, hnext, splitTrailing_of_none hselect]
      exact ⟨p', by rw [List.map_nil, List.append_nil], hmore⟩
    | some piece =>
      obtain ⟨p', hnext, hmore, hweight⟩ := h.nextIf_of_some hselect
      obtain ⟨t, rfl, hsize, hsplit⟩ := splitTrailing_of_some ls hselect
      obtain ⟨p'', htake, hmore'⟩ := ih hmore (trailing ++ [t.piece])
      refine ⟨p'', ?_, ?_⟩
      · rw [PeekedScanner.takeTrailing, hnext]
        simp only [if_pos hweight]
        rw [htake, hsplit, List.map_cons, List.append_assoc, List.singleton_append]
      · rw [hsplit, Trivia.sizeOf, hsize, ← Nat.add_assoc]
        exact hmore'

/-- **All trivia is taken before a token**, and the token, or the end of the text. -/
theorem Ahead.takeLeading (leading : List Trivia)
    (h : p.Ahead (offset + Trivia.sizeOf leading) ls) :
    (∃ more p', attachTrivia offset leading ls = ⟨[], ⟨.endOfFile more, offset, none⟩⟩ ∧
      p.takeLeading (leading.map Trivia.piece) = .ok (more.map Trivia.piece, none, p') ∧
      p'.Ahead (offset + Trivia.sizeOf more) []) ∨
    ∃ more kind l ls' p', l.kind = .token kind ∧
      attachTrivia offset leading ls = attachTrivia offset more (l :: ls') ∧
      p.takeLeading (leading.map Trivia.piece) = .ok (more.map Trivia.piece,
        some (kind, (l.found (offset + Trivia.sizeOf more)).span, l.fault), p') ∧
      p'.Ahead (offset + Trivia.sizeOf more + l.size) ls' := by
  induction ls generalizing p leading with
  | nil =>
    obtain ⟨m, hnext, hmore⟩ := h.next_nil
    refine .inl ⟨leading, ⟨m, none⟩, by rw [attachTrivia], ?_, .scanning hmore⟩
    rw [PeekedScanner.takeLeading, hnext]
  | cons l ls ih =>
    obtain ⟨m, hnext, hmore, hweight⟩ := h.next_cons
    cases hkind : l.kind with
    | token kind =>
      refine .inr ⟨leading, kind, l, ls, ⟨m, none⟩, hkind, rfl, ?_, .scanning hmore⟩
      rw [PeekedScanner.takeLeading, hnext]
      simp only [show (l.found (offset + Trivia.sizeOf leading)).kind = .token kind from hkind]
      rfl
    | trivia kind =>
      have hsize : offset + Trivia.sizeOf leading + l.size
          = offset + Trivia.sizeOf (leading ++ [⟨kind, l.text⟩]) := by
        rw [Trivia.sizeOf_append, ← Nat.add_assoc]
        rfl
      have hattach : attachTrivia offset leading (l :: ls)
          = attachTrivia offset (leading ++ [⟨kind, l.text⟩]) ls := by
        rw [attachTrivia]
        simp only [hkind]
      have htake : p.takeLeading (leading.map Trivia.piece) = PeekedScanner.takeLeading
          ((leading ++ [(⟨kind, l.text⟩ : Trivia)]).map Trivia.piece) ⟨m, none⟩ := by
        rw [PeekedScanner.takeLeading, hnext]
        simp only [show (l.found (offset + Trivia.sizeOf leading)).kind = .trivia kind from hkind,
          if_pos hweight, size_span_found, List.map_append]
        rfl
      rw [hsize] at hmore
      rw [hattach, htake]
      exact ih _ (.scanning hmore)

/-- **A token is taken with its trivia**, or the end of the text with what is left. -/
theorem Ahead.takeToken (h : p.Ahead offset ls) (stop : Nat) :
    (∃ leading p', attachTrivia offset [] ls = ⟨[], ⟨.endOfFile leading, offset, none⟩⟩ ∧
      p.takeToken stop = .ok (.endOfFile (leading.map Trivia.piece) stop, p') ∧
      p'.Ahead (offset + Trivia.sizeOf leading) []) ∨
    ∃ t ls' p', attachTrivia offset [] ls = ⟨t :: (attachTrivia t.fullSpan.stop [] ls').tokens,
        (attachTrivia t.fullSpan.stop [] ls').stop⟩ ∧
      p.takeToken stop = .ok (t.read, p') ∧ p'.Ahead t.fullSpan.stop ls' := by
  rcases Ahead.takeLeading [] h with
    ⟨leading, p', hattach, htake, hmore⟩ | ⟨leading, kind, l, ls', p', hkind, hattach, htake, hmore⟩
  · refine .inl ⟨leading, p', hattach, ?_, hmore⟩
    rw [PeekedScanner.takeToken, show p.takeLeading [] = _ from htake]
    rfl
  · obtain ⟨p'', htrailing, hrest⟩ := hmore.takeTrailing []
    refine .inr ⟨⟨⟨leading, kind, l.text, (splitTrailing ls').1⟩, offset, l.fault⟩,
      (splitTrailing ls').2, p'', ?_, ?_, ?_⟩
    · rw [hattach, attachTrivia]
      simp only [hkind]
      rfl
    · rw [PeekedScanner.takeToken, show p.takeLeading [] = _ from htake]
      simp only [bind, Except.bind, htrailing]
      rfl
    · have hstop : offset + Trivia.sizeOf leading + l.size + Trivia.sizeOf (splitTrailing ls').1
          = offset + (Trivia.sizeOf leading + Text.size l.text
            + Trivia.sizeOf (splitTrailing ls').1) := by
        rw [Lexeme.size, Nat.add_assoc, Nat.add_assoc, Nat.add_assoc]
      rw [hstop] at hrest
      exact hrest

end PeekedScanner

/-! ## Reading on -/

namespace Reader

variable {m m' : Reader} {first : ReadToken} {tokens : List ReadToken} {n k : Nat}

/-- A reader has a token at hand, and these lexemes are left from an offset on. -/
structure At (m : Reader) (first : ReadToken) (offset : Nat) (ls : List Lexeme) : Prop where
  current : m.current = first
  ahead : m.pieces.Ahead offset ls
  stop : m.stop = offset + Text.size (ls.flatMap Lexeme.text)

theorem take_succ {token : ReadToken} (h : m.next = .ok (token, m'))
    (htake : m'.take n = .ok tokens) :
    m.take (n + 1) = .ok (token :: tokens) := by
  rw [take, h]
  simp only [bind, Except.bind, htake]
  rfl

/-- The bytes that are left are those of the tokens that are left. -/
theorem size_attachTrivia (offset : Nat) (ls : List Lexeme) :
    Text.size (ls.flatMap Lexeme.text)
      = Text.size ((attachTrivia offset [] ls).all.flatMap (·.token.fullText)) := by
  rw [text_attachTrivia]
  rfl

/-- At the end of a text, the trivia left over is all that is left. -/
theorem size_of_end {leading : List Trivia}
    (h : attachTrivia offset [] ls = ⟨[], ⟨.endOfFile leading, offset, none⟩⟩) :
    Text.size (ls.flatMap Lexeme.text) = Trivia.sizeOf leading := by
  rw [size_attachTrivia offset ls, h]
  simp [TokenStream.all, Token.size_fullText, Token.fullSize, Token.leadingSize, Token.endOfFile,
    Token.size, Trivia.sizeOf]

/-- What is left behind a token goes on from where its trivia ends. -/
theorem size_of_token {t : PlacedToken} {ls' : List Lexeme}
    (h : attachTrivia offset [] ls = ⟨t :: (attachTrivia t.fullSpan.stop [] ls').tokens,
      (attachTrivia t.fullSpan.stop [] ls').stop⟩) :
    offset + Text.size (ls.flatMap Lexeme.text)
      = t.fullSpan.stop + Text.size (ls'.flatMap Lexeme.text) := by
  have hoffset : t.offset = offset := by
    have htile := tile_attachTrivia offset [] ls
    rw [h] at htile
    exact htile.1
  rw [size_attachTrivia offset ls, h, size_attachTrivia t.fullSpan.stop ls']
  simp only [TokenStream.all, List.cons_append, List.flatMap_cons, Text.size_append,
    Token.size_fullText, PlacedToken.fullSpan, hoffset, Nat.add_assoc]

theorem next_of_takeToken {token : ReadToken} {p' : PeekedScanner}
    (h : m.pieces.takeToken m.stop = .ok (token, p')) :
    m.next = .ok (m.current, ⟨p', m.stop, token⟩) := by
  rw [next, h]
  rfl

/-- **The token at hand is handed out, and the next one is found.** -/
theorem At.next (h : m.At first offset ls) :
    (∃ stop m', attachTrivia offset [] ls = ⟨[], stop⟩ ∧ m.next = .ok (first, m') ∧
      m'.stop = m.stop ∧ m'.At stop.read m.stop []) ∨
    ∃ t ls' m', attachTrivia offset [] ls = ⟨t :: (attachTrivia t.fullSpan.stop [] ls').tokens,
        (attachTrivia t.fullSpan.stop [] ls').stop⟩ ∧
      m.next = .ok (first, m') ∧ m'.stop = m.stop ∧ m'.At t.read t.fullSpan.stop ls' := by
  obtain ⟨rfl, hahead, hstop⟩ := h
  rcases hahead.takeToken m.stop with
    ⟨leading, p', hattach, htake, hmore⟩ | ⟨t, ls', p', hattach, htake, hmore⟩
  · have hsize : m.stop = offset + Trivia.sizeOf leading := by rw [hstop, size_of_end hattach]
    have hread : PlacedToken.read ⟨.endOfFile leading, offset, none⟩
        = .endOfFile (leading.map Trivia.piece) m.stop := by
      rw [hsize]
      rfl
    rw [← hread] at htake
    rw [← hsize] at hmore
    exact .inl ⟨_, _, hattach, next_of_takeToken htake, rfl, rfl, hmore, rfl⟩
  · exact .inr ⟨t, ls', _, hattach, next_of_takeToken htake, rfl, rfl, hmore,
      hstop.trans (size_of_token hattach)⟩

/-- After the end of the text, only bare ends are read. -/
theorem At.take_end (h : m.At first m.stop []) (k : Nat) :
    m.take (k + 1) = .ok (first :: List.replicate k (.endOfFile [] m.stop)) := by
  have hnil : attachTrivia m.stop [] [] = ⟨[], .bareEnd m.stop⟩ := by
    rw [attachTrivia]
    rfl
  induction k generalizing m first with
  | zero =>
    rcases h.next with ⟨stop, m', -, hnext, -⟩ | ⟨t, ls', m', -, hnext, -⟩ <;>
      exact take_succ hnext rfl
  | succ k ih =>
    rcases h.next with ⟨stop, m', hattach, hnext, hstop, hmore⟩ | ⟨t, ls', m', hattach, -⟩
    · rw [hnil] at hattach
      cases hattach
      rw [← hstop] at hmore hnil
      have htake := take_succ hnext (ih hmore hnil)
      rw [hstop] at htake
      exact htake
    · rw [hnil] at hattach
      cases hattach

/-- **A reader reads the tokens that are left**, and then bare ends. -/
theorem At.take_eq (h : m.At first offset ls) {tokens : List PlacedToken} {stop : PlacedToken}
    (hstream : attachTrivia offset [] ls = ⟨tokens, stop⟩) (k : Nat) :
    m.take (tokens.length + k + 2) = .ok (first :: (tokens.map PlacedToken.read ++
      stop.read :: List.replicate k (.endOfFile [] m.stop))) := by
  induction tokens generalizing m first offset ls with
  | nil =>
    rcases h.next with ⟨stop', m', hattach, hnext, hstop, hmore⟩ | ⟨t, ls', m', hattach, -⟩
    · rw [hstream] at hattach
      cases hattach
      rw [← hstop] at hmore ⊢
      rw [List.length_nil, Nat.zero_add]
      exact take_succ hnext (hmore.take_end k)
    · rw [hstream] at hattach
      cases hattach
  | cons t ts ih =>
    rcases h.next with ⟨stop', m', hattach, -⟩ | ⟨t', ls', m', hattach, hnext, hstop, hmore⟩
    · rw [hstream] at hattach
      cases hattach
    · rw [hstream] at hattach
      simp only [TokenStream.mk.injEq, List.cons.injEq] at hattach
      obtain ⟨⟨rfl, htokens⟩, hend⟩ := hattach
      have htake := ih hmore (TokenStream.mk.injEq .. ▸ ⟨htokens.symm, hend.symm⟩)
      rw [List.length_cons, show ts.length + 1 + k + 2 = (ts.length + k + 2) + 1 by omega,
        ← hstop]
      exact take_succ hnext htake

theorem of_take_succ {token : ReadToken} (h : m.next = .ok (token, m'))
    (htake : m.take (n + 1) = .ok (token :: tokens)) : m'.take n = .ok tokens := by
  rw [take, h] at htake
  simp only [bind, Except.bind] at htake
  cases hmore : m'.take n with
  | error halt =>
    rw [hmore] at htake
    cases htake
  | ok tokens' =>
    rw [hmore] at htake
    cases htake
    rfl

/-- **A reader of a text reads its tokens**, and then bare ends. -/
theorem take_start {s : Text} (hs : Text.size s < Overflow.offsetBound) :
    ∃ m, start s = .ok m ∧ ∀ k, m.take ((tokenize s).tokens.length + 1 + k)
      = .ok ((tokenize s).tokens.map PlacedToken.read ++
          (tokenize s).stop.read :: List.replicate k (.endOfFile [] (Text.size s))) := by
  have hscanner : Scanner.startAt s 0 = .ok ⟨s, s, Text.size s, .normal, 0⟩ := by
    rw [Scanner.startAt, show Scanner.cut s 0 = .ok ([], s) from Scanner.cut_append [] s]
    simp only [bind, Except.bind, Scanner.byteCount_eq hs]
    rfl
  -- before the first token is found, the reader has a bare end at hand
  have hbefore : (⟨⟨⟨s, s, Text.size s, .normal, 0⟩, none⟩, Text.size s, .endOfFile [] 0⟩
      : Reader).At (.endOfFile [] 0) 0 (lex s) := by
    refine ⟨rfl, .scanning ⟨[], ⟨rfl, rfl, hs, ?_⟩, rfl, rfl⟩, ?_⟩
    · simpa using hs
    · rw [show (lex s).flatMap Lexeme.text = s from flatMap_text_lexFrom .normal s, Nat.zero_add]
  obtain ⟨m, hnext⟩ : ∃ m, Reader.next ⟨⟨⟨s, s, Text.size s, .normal, 0⟩, none⟩, Text.size s,
      .endOfFile [] 0⟩ = .ok (.endOfFile [] 0, m) := by
    rcases hbefore.next with ⟨_, m, -, hnext, -⟩ | ⟨_, _, m, -, hnext, -⟩ <;> exact ⟨m, hnext⟩
  refine ⟨m, ?_, fun k => of_take_succ hnext ?_⟩
  · rw [start, hscanner]
    simp only [bind, Except.bind, Scanner.byteCount_eq hs, hnext]
    rfl
  · rw [show (tokenize s).tokens.length + 1 + k + 1 = (tokenize s).tokens.length + k + 2 by omega]
    exact hbefore.take_eq rfl k

end Reader

end NginxConf
