import NginxConf.Proofs.Token.Reader
import NginxConf.Proofs.Token.Splice

/-!
# The pieces of a text, regrouped

A scan gives the pieces of a text one by one, a reader gives them as tokens with their trivia. These
are the same pieces: the kind, the number of bytes and the fault of each are kept, and so is their
order (`reader_regroups`). A reader begins on the texts that a scan begins on.
-/

namespace NginxConf

/-- What a piece of a text is, apart from where it stands. -/
abbrev PieceData := LeafKind × Nat × Option LexFault

def Lexeme.data (l : Lexeme) : PieceData := (l.kind, l.size, l.fault)

def ScanToken.data (t : ScanToken) : PieceData := (t.kind, t.span.size, t.fault)

def TriviaPiece.data (p : TriviaPiece) : PieceData := (.trivia p.kind, p.size, none)

/-- A token with its trivia, piece by piece. The end of a text is no piece of it. -/
def ReadToken.data (t : ReadToken) : List PieceData :=
  t.leading.map TriviaPiece.data ++
    ((if t.kind = .endOfFile then [] else [(.token t.kind, t.span.size, t.fault)]) ++
      t.trailing.map TriviaPiece.data)

/-- The pieces that a scan has found in a text, regrouped as tokens with their trivia, and as the
end of the text with the trivia left over. -/
structure Regrouped (s : Text) (pieces : List ScanToken) (tokens : List ReadToken)
    (stop : ReadToken) : Prop where
  data_eq : (tokens ++ [stop]).flatMap ReadToken.data = pieces.map ScanToken.data
  /-- With their trivia, the tokens tile the text. -/
  tiled : ∃ spans, (tokens ++ [stop]).mapM ReadToken.fullSpan = .ok spans ∧
    Span.Adjoin 0 spans (Text.size s)
  trailing : ∀ t ∈ tokens, ∀ p ∈ t.trailing, p.kind = .whitespace ∨ p.kind = .comment
  /-- Before each token but the first one, trivia begins with a line break. -/
  leading : ∀ t ∈ (tokens ++ [stop]).tail, ∀ p ∈ t.leading.head?, p.kind = .newline
  ne_endOfFile : ∀ t ∈ tokens, t.kind ≠ .endOfFile
  /-- The end is empty, stands where the text ends, and has no trivia behind it. -/
  stop_eq : stop = .endOfFile stop.leading (Text.size s)

variable {s : Text} {ls : List Lexeme} {ps : List PlacedToken}

/-! ## Each piece is kept -/

theorem data_ofPlaced (offset : Nat) (ls : List Lexeme) :
    ((placeLexemes offset ls).map ScanToken.ofPlaced).map ScanToken.data = ls.map Lexeme.data := by
  induction ls generalizing offset with
  | nil => rfl
  | cons l ls ih =>
    rw [placeLexemes, List.map_cons, List.map_cons, ih, List.map_cons]
    congr 1
    exact congrArg (fun size => (l.kind, size, l.fault)) (size_span_found l offset)

/-- Trivia is not faulty. -/
theorem Lexeme.Shaped.data_of_trivia {l : Lexeme} (h : l.Shaped) {kind : TriviaKind}
    (hkind : l.kind = .trivia kind) : l.data = TriviaPiece.data (Trivia.piece ⟨kind, l.text⟩) := by
  have hfault : l.fault = none := by
    cases hf : l.fault with
    | none => rfl
    | some fault =>
      have := h.isFaulty_iff.1 (by rw [hf]; rfl)
      rw [hkind] at this
      cases this
  rw [Lexeme.data, hkind, hfault]
  rfl

theorem data_splitTrailing (hls : ∀ l ∈ ls, l.Shaped) :
    ((splitTrailing ls).1.map Trivia.piece).map TriviaPiece.data
      ++ (splitTrailing ls).2.map Lexeme.data = ls.map Lexeme.data := by
  induction ls with
  | nil => rfl
  | cons l ls ih =>
    rw [List.forall_mem_cons] at hls
    unfold splitTrailing
    split
    · rfl
    · next kind hne hkind =>
      rw [List.map_cons, List.map_cons, List.cons_append, ih hls.2, List.map_cons,
        hls.1.data_of_trivia hkind]
    · rfl

theorem data_read {p : PlacedToken} (h : p.token.kind ≠ .endOfFile) :
    p.read.data = (p.token.leading.map Trivia.piece).map TriviaPiece.data ++
      ((.token p.token.kind, p.token.size, p.fault) ::
        (p.token.trailing.map Trivia.piece).map TriviaPiece.data) := by
  have hsize : p.read.span.size = p.token.size := Nat.add_sub_cancel_left _ _
  rw [ReadToken.data, if_neg (show p.read.kind ≠ _ from h), hsize]
  rfl

/-- **Tokens with their trivia are all pieces**, in their order. -/
theorem data_attachTrivia (offset : Nat) (leading : List Trivia) (hls : ∀ l ∈ ls, l.Shaped) :
    ((attachTrivia offset leading ls).all.map PlacedToken.read).flatMap ReadToken.data
      = (leading.map Trivia.piece).map TriviaPiece.data ++ ls.map Lexeme.data := by
  fun_induction attachTrivia offset leading ls with
  | case1 offset leading =>
    simp [TokenStream.all, ReadToken.data, PlacedToken.read, Token.endOfFile]
  | case2 offset leading l ls kind hkind ih =>
    rw [List.forall_mem_cons] at hls
    rw [ih hls.2, List.map_cons, hls.1.data_of_trivia hkind]
    simp only [List.map_append, List.append_assoc]
    rfl
  | case3 offset leading l ls kind hkind token more ih =>
    rw [List.forall_mem_cons] at hls
    have hrest : ∀ l ∈ (splitTrailing ls).2, l.Shaped :=
      fun l hl => hls.2 l ((splitTrailing_suffix ls).subset hl)
    have hend : kind ≠ .endOfFile := by
      rintro rfl
      exact hls.1.not_endOfFile hkind
    have hmore := ih hrest
    have htoken : l.data = (.token kind, l.size, l.fault) := by rw [Lexeme.data, hkind]
    simp only [TokenStream.all] at hmore ⊢
    rw [List.cons_append, List.map_cons, List.flatMap_cons, hmore, data_read hend, List.map_cons,
      htoken, ← data_splitTrailing hls.2]
    simp only [List.map_nil, List.nil_append, List.append_assoc, List.cons_append]
    rfl

/-! ## Ranges -/

theorem sizeOf_map_piece {ts : List Trivia} (h : Trivia.sizeOf ts < Overflow.offsetBound) :
    TriviaPiece.sizeOf (ts.map Trivia.piece) = .ok (Trivia.sizeOf ts) := by
  have hfold : ∀ n, n + Trivia.sizeOf ts < Overflow.offsetBound →
      (ts.map Trivia.piece).foldlM (fun size p => ScanHalt.add size p.size) n
        = .ok (n + Trivia.sizeOf ts) := by
    clear h
    induction ts with
    | nil => exact fun n _ => rfl
    | cons t ts ih =>
      intro n hn
      rw [Trivia.sizeOf] at hn ⊢
      have hadd : ScanHalt.add n (Trivia.piece t).size = .ok (n + t.size) :=
        if_pos (show n + t.size < _ by omega)
      rw [List.map_cons, List.foldlM_cons, hadd, ← Nat.add_assoc]
      exact ih (n + t.size) (by omega)
  have hall := hfold 0 (by omega)
  rwa [Nat.zero_add] at hall

/-- The range of a token with its trivia is computed from that without. -/
theorem fullSpan_read {p : PlacedToken} (h : p.fullSpan.stop < Overflow.offsetBound) :
    p.read.fullSpan = .ok p.fullSpan := by
  have hbound : p.offset + p.token.fullSize < Overflow.offsetBound := h
  rw [Token.fullSize, Token.leadingSize] at hbound
  have hstart : p.read.fullStart = .ok p.offset := by
    have hsub : ScanHalt.sub (p.offset + p.token.leadingSize) (Trivia.sizeOf p.token.leading)
        = .ok p.offset := by
      rw [Token.leadingSize, ScanHalt.sub, if_pos (Nat.le_add_left _ _), Nat.add_sub_cancel]
    rw [ReadToken.fullStart,
      show TriviaPiece.sizeOf p.read.leading = _ from sizeOf_map_piece (by omega)]
    exact hsub
  have hstop : p.read.fullStop = .ok (p.offset + p.token.fullSize) := by
    have hadd : ScanHalt.add (p.offset + p.token.leadingSize + p.token.size)
        (Trivia.sizeOf p.token.trailing) = .ok (p.offset + p.token.fullSize) := by
      rw [Token.leadingSize, ScanHalt.add, if_pos (by omega), Token.fullSize, Token.leadingSize]
      congr 1
      omega
    rw [ReadToken.fullStop,
      show TriviaPiece.sizeOf p.read.trailing = _ from sizeOf_map_piece (by omega)]
    exact hadd
  rw [ReadToken.fullSpan, hstart, hstop]
  rfl

/-- **Tokens in a row have ranges that adjoin.** -/
theorem tiled_of_tile {start stop : Nat} (h : Tile start ps stop)
    (hstop : stop < Overflow.offsetBound) :
    (ps.map PlacedToken.read).mapM ReadToken.fullSpan = .ok (ps.map PlacedToken.fullSpan) ∧
      Span.Adjoin start (ps.map PlacedToken.fullSpan) stop := by
  induction ps generalizing start with
  | nil => exact ⟨rfl, h⟩
  | cons p ps ih =>
    obtain ⟨rfl, hmore⟩ := h
    obtain ⟨hspans, hadjoin⟩ := ih hmore
    have hle := hmore.between.1
    refine ⟨?_, rfl, hadjoin⟩
    rw [List.map_cons, List.mapM_cons, fullSpan_read (Nat.lt_of_le_of_lt hle hstop), hspans]
    rfl

/-! ## Whole texts -/

/-- **The tokens of a text are its pieces, regrouped.** -/
theorem regrouped_tokenize (hs : Text.size s < Overflow.offsetBound) :
    Regrouped s ((placeLexemes 0 (lex s)).map ScanToken.ofPlaced)
      ((tokenize s).tokens.map PlacedToken.read) (tokenize s).stop.read := by
  have hall : (tokenize s).tokens.map PlacedToken.read ++ [(tokenize s).stop.read]
      = (tokenize s).all.map PlacedToken.read := by
    rw [TokenStream.all, List.map_append]
    rfl
  constructor
  · rw [hall, data_ofPlaced]
    exact data_attachTrivia 0 [] fun l hl => lexFrom_shaped hl
  · rw [hall]
    exact ⟨_, tiled_of_tile (tile_tokenize s) hs⟩
  · intro t ht x hx
    obtain ⟨p, hp, rfl⟩ := List.mem_map.1 ht
    obtain ⟨y, hy, rfl⟩ := List.mem_map.1 hx
    have hne := newline_notMem_trailing 0 [] (lex s) p (List.mem_append_left _ hp) y hy
    show y.kind = _ ∨ y.kind = _
    cases hkind : y.kind with
    | newline => exact absurd hkind hne
    | whitespace => exact .inl rfl
    | comment => exact .inr rfl
  · rw [hall, ← List.map_tail]
    intro t ht x hx
    obtain ⟨p, hp, rfl⟩ := List.mem_map.1 ht
    obtain ⟨y, hy, rfl⟩ := Option.map_eq_some_iff.1 (List.head?_map ▸ hx)
    exact newline_leading_tail 0 [] (lex s) p hp y hy
  · intro t ht
    obtain ⟨p, hp, rfl⟩ := List.mem_map.1 ht
    exact (tokenize_shaped hp).not_endOfFile
  · -- the end reaches to where the text ends
    have hend : (tokenize s).stop = .endAt _ _ := stop_eq_endAt 0 [] (lex s)
    obtain ⟨middle, -, hoffset, hstop⟩ := (tile_tokenize s).append
    rw [← hoffset] at hstop
    rw [← show _ = Text.size s from hstop, hend]
    rfl

/--
**A reader regroups the pieces of a text.** From a text that a file can hold it gives tokens up to
the end of the text, then the end with the trivia left over, and then bare ends for ever; these are
the pieces that a scan finds. On a longer text neither of them begins.
-/
theorem reader_regroups (s : Text) :
    (Text.size s < Overflow.offsetBound → ∃ pieces m tokens stop,
      scanFrom s 0 = .ok pieces ∧ Reader.start s = .ok m ∧
      (∀ k, m.take (tokens.length + 1 + k)
        = .ok (tokens ++ stop :: List.replicate k (.endOfFile [] (Text.size s)))) ∧
      Regrouped s pieces tokens stop) ∧
    (Overflow.offsetBound ≤ Text.size s →
      scanFrom s 0 = .error .overflow ∧ Reader.start s = .error .overflow) := by
  refine ⟨fun hs => ?_, fun hs => ?_⟩
  · have hscan : scanFrom s 0 = .ok ((placeLexemes 0 (lex s)).map ScanToken.ofPlaced) :=
      scanFrom_eq hs (lexAfter?_append [] s)
    obtain ⟨m, hstart, htake⟩ := Reader.take_start hs
    refine ⟨_, m, _, _, hscan, hstart, fun k => ?_, regrouped_tokenize hs⟩
    rw [List.length_map]
    exact htake k
  · -- the number of bytes does not fit
    have hcount : Scanner.byteCount s = .error .overflow := by
      rw [Scanner.byteCount, ScanHalt.add, Nat.zero_add, if_neg (Nat.not_lt.2 hs)]
    have hstart : Scanner.startAt s 0 = .error .overflow := by
      rw [Scanner.startAt, show Scanner.cut s 0 = .ok ([], s) from Scanner.cut_append [] s]
      simp only [bind, Except.bind, hcount]
    refine ⟨?_, ?_⟩
    · rw [scanFrom, hstart]
      rfl
    · rw [Reader.start, hstart]
      rfl

/-- A comment behind a word, a line break before the next word, and no script where one is due; and
a text that is too long. -/
theorem reader_regroups_missing_script :
    (Text.size "é # è\n a_by_lua_block \x7b".toList < Overflow.offsetBound ∧
      ∃ pieces m tokens stop, scanFrom "é # è\n a_by_lua_block \x7b".toList 0 = .ok pieces ∧
        Reader.start "é # è\n a_by_lua_block \x7b".toList = .ok m ∧
        (∀ k, m.take (tokens.length + 1 + k) = .ok (tokens ++ stop :: List.replicate k
          (.endOfFile [] (Text.size "é # è\n a_by_lua_block \x7b".toList)))) ∧
        Regrouped "é # è\n a_by_lua_block \x7b".toList pieces tokens stop) ∧
    Overflow.offsetBound ≤ Text.size (List.replicate Overflow.offsetBound 'a') ∧
      scanFrom (List.replicate Overflow.offsetBound 'a') 0 = .error .overflow ∧
      Reader.start (List.replicate Overflow.offsetBound 'a') = .error .overflow := by
  have hlong : Overflow.offsetBound ≤ Text.size (List.replicate Overflow.offsetBound 'a') := by
    rw [Text.size_replicate]
    exact Nat.le_mul_of_pos_right _ (Char.utf8Size_pos 'a')
  exact ⟨⟨by decide, (reader_regroups _).1 (by decide)⟩, hlong, (reader_regroups _).2 hlong⟩

end NginxConf
