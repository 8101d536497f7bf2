import NginxConf.Proofs.Format.Gaps
import NginxConf.Proofs.Format.Starts

/-!
# A written file, row by row

A file is written as rows: its tokens, each with the pieces that are written before it
(`NodeRef.writtenRows`). Where each comment ends its line, the rows are those of the file with other
trivia between them, in the sense of the lexer (`exists_relaid`).
-/

namespace NginxConf

open Trivia

/-! ## Comments that end their lines -/

/-- No comment has anything behind it on its line. -/
def CommentsEnd : List Lexeme → Prop
  | [] => True
  | l :: ls => (l.kind = .trivia .comment → (ls.flatMap Lexeme.text).head?.all isLineEnd = true) ∧
      CommentsEnd ls

instance decidableCommentsEnd : (ls : List Lexeme) → Decidable (CommentsEnd ls)
  | [] => .isTrue trivial
  | _ :: ls => @instDecidableAnd _ _ inferInstance (decidableCommentsEnd ls)

namespace Row

/-- Comments end their lines in the gap of each row, where such a text follows the rows. -/
def AllEnded (next : Text) : List Row → Prop
  | [] => True
  | r :: rows => Ended (r.text ++ (textOf rows ++ next)) r.trivia ∧ AllEnded next rows

theorem textOf_append (rows more : List Row) : textOf (rows ++ more) = textOf rows ++ textOf more :=
  List.flatMap_append

theorem lexemesOf_append (rows more : List Row) :
    lexemesOf (rows ++ more) = lexemesOf rows ++ lexemesOf more := List.flatMap_append

theorem allEnded_append {next : Text} {rows more : List Row} : AllEnded next (rows ++ more)
    ↔ AllEnded (textOf more ++ next) rows ∧ AllEnded next more := by
  induction rows with
  | nil => simp [AllEnded]
  | cons r rows ih =>
    rw [List.cons_append, AllEnded, AllEnded, ih, textOf_append, List.append_assoc, and_assoc]

theorem allPlaced_append {next : Text} {rows more : List Row} : AllPlaced next (rows ++ more)
    ↔ AllPlaced (textOf more ++ next) rows ∧ AllPlaced next more := by
  induction rows with
  | nil => simp [AllPlaced]
  | cons r rows ih =>
    rw [List.cons_append, AllPlaced, AllPlaced, ih, textOf_append, List.append_assoc, and_assoc]

/-- Comments end their lines if they do in each gap. -/
theorem commentsEnd_lexemesOf {rows : List Row} : CommentsEnd (lexemesOf rows) ↔ AllEnded [] rows := by
  have htrivia : ∀ (ts : List Trivia) (ls : List Lexeme), CommentsEnd (ts.map Trivia.lexeme ++ ls)
      ↔ Ended (ls.flatMap Lexeme.text) ts ∧ CommentsEnd ls := by
    intro ts ls
    induction ts with
    | nil => exact ⟨fun h => ⟨trivial, h⟩, And.right⟩
    | cons t ts ih =>
      rw [List.map_cons, List.cons_append, CommentsEnd, Ended, ih, and_assoc, List.flatMap_append,
        List.flatMap_map]
      simp only [Trivia.lexeme, Lexeme.trivia, LeafKind.trivia.injEq, Option.all_eq_true]
      rfl
  induction rows with
  | nil => exact Iff.rfl
  | cons r rows ih =>
    rw [lexemesOf_cons, htrivia, List.flatMap_cons, flatMap_text_lexemesOf, CommentsEnd, AllEnded,
      List.append_nil]
    simp [Lexeme.token, ih]

/-- What of a row does not depend on how blanks are cut. -/
def gist (r : Row) : Text × List Text × TokenKind × Text :=
  (Trivia.textOf r.trivia, comments r.trivia, r.kind, r.text)

theorem textOf_eq_of_gist {rows rows' : List Row} (h : rows'.map gist = rows.map gist) :
    textOf rows' = textOf rows := by
  have htext : ∀ rows : List Row,
      textOf rows = (rows.map gist).flatMap fun g => g.1 ++ g.2.2.2 := by
    intro rows
    rw [List.flatMap_map]
    rfl
  rw [htext, htext, h]

end Row

/-! ## What is written -/

namespace NodeRef

variable {style : Style} {starts : List Nat}

/-- Tokens with the pieces that are written before each. -/
def writtenRows (style : Style) (starts : List Nat) (previous : Option TokenRef) :
    List TokenRef → List Row
  | [] => []
  | t :: ts =>
    let (gap, trivia) := gapBefore style starts previous t
    ⟨gap.pieces style previous.isSome trivia, t.token.kind, t.token.text⟩
      :: writtenRows style starts (some t) ts

/-- What is written for a node, piece by piece. -/
def written (style : Style) (n : NodeRef) : List Lexeme :=
  Row.lexemesOf (writtenRows style n.itemStarts none n.allTokens)

/-- The text of the rows is the text that is written. -/
theorem textOf_writtenRows (previous : Option TokenRef) (ts : List TokenRef) :
    Row.textOf (writtenRows style starts previous ts) = writeTokens style starts previous ts := by
  induction ts generalizing previous with
  | nil => rfl
  | cons t ts ih =>
    simp only [writtenRows, writeTokens, Row.textOf_cons, ih, Gap.textOf_pieces, List.append_assoc]

/-- The last of some tokens, or the one before them if there are none. -/
def lastOf (previous : Option TokenRef) (ts : List TokenRef) : Option TokenRef :=
  ts.getLast?.or previous

@[simp]
theorem lastOf_nil (previous : Option TokenRef) : lastOf previous [] = previous := rfl

@[simp]
theorem lastOf_cons (previous : Option TokenRef) (t : TokenRef) (ts : List TokenRef) :
    lastOf previous (t :: ts) = lastOf (some t) ts := by
  cases ts with
  | nil => rfl
  | cons u us => rw [lastOf, lastOf, List.getLast?_cons_cons, List.getLast?_cons]; rfl

theorem lastOf_append (previous : Option TokenRef) (ss ts : List TokenRef) :
    lastOf previous (ss ++ ts) = lastOf (lastOf previous ss) ts := by
  induction ss generalizing previous with
  | nil => rfl
  | cons s ss ih => rw [List.cons_append, lastOf_cons, lastOf_cons, ih]

theorem exists_lastOf (t : TokenRef) (ts : List TokenRef) :
    ∃ p ∈ t :: ts, lastOf (some t) ts = some p := by
  induction ts generalizing t with
  | nil => exact ⟨t, List.mem_cons_self, rfl⟩
  | cons u us ih =>
    obtain ⟨p, hp, hlast⟩ := ih u
    exact ⟨p, List.mem_cons_of_mem _ hp, by rw [lastOf_cons, hlast]⟩

theorem mem_of_mem_lastOf {p : TokenRef} {ts : List TokenRef} (h : p ∈ lastOf none ts) : p ∈ ts := by
  rw [lastOf, Option.or_none] at h
  exact List.mem_of_getLast? h

theorem writtenRows_append (previous : Option TokenRef) (ss ts : List TokenRef) :
    writtenRows style starts previous (ss ++ ts)
      = writtenRows style starts previous ss ++ writtenRows style starts (lastOf previous ss) ts := by
  induction ss generalizing previous with
  | nil => rfl
  | cons s ss ih => rw [List.cons_append, writtenRows, writtenRows, ih, lastOf_cons]; rfl

/-- All trivia between the token before and a token. -/
def triviaBefore (previous : Option TokenRef) : List Trivia :=
  previous.elim [] (·.token.trailing)

theorem writtenRows_cons (previous : Option TokenRef) (t : TokenRef) (ts : List TokenRef) :
    writtenRows style starts previous (t :: ts)
      = ⟨(gapBefore style starts previous t).1.pieces style previous.isSome
          (triviaBefore previous ++ t.token.leading), t.token.kind, t.token.text⟩
        :: writtenRows style starts (some t) ts := by
  cases previous <;> rfl

theorem writeTokens_cons (style : Style) (starts : List Nat) (previous : Option TokenRef)
    (t : TokenRef) (ts : List TokenRef) : writeTokens style starts previous (t :: ts)
      = (gapBefore style starts previous t).1.write style previous.isSome
          (triviaBefore previous ++ t.token.leading)
        ++ t.token.text ++ writeTokens style starts (some t) ts := by
  cases previous <;> rfl

theorem writeTokens_append (previous : Option TokenRef) (ss ts : List TokenRef) :
    writeTokens style starts previous (ss ++ ts)
      = writeTokens style starts previous ss
        ++ writeTokens style starts (lastOf previous ss) ts := by
  rw [← textOf_writtenRows, writtenRows_append, Row.textOf_append, textOf_writtenRows,
    textOf_writtenRows]

/-- Tokens with the trivia that stood before each. -/
def oldRows (previous : Option TokenRef) (ts : List TokenRef) : List Row :=
  Token.rows (triviaBefore previous) (ts.map TokenRef.token)

theorem oldRows_cons (previous : Option TokenRef) (t : TokenRef) (ts : List TokenRef) :
    oldRows previous (t :: ts)
      = ⟨triviaBefore previous ++ t.token.leading, t.token.kind, t.token.text⟩
        :: oldRows (some t) ts := rfl

theorem oldRows_append (previous : Option TokenRef) (ss ts : List TokenRef) :
    oldRows previous (ss ++ ts) = oldRows previous ss ++ oldRows (lastOf previous ss) ts := by
  induction ss generalizing previous with
  | nil => rfl
  | cons s ss ih => rw [List.cons_append, oldRows_cons, oldRows_cons, ih, lastOf_cons]; rfl

theorem length_writtenRows (previous : Option TokenRef) (ts : List TokenRef) :
    (writtenRows style starts previous ts).length = ts.length := by
  induction ts generalizing previous with
  | nil => rfl
  | cons t ts ih => rw [writtenRows_cons, List.length_cons, List.length_cons, ih]

theorem length_oldRows (previous : Option TokenRef) (ts : List TokenRef) :
    (oldRows previous ts).length = ts.length := by
  induction ts generalizing previous with
  | nil => rfl
  | cons t ts ih => rw [oldRows_cons, List.length_cons, List.length_cons, ih]

/-- A gap that is written as nothing has no comment. -/
theorem comments_of_nothing {previous : Option TokenRef} {t : TokenRef}
    (h : (gapBefore style starts previous t).1 = .nothing) :
    comments (triviaBefore previous ++ t.token.leading) = [] := by
  cases previous with
  | none => cases h
  | some p =>
    rcases Gap.between_cases style starts (p.token.trailing ++ t.token.leading) p t with
      ⟨layout, hgap, -⟩ | ⟨-, -, -, hbreak⟩ | ⟨hgap, -⟩
    · cases hgap.symm.trans h
    · exact comments_of_hasBreak hbreak
    · cases hgap.symm.trans h

/-- What is written in a gap has the comments of the gap. -/
theorem comments_gapBefore (style : Style) (starts : List Nat) (previous : Option TokenRef)
    (t : TokenRef) : comments ((gapBefore style starts previous t).1.pieces style previous.isSome
      (triviaBefore previous ++ t.token.leading)) = comments (triviaBefore previous ++ t.token.leading) :=
  Gap.comments_pieces _ _ _ comments_of_nothing

/-- **No comment is lost in what is written, and none is made.** -/
theorem comments_writtenRows (previous : Option TokenRef) (ts : List TokenRef) :
    (writtenRows style starts previous ts).map (comments ·.trivia)
      = (oldRows previous ts).map (comments ·.trivia) := by
  induction ts generalizing previous with
  | nil => rfl
  | cons t ts ih =>
    rw [writtenRows_cons, oldRows_cons, List.map_cons, List.map_cons, ih, comments_gapBefore]

end NodeRef

/-! ## What is written in a gap -/

open NodeRef

section Gap

variable {style : Style} {starts : List Nat} {previous : Option TokenRef} {t : TokenRef}
  {next next' : Text}

/-- What is written in a gap is made of blanks and comments. -/
theorem loose_gapBefore (hold : Cut next (triviaBefore previous ++ t.token.leading)) :
    ∀ piece ∈ (gapBefore style starts previous t).1.pieces style previous.isSome
      (triviaBefore previous ++ t.token.leading), piece.Loose := by
  refine Gap.loose_pieces hold.loose fun layout hgap => ?_
  cases previous with
  | none => cases hgap; simp
  | some p => exact fun c hc => isBlank_of_isInlineBlank (Gap.isInlineBlank_sameLine hgap c hc)

/-- The code of a script is written right behind its brace, where it has been. -/
theorem pieces_of_luaCode (hkind : t.token.kind = .luaCode)
    (hnone : triviaBefore previous ++ t.token.leading = []) :
    (gapBefore style starts previous t).1.pieces style previous.isSome
      (triviaBefore previous ++ t.token.leading) = [] := by
  rw [hnone]
  cases previous with
  | none => rfl
  | some p =>
    rw [gapBefore, Gap.between, if_neg (by rw [hkind]; decide),
      if_pos (by simp [TokenRef.beforeScript, hkind])]
    rfl

/-- Where comments end their lines, the gap before a token is read with the comments written. -/
theorem exists_cut_gapBefore (hold : Cut next (triviaBefore previous ++ t.token.leading))
    (hcode : t.token.kind = .luaCode → triviaBefore previous ++ t.token.leading = [])
    (hnext : t.token.kind ≠ .luaCode → ∀ d ∈ next'.head?, isBlank d = false)
    (hended : Ended next' ((gapBefore style starts previous t).1.pieces style previous.isSome
      (triviaBefore previous ++ t.token.leading))) :
    ∃ ps, Cut next' ps ∧
      textOf ps = textOf ((gapBefore style starts previous t).1.pieces style previous.isSome
        (triviaBefore previous ++ t.token.leading)) ∧
      comments ps = comments ((gapBefore style starts previous t).1.pieces style previous.isSome
        (triviaBefore previous ++ t.token.leading)) := by
  by_cases hkind : t.token.kind = .luaCode
  · rw [pieces_of_luaCode hkind (hcode hkind)]
    exact ⟨[], trivial, rfl, rfl⟩
  · exact Trivia.exists_cut (hnext hkind) (loose_gapBefore hold) hended

/-- What is written before a token does not change the token before it. -/
theorem adjoins_gapBefore (hold : Cut next (triviaBefore previous ++ t.token.leading))
    (hend : t.token.kind = .endOfFile → next = [] ∧ next' = [])
    (hhead : t.token.kind ≠ .endOfFile → next ≠ [] ∧ next.head? = next'.head?)
    (hsemicolon : t.token.kind = .semicolon → next.head? = some ';') :
    ∀ kind ∈ previous.map (·.token.kind),
      Adjoins kind (textOf (triviaBefore previous ++ t.token.leading) ++ next)
        ((gapBefore style starts previous t).1.write style previous.isSome
          (triviaBefore previous ++ t.token.leading) ++ next') := by
  intro kind hprevious
  obtain ⟨p, rfl, rfl⟩ := Option.map_eq_some_iff.1 hprevious
  exact Gap.adjoins_between style starts hold hend hhead hsemicolon

end Gap

/-! ## Gaps without trivia -/

variable {s : Text}

/-- A token of a text has the shape of its kind. -/
theorem shaped_of_mem_allTokens {t : TokenRef}
    (ht : t ∈ (NodeRef.root (parse s).tree).allTokens) (hk : t.token.kind ≠ .endOfFile) :
    ∃ p ∈ (tokenize s).tokens, p.token = t.token ∧ p.Shaped := by
  have hmem : t.token ∈ (tokenize s).all.map PlacedToken.token := by
    rw [← leaves_parse]
    have := List.mem_map_of_mem (f := TokenRef.token) ht
    rwa [NodeRef.map_token_allTokens, Tree.forestLeaves_eq] at this
  obtain ⟨p, hp, htoken⟩ := List.mem_map.1 hmem
  rcases List.mem_append.1 hp with hp | hp
  · exact ⟨p, hp, htoken, tokenize_shaped hp⟩
  · rw [← htoken, List.mem_singleton.1 hp] at hk
    exact absurd (kind_stop_tokenize s) hk

/-- A block that is nothing but its braces is on one line. -/
theorem spansLines_of_braces {p t : TokenRef} {n : NodeRef} (htokens : n.allTokens = [p, t])
    (hp : p.token.text = ['{']) (ht : t.token.text = ['}'])
    (hnone : p.token.trailing ++ t.token.leading = []) : n.spansLines = false := by
  obtain ⟨htrailing, hleading⟩ := List.append_eq_nil_iff.1 hnone
  have hmap := n.map_token_allTokens
  rw [htokens] at hmap
  rw [NodeRef.spansLines, NodeRef.trimmedTokens, ← hmap]
  simp [Token.trimTrailing, Token.fullText, hp, ht, htrailing, hleading]

section Clean

variable (h : (parse s).hasErrors = false)

include h

/-- **Nothing is written between a `{` and what stands right behind it, if this is a `}` or the code
of a script.** -/
theorem write_between_braces {p t : TokenRef} {before after : List TokenRef} (style : Style)
    (hsplit : (NodeRef.root (parse s).tree).allTokens = before ++ p :: t :: after)
    (hp : p.token.kind = .leftBrace) (ht : t.token.kind ∈ [.rightBrace, TokenKind.luaCode])
    (hnone : p.token.trailing ++ t.token.leading = []) :
    (Gap.between style (NodeRef.root (parse s).tree).itemStarts [] p t).write style true [] = [] := by
  have hpmem : p ∈ (NodeRef.root (parse s).tree).allTokens := by rw [hsplit]; simp
  have htmem : t ∈ (NodeRef.root (parse s).tree).allTokens := by rw [hsplit]; simp
  simp only [List.mem_cons, List.not_mem_nil, or_false] at ht
  unfold Gap.between
  rcases ht with ht | ht
  · rw [if_neg (by rw [ht]; decide)]
    split
    · rfl
    · by_cases hblock : t.parent.kind.isBlock = true
      · rw [if_pos ⟨ht, hblock⟩]
        rcases before_rightBrace h hsplit ht hblock with ⟨-, hparent, htokens⟩ | hk | hk
        · obtain ⟨q, -, hq, hqshape⟩ := shaped_of_mem_allTokens hpmem (by rw [hp]; decide)
          obtain ⟨r, -, hr, hrshape⟩ := shaped_of_mem_allTokens htmem (by rw [ht]; decide)
          have hspans := spansLines_of_braces htokens
            (hq ▸ hqshape.leftBrace (by rw [hq, hp])) (hr ▸ hrshape.rightBrace (by rw [hr, ht])) hnone
          simp [Gap.write, Lines.writeFrom, hspans, hp, hparent, NodeRef.same]
        · rw [hp] at hk; cases hk
        · rw [hp] at hk; cases hk
      · have hstart := not_mem_itemStarts h htmem ht
        rw [if_neg fun hb => hblock hb.2, if_neg (by simpa using hstart),
          if_neg (by simp [ht]), if_neg (by simp [ht])]
        rfl
  · rw [if_neg (by rw [ht]; decide), if_pos (by simp [TokenRef.beforeScript, ht])]
    rfl

/-! ## The rows of a formatted file -/

/-- **One more row**: what is written before a token is other trivia before it, where comments end
their lines in this gap. -/
theorem exists_relaid_cons {style : Style} {previous : Option TokenRef} {t : TokenRef}
    {after : List TokenRef} {old new : Text} {rows rows' : List Row}
    (hpart : previous.toList ++ t :: after <:+: (root (parse s).tree).allTokens)
    (hkind : t.token.kind ≠ .endOfFile)
    (hrow : Row.Placed ⟨triviaBefore previous ++ t.token.leading, t.token.kind, t.token.text⟩
      (Row.textOf rows ++ old))
    (hrelaid : Relaid old new (some t.token.kind) rows rows')
    (hended : Ended (t.token.text ++ (Row.textOf rows' ++ new))
      ((gapBefore style (root (parse s).tree).itemStarts previous t).1.pieces style previous.isSome
        (triviaBefore previous ++ t.token.leading))) :
    ∃ ps, Relaid old new (previous.map (·.token.kind))
        (⟨triviaBefore previous ++ t.token.leading, t.token.kind, t.token.text⟩ :: rows)
        (⟨ps, t.token.kind, t.token.text⟩ :: rows') ∧
      textOf ps = textOf ((gapBefore style (root (parse s).tree).itemStarts previous t).1.pieces style
        previous.isSome (triviaBefore previous ++ t.token.leading)) ∧
      comments ps = comments ((gapBefore style (root (parse s).tree).itemStarts previous t).1.pieces
        style previous.isSome (triviaBefore previous ++ t.token.leading)) := by
  -- the text behind the gap begins with the token, before and after
  obtain ⟨c, w, hhead, hblank⟩ := hrow.head
  obtain ⟨ps, hcut, htext, hcomments⟩ := exists_cut_gapBefore hrow.cut hrow.code (fun hcode d hd => by
    rw [show t.token.text = c :: w from hhead] at hd
    rw [← Option.some.inj (show some c = some d from hd)]
    exact hblank hcode) hended
  have hwrite := htext.trans (Gap.textOf_pieces _ _ _ _)
  refine ⟨ps, .cons ?_ (fun hbrace hnone hnext => ?_) hcut hrelaid, htext, hcomments⟩
  · have hadjoins := @adjoins_gapBefore style (root (parse s).tree).itemStarts previous t _
      (t.token.text ++ (Row.textOf rows' ++ new)) hrow.cut (fun hk => absurd hk hkind)
      (fun _ => by rw [show t.token.text = c :: w from hhead]; exact ⟨by simp, rfl⟩)
      (fun hk => by rw [hrow.semicolon hk]; rfl)
    intro kind hprevious
    rw [Row.textOf_cons, Row.textOf_cons, List.append_assoc, List.append_assoc, List.append_assoc,
      List.append_assoc, hwrite]
    exact hadjoins kind hprevious
  · obtain ⟨p, rfl, hp⟩ := Option.map_eq_some_iff.1 hbrace
    have hnone : p.token.trailing ++ t.token.leading = [] := hnone
    obtain ⟨before, more, hsplit⟩ := hpart
    have hempty := @write_between_braces _ h p t before (after ++ more) style
      (by simpa using hsplit.symm) hp hnext hnone
    rw [show triviaBefore (some p) ++ t.token.leading = [] from hnone] at hwrite
    refine Decidable.byContradiction fun hne => hcut.textOf_ne_nil hne (hwrite.trans ?_)
    rw [gapBefore, hnone]
    exact hempty

/--
**The rows of a formatted file are rows of the file with other trivia**, where comments end their
lines. This holds of any tokens in a row, if what is written behind them does not change the last of
them.
-/
theorem exists_relaid (style : Style) (ts : List TokenRef) (previous : Option TokenRef)
    {old new : Text} (hpart : previous.toList ++ ts <:+: (root (parse s).tree).allTokens)
    (hends : ∀ t ∈ ts, t.token.kind ≠ .endOfFile)
    (hplaced : Row.AllPlaced old (oldRows previous ts))
    (hended : Row.AllEnded new (writtenRows style (root (parse s).tree).itemStarts previous ts))
    (hadjoins : ∀ kind ∈ (lastOf previous ts).map (·.token.kind), Adjoins kind old new) :
    ∃ rows', Relaid old new (previous.map (·.token.kind)) (oldRows previous ts) rows' ∧
      rows'.map Row.gist
        = (writtenRows style (root (parse s).tree).itemStarts previous ts).map Row.gist := by
  induction ts generalizing previous with
  | nil => exact ⟨[], .nil hadjoins, rfl⟩
  | cons t ts ih =>
    rw [oldRows_cons] at hplaced ⊢
    obtain ⟨hrow, hmore⟩ := hplaced
    obtain ⟨hkind, hends⟩ := List.forall_mem_cons.1 hends
    rw [writtenRows_cons] at hended ⊢
    rw [lastOf_cons] at hadjoins
    obtain ⟨rows', hrelaid, hgist⟩ := ih (some t)
      ((List.suffix_append previous.toList _).isInfix.trans (by simpa using hpart)) hends hmore
      hended.2 hadjoins
    have hhere := hended.1
    rw [← Row.textOf_eq_of_gist hgist] at hhere
    obtain ⟨ps, hcons, htext, hcomments⟩ := exists_relaid_cons h hpart hkind hrow hrelaid hhere
    refine ⟨_ :: rows', hcons, ?_⟩
    rw [List.map_cons, List.map_cons, hgist, Row.gist, Row.gist, htext, hcomments]

end Clean

end NginxConf
