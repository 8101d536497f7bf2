import NginxConf.Proofs.Format.Written
import NginxConf.Proofs.Parse.Twin

/-!
# Reading a formatted file

A formatted file in which comments end their lines is read as it has been written: its rows are the
rows written, but for how blanks are cut (`rowsOf_format`), so its tokens look like those of the file,
and it has no errors either (`hasErrors_format`).
-/

namespace NginxConf

open Trivia NodeRef

variable {s : Text} {style : Style}

/-- Formatting succeeds where there are no errors, and gives what is written. -/
theorem format_eq_ok_iff {out : Text} : format style s = .ok out
    ↔ (parse s).hasErrors = false ∧ (root (parse s).tree).format style = out := by
  rw [NginxConf.format, Parse.format]
  cases (parse s).hasErrors <;> simp

/-! ## The rows of a text without errors -/

theorem oldRows_allTokens (s : Text) : oldRows none (root (parse s).tree).allTokens = rowsOf s := by
  rw [oldRows, map_token_allTokens, Tree.forestLeaves_eq]
  exact congrArg (Token.rows []) (leaves_parse s)

/-- The tokens of a text are followed by the end, and none of them is an end. -/
theorem exists_stop (s : Text) : ∃ (ts : List TokenRef) (stop : TokenRef),
    (root (parse s).tree).allTokens = ts ++ [stop] ∧ stop.token.kind = .endOfFile ∧
      stop.token.text = [] ∧ ts.map TokenRef.token = (tokenize s).tokens.map PlacedToken.token ∧
      ∀ t ∈ ts, t.token.kind ≠ .endOfFile := by
  have hmap : (root (parse s).tree).allTokens.map TokenRef.token
      = (tokenize s).tokens.map PlacedToken.token ++ [(tokenize s).stop.token] := by
    have hleaves := leaves_parse s
    rw [TokenStream.all, List.map_append] at hleaves
    rw [map_token_allTokens, Tree.forestLeaves_eq]
    exact hleaves
  obtain ⟨ts, last, hall, hts, hlast⟩ := List.map_eq_append_iff.1 hmap
  obtain ⟨stop, rest, rfl, hstop, hrest⟩ := List.map_eq_cons_iff.1 hlast
  obtain rfl := List.map_eq_nil_iff.1 hrest
  obtain ⟨left, hend⟩ := stop_attachTrivia 0 [] (lex s)
  rw [show (tokenize s).stop.token = .endOfFile left from hend] at hstop
  refine ⟨ts, stop, hall, by rw [hstop]; rfl, by rw [hstop]; rfl, hts, fun t ht => ?_⟩
  have hmem : t.token ∈ (tokenize s).tokens.map PlacedToken.token := hts ▸ List.mem_map_of_mem ht
  obtain ⟨p, hp, htoken⟩ := List.mem_map.1 hmem
  rw [← htoken]
  exact (tokenize_shaped hp).not_endOfFile

/-- Only the last token of a text is an end. -/
theorem ne_endOfFile_of_split {ts us : List TokenRef} {t : TokenRef}
    (hall : (root (parse s).tree).allTokens = ts ++ t :: us) : ∀ u ∈ ts, u.token.kind ≠ .endOfFile := by
  obtain ⟨body, stop, hbody, -, -, -, hends⟩ := exists_stop s
  have hdrop := congrArg List.dropLast (hall.symm.trans hbody)
  rw [List.dropLast_concat, List.dropLast_append_of_ne_nil (List.cons_ne_nil t us)] at hdrop
  exact fun u hu => hends u (hdrop ▸ List.mem_append_left _ hu)

/-- No lexeme of a text without errors is faulty. -/
theorem bare_lex (h : (parse s).hasErrors = false) : (lex s).map Lexeme.bare = lex s := by
  refine (List.map_congr_left fun l hl => ?_).trans (List.map_id _)
  have hshaped := lexFrom_shaped hl
  cases hfault : l.fault with
  | none => rw [Lexeme.bare, ← hfault]; rfl
  | some fault =>
    have hkind : l.kind = .token .malformed := hshaped.isFaulty_iff.1 (by rw [hfault]; rfl)
    -- a malformed lexeme would be a malformed token
    have hmem : l.bare ∈ Row.lexemesOf (rowsOf s) := by
      rw [lexemesOf_rowsOf]
      exact List.mem_append_left _ (List.mem_map_of_mem hl)
    obtain ⟨r, hr, hlr⟩ := List.mem_flatMap.1 hmem
    obtain ⟨p, hp, hpkind⟩ : ∃ p ∈ (tokenize s).all, p.token.kind = .malformed := by
      have hmalformed : r.kind = .malformed := by
        rcases List.mem_append.1 hlr with hlr | hlr
        · obtain ⟨t, -, ht⟩ := List.mem_map.1 hlr
          have := congrArg Lexeme.kind ht
          rw [Lexeme.kind_bare, hkind] at this
          cases this
        · have := congrArg Lexeme.kind (List.mem_singleton.1 hlr)
          rw [Lexeme.kind_bare, hkind] at this
          exact (LeafKind.token.inj this).symm
      have hkinds := Token.rows_eq_map [] ((tokenize s).all.map PlacedToken.token)
      have hmem := List.mem_map_of_mem (f := fun r : Row => (r.kind, r.text)) hr
      rw [rowsOf, hkinds, List.map_map] at hmem
      obtain ⟨p, hp, hpair⟩ := List.mem_map.1 hmem
      exact ⟨p, hp, (congrArg Prod.fst hpair).trans hmalformed⟩
    rcases List.mem_append.1 hp with hp | hp
    · have hfaulty := (tokenize_shaped hp).isFaulty_iff.2 hpkind
      rw [fault_eq_none h hp] at hfaulty
      cases hfaulty
    · rw [List.mem_singleton.1 hp, kind_stop_tokenize] at hpkind
      cases hpkind

/-- **A text without errors is cut into the lexemes of its rows**, and each row stands as the lexer
finds it. -/
theorem lex_of_rowsOf (h : (parse s).hasErrors = false) {rows : List Row} {trivia : List Trivia}
    (hrows : rowsOf s = rows ++ [Row.stop trivia]) :
    lex s = Row.lexemesOf rows ++ trivia.map lexeme ∧ s = Row.textOf rows ++ textOf trivia ∧
      Row.AllPlaced (textOf trivia) rows ∧ Cut [] trivia := by
  have hlexemes := lexemesOf_rowsOf s
  rw [hrows, bare_lex h, Row.lexemesOf_append,
    show Row.lexemesOf [Row.stop trivia] = trivia.map lexeme ++ [.token .endOfFile []] by
      simp [Row.lexemesOf, Row.stop], ← List.append_assoc] at hlexemes
  have hlex := List.append_cancel_right hlexemes.symm
  have htext : s = Row.textOf rows ++ textOf trivia := by
    have hflat := flatMap_text_lexFrom .normal s
    rw [show lexFrom .normal s = _ from hlex, List.flatMap_append, Row.flatMap_text_lexemesOf,
      List.flatMap_map] at hflat
    exact hflat.symm
  have hfrom : lexFrom .normal (Row.textOf rows ++ textOf trivia)
      = Row.lexemesOf rows ++ trivia.map lexeme := by
    rw [← htext]
    exact hlex
  obtain ⟨hplaced, mode, hrest⟩ := Row.allPlaced_of_lexFrom hfrom
  have hstop : lexFrom mode (textOf trivia ++ []) = trivia.map lexeme ++ [] := by
    rwa [List.append_nil, List.append_nil]
  exact ⟨hlex, htext, hplaced, (cut_of_lexFrom hstop).1⟩

/-! ## Somewhere in a text without errors -/

/-- A place before a token of a text, as the lexer has found it: what stands before it, and the token
with the trivia before it. -/
structure Parting (s : Text) (ts : List TokenRef) (t : TokenRef) (us : List TokenRef) : Prop where
  /-- The rows before the place stand as the lexer finds them. -/
  placed : Row.AllPlaced (Row.textOf (oldRows (lastOf none ts) (t :: us))) (oldRows none ts)
  /-- The lexemes before the place are those of the rows, and trivia follows. -/
  lex : ∃ ls, lex s = Row.lexemesOf (oldRows none ts)
    ++ ((triviaBefore (lastOf none ts) ++ t.token.leading).map lexeme ++ ls)
  text : s = Row.textOf (oldRows none ts) ++ Row.textOf (oldRows (lastOf none ts) (t :: us))
  cut : Cut (t.token.text ++ Row.textOf (oldRows (some t) us))
    (triviaBefore (lastOf none ts) ++ t.token.leading)
  ends : t.token.kind = .endOfFile → t.token.text = [] ∧ us = []
  ne_nil : t.token.kind ≠ .endOfFile → t.token.text ≠ []
  /-- Nothing but the code of a script begins with a blank. -/
  blank : t.token.kind ≠ .luaCode → ∀ d ∈ t.token.text.head?, isBlank d = false
  /-- The code of a script stands right behind its `{`. -/
  code : t.token.kind = .luaCode → triviaBefore (lastOf none ts) ++ t.token.leading = []
  semicolon : t.token.kind = .semicolon → t.token.text = [';']

/-- The place before the end. -/
theorem parting_of_stop (h : (parse s).hasErrors = false) {ts : List TokenRef} {t : TokenRef}
    (hall : (root (parse s).tree).allTokens = ts ++ [t]) (hkind : t.token.kind = .endOfFile)
    (htext : t.token.text = []) : Parting s ts t [] := by
  have hrows := oldRows_allTokens s
  have hstop : oldRows (lastOf none ts) [t]
      = [Row.stop (triviaBefore (lastOf none ts) ++ t.token.leading)] := by
    rw [oldRows_cons, hkind, htext]
    rfl
  rw [hall, oldRows_append, hstop] at hrows
  obtain ⟨hlex, htexts, hplaced, hcut⟩ := lex_of_rowsOf h hrows.symm
  have hnew : Row.textOf (oldRows (lastOf none ts) [t])
      = textOf (triviaBefore (lastOf none ts) ++ t.token.leading) := by
    rw [hstop]
    simp [Row.textOf, Row.stop]
  exact {
    placed := hnew ▸ hplaced
    lex := ⟨[], by rw [List.append_nil]; exact hlex⟩
    text := by rw [hnew]; exact htexts
    cut := by rw [htext]; exact hcut
    ends := fun _ => ⟨htext, rfl⟩
    ne_nil := fun hne => absurd hkind hne
    blank := fun _ d hd => by rw [htext] at hd; cases hd
    code := fun hk => by rw [hkind] at hk; cases hk
    semicolon := fun hk => by rw [hkind] at hk; cases hk }

/-- A place before another token. -/
theorem parting_of_token (h : (parse s).hasErrors = false) {ts us : List TokenRef} {t u : TokenRef}
    (hall : (root (parse s).tree).allTokens = ts ++ t :: (us ++ [u]))
    (hkind : u.token.kind = .endOfFile) (htext : u.token.text = [])
    (hne : t.token.kind ≠ .endOfFile) : Parting s ts t (us ++ [u]) := by
  have hrows := oldRows_allTokens s
  obtain ⟨trivia, hstop⟩ : ∃ trivia, oldRows (lastOf (some t) us) [u] = [Row.stop trivia] :=
    ⟨_, by rw [oldRows_cons, hkind, htext]; rfl⟩
  rw [hall, oldRows_append, oldRows_cons, oldRows_append, hstop, ← List.cons_append,
    ← List.append_assoc] at hrows
  obtain ⟨hlex, htexts, hplaced, -⟩ := lex_of_rowsOf h hrows.symm
  have hnew : Row.textOf (oldRows (some t) (us ++ [u]))
      = Row.textOf (oldRows (some t) us) ++ textOf trivia := by
    rw [oldRows_append, hstop, Row.textOf_append]
    simp [Row.textOf, Row.stop]
  -- the rows before the place stand before the row of the token, and this before the others
  rw [Row.allPlaced_append] at hplaced
  obtain ⟨hbefore, hhere, -⟩ := hplaced
  rw [Row.textOf_cons, List.append_assoc, List.append_assoc, ← hnew] at hbefore
  rw [Row.textOf_append, Row.textOf_cons, List.append_assoc, List.append_assoc, List.append_assoc,
    ← hnew] at htexts
  rw [Row.lexemesOf_append, Row.lexemesOf_cons, List.append_assoc, List.append_assoc] at hlex
  obtain ⟨c, w, hc, hblank⟩ := hhere.head
  rw [← hnew] at hhere
  exact {
    placed := by rw [oldRows_cons, Row.textOf_cons]; exact hbefore
    lex := ⟨_, hlex⟩
    text := by rw [oldRows_cons, Row.textOf_cons]; exact htexts
    cut := hhere.cut
    ends := fun hk => absurd hk hne
    ne_nil := fun _ => by rw [show t.token.text = c :: w from hc]; exact List.cons_ne_nil c w
    blank := fun hk d hd => by
      rw [show t.token.text = c :: w from hc] at hd
      rw [← Option.some.inj (show some c = some d from hd)]
      exact hblank hk
    code := hhere.code
    semicolon := hhere.semicolon }

/-- **Every place before a token of a text without errors is such a place.** -/
theorem parting_of_split (h : (parse s).hasErrors = false) {ts us : List TokenRef} {t : TokenRef}
    (hall : (root (parse s).tree).allTokens = ts ++ t :: us) : Parting s ts t us := by
  obtain ⟨body, stop, hbody, hkind, htext, -, hends⟩ := exists_stop s
  have hsplit := hall.symm.trans hbody
  rcases List.eq_nil_or_concat us with rfl | ⟨us, u, rfl⟩
  · obtain ⟨rfl, hlast⟩ := List.append_inj' hsplit rfl
    obtain rfl := (List.cons.inj hlast).1
    exact parting_of_stop h hall hkind htext
  · rw [List.concat_eq_append] at hall ⊢
    rw [List.concat_eq_append, show ts ++ t :: (us ++ [u]) = (ts ++ t :: us) ++ [u] by simp]
      at hsplit
    obtain ⟨rfl, hlast⟩ := List.append_inj' hsplit rfl
    obtain rfl := (List.cons.inj hlast).1
    exact parting_of_token h hall hkind htext (hends t (by simp))

/-- What is written behind a place does not change the token before it. -/
theorem Parting.adjoins {ts us : List TokenRef} {t : TokenRef} (h : Parting s ts t us) (style : Style)
    (starts : List Nat) : ∀ kind ∈ (lastOf none ts).map (·.token.kind),
      Adjoins kind (Row.textOf (oldRows (lastOf none ts) (t :: us)))
        (Row.textOf (writtenRows style starts (lastOf none ts) (t :: us))) := by
  have hadjoins := @adjoins_gapBefore style starts (lastOf none ts) t _
    (t.token.text ++ Row.textOf (writtenRows style starts (some t) us)) h.cut
    (fun hk => by rw [(h.ends hk).1, (h.ends hk).2]; exact ⟨rfl, rfl⟩)
    (fun hk => by
      obtain ⟨c, w, hc⟩ := List.exists_cons_of_ne_nil (h.ne_nil hk)
      rw [hc]
      exact ⟨by simp, rfl⟩)
    (fun hk => by rw [h.semicolon hk]; rfl)
  rwa [oldRows_cons, writtenRows_cons, Row.textOf_cons, Row.textOf_cons, Gap.textOf_pieces]

/-! ## Reading what has been written -/

theorem map_writtenRows (style : Style) (starts : List Nat) (previous : Option TokenRef)
    (ts : List TokenRef) : (writtenRows style starts previous ts).map (fun r => (r.kind, r.text))
      = ts.map fun t => (t.token.kind, t.token.text) := by
  induction ts generalizing previous with
  | nil => rfl
  | cons t ts ih => rw [writtenRows_cons, List.map_cons, List.map_cons, ih]

section Clean

variable (h : (parse s).hasErrors = false)

include h

/-- **The rows of a formatted file are the rows written**, but for how blanks are cut, where comments
end their lines. -/
theorem rowsOf_format (hended : CommentsEnd ((root (parse s).tree).written style)) :
    (rowsOf ((root (parse s).tree).format style)).map Row.gist
      = (writtenRows style (root (parse s).tree).itemStarts none
          (root (parse s).tree).allTokens).map Row.gist := by
  obtain ⟨ts, stop, hall, hkind, htext, -, hends⟩ := exists_stop s
  have hparting := parting_of_split h hall
  have hcut := hparting.cut
  rw [htext] at hcut
  rw [written, Row.commentsEnd_lexemesOf, hall, writtenRows_append, Row.allEnded_append] at hended
  obtain ⟨hended, hlast⟩ := hended
  rw [List.append_nil] at hended
  rw [writtenRows_cons, htext] at hlast
  -- the trivia at the end
  obtain ⟨ps, hps, hpstext, hpscomments⟩ := exists_cut_gapBefore hcut
    (fun hcode => by rw [hkind] at hcode; cases hcode) (fun _ d hd => by cases hd) hlast.1
  have hwritten : (writtenRows style (root (parse s).tree).itemStarts (lastOf none ts) [stop]).map
      Row.gist = [Row.gist (Row.stop ps)] := by
    rw [writtenRows_cons, hkind, htext, List.map_cons, Row.gist, Row.gist, Row.stop, hpstext,
      hpscomments]
    rfl
  have hnew : Row.textOf (writtenRows style (root (parse s).tree).itemStarts (lastOf none ts) [stop])
      = textOf ps := by
    rw [@Row.textOf_eq_of_gist [Row.stop ps] _ hwritten]
    simp [Row.textOf, Row.stop]
  -- the rows before
  obtain ⟨rows', hrelaid, hgist⟩ := exists_relaid h style ts none
    (show ts <:+: _ from hall ▸ (List.prefix_append ts [stop]).isInfix) hends hparting.placed hended
    (hparting.adjoins style _)
  have hold : Row.textOf (oldRows (lastOf none ts) [stop])
      = textOf (triviaBefore (lastOf none ts) ++ stop.token.leading) := by
    simp [Row.textOf, htext, oldRows, Token.rows]
  rw [hnew, hold] at hrelaid
  have hlex := @lex_of_rowsOf s h (oldRows none ts)
    (triviaBefore (lastOf none ts) ++ stop.token.leading)
    (by rw [← oldRows_allTokens, hall, oldRows_append, oldRows_cons, hkind, htext]; rfl)
  have hlex' := lex_relaid hrelaid (hlex.2.1 ▸ hlex.1) hps
  have hformat : (root (parse s).tree).format style = Row.textOf rows' ++ textOf ps := by
    rw [NodeRef.format, ← textOf_writtenRows, hall, writtenRows_append, Row.textOf_append, hnew,
      Row.textOf_eq_of_gist hgist]
  rw [hformat, rowsOf_of_lex hlex', hall, writtenRows_append, List.map_append, List.map_append, hgist,
    hwritten]
  rfl

/-- **The tokens of a formatted file look like those of the file**, where comments end their lines. -/
theorem look_format (hended : CommentsEnd ((root (parse s).tree).written style)) :
    (tokenize ((root (parse s).tree).format style)).tokens.map PlacedToken.look
      = (tokenize s).tokens.map PlacedToken.look := by
  generalize hout : (root (parse s).tree).format style = out
  have hpairs : (tokenize out).all.map (fun p => (p.token.kind, p.token.text))
      = (tokenize s).all.map fun p => (p.token.kind, p.token.text) := by
    have hgist := congrArg (List.map fun g => (g.2.2.1, g.2.2.2)) (rowsOf_format h hended)
    rw [hout, List.map_map, List.map_map] at hgist
    have hnew := Token.rows_eq_map [] ((tokenize out).all.map PlacedToken.token)
    have hold := map_writtenRows style (root (parse s).tree).itemStarts none
      (root (parse s).tree).allTokens
    have hleaves : (root (parse s).tree).allTokens.map TokenRef.token
        = (tokenize s).all.map PlacedToken.token := by
      rw [map_token_allTokens, Tree.forestLeaves_eq]
      exact leaves_parse s
    have hboth := congrArg (List.map fun t : Token => (t.kind, t.text)) hleaves
    rw [List.map_map, List.map_map] at hboth
    rw [List.map_map] at hnew
    exact hnew.symm.trans (hgist.trans (hold.trans hboth))
  rw [TokenStream.all, TokenStream.all, List.map_append, List.map_append] at hpairs
  have hpairs := (List.append_inj' hpairs rfl).1
  -- none of them is malformed
  have hkinds : ∀ p ∈ (tokenize out).tokens, p.token.kind ≠ .malformed := by
    intro p hp hk
    have hmem := List.mem_map_of_mem (f := fun p : PlacedToken => (p.token.kind, p.token.text)) hp
    rw [hpairs] at hmem
    obtain ⟨q, hq, hqp⟩ := List.mem_map.1 hmem
    have hfaulty := (tokenize_shaped hq).isFaulty_iff.2 ((congrArg Prod.fst hqp).trans hk)
    rw [fault_eq_none h hq] at hfaulty
    cases hfaulty
  have hlook : ∀ {ps : List PlacedToken}, (∀ p ∈ ps, p.fault = none) → ps.map PlacedToken.look
      = (ps.map fun p => (p.token.kind, p.token.text)).map fun x => (x.1, x.2, none) := by
    intro ps hps
    rw [List.map_map]
    exact List.map_congr_left fun p hp => by rw [PlacedToken.look, hps p hp]; rfl
  rw [hlook fun p hp => (tokenize_shaped hp).fault_eq_none (hkinds p hp),
    hlook fun p hp => fault_eq_none h hp, hpairs]

/-- **A formatted file has no errors**, where comments end their lines. -/
theorem hasErrors_format (hended : CommentsEnd ((root (parse s).tree).written style)) :
    (parse ((root (parse s).tree).format style)).hasErrors = false := by
  obtain ⟨a, -, -, hiff⟩ := exists_twinOutcome (look_format h hended)
  exact hiff.1 h

end Clean

end NginxConf
