import NginxConf.Proofs.Format.Again
import NginxConf.Proofs.Format.Reading

/-!
# Texts whose carriage returns are paired

Where each carriage return of a text belongs to a line end, all gaps are neat (`Parting.neat`), and so
is what is written for them. Comments then end their lines (`commentsEnd_written`), and the rows of the
formatted file are the rows that have been written, piece by piece (`rowsOf_format_eq`).
-/

namespace NginxConf

open Trivia NodeRef

variable {s : Text} {style : Style}

/-! ## Rows that are cut as they stand -/

namespace Row

/-- The trivia of each row is cut as it stands, where such a text follows the rows. -/
def AllCut (next : Text) : List Row → Prop
  | [] => True
  | r :: rows => Cut (r.text ++ (textOf rows ++ next)) r.trivia ∧ AllCut next rows

theorem AllCut.allEnded {next : Text} {rows : List Row} (h : AllCut next rows) :
    AllEnded next rows := by
  induction rows with
  | nil => trivial
  | cons r rows ih => exact ⟨h.1.ended, ih h.2⟩

/-- **Rows that are cut as they stand are known from their texts.** -/
theorem AllCut.eq_of_gist {next : Text} {rows rows' : List Row} (h : AllCut next rows)
    (h' : AllCut next rows') (hgist : rows.map gist = rows'.map gist) : rows = rows' := by
  induction rows generalizing rows' with
  | nil => exact (List.map_eq_nil_iff.1 hgist.symm).symm
  | cons r rows ih =>
    obtain ⟨r', rest, rfl, hr, hrest⟩ := List.map_eq_cons_iff.1 hgist.symm
    obtain rfl := ih h.2 h'.2 hrest.symm
    obtain ⟨trivia, kind, text⟩ := r
    obtain ⟨trivia', kind', text'⟩ := r'
    simp only [gist, Prod.mk.injEq] at hr
    obtain ⟨htrivia, -, rfl, rfl⟩ := hr
    obtain rfl : trivia = trivia' := h.1.unique h'.1 htrivia.symm
    rfl

end Row

/-! ## Gaps of such a text -/

theorem Trivia.Neat.mono {p q : Prop} (hpq : p → q) {ts : List Trivia} (h : Neat p ts) :
    Neat q ts := by
  induction ts with
  | nil => trivial
  | cons t ts ih =>
    refine ⟨?_, ih h.2⟩
    have hhere := h.1
    unfold NeatBefore at hhere ⊢
    cases hkind : t.kind with
    | comment =>
      rw [hkind] at hhere
      exact ⟨hhere.1, fun hnil => hpq (hhere.2.1 hnil), hhere.2.2⟩
    | _ => rwa [hkind] at hhere

variable {ts us : List TokenRef} {t : TokenRef}

/-- **The gaps of a text whose carriage returns are paired are neat.** Only the last one may end in a
comment. -/
theorem Parting.neat (h : Parting s ts t us) (hreturns : s.ReturnsPaired) :
    Neat (t.token.kind = .endOfFile) (triviaBefore (lastOf none ts) ++ t.token.leading) := by
  by_cases hcode : t.token.kind = .luaCode
  · rw [h.code hcode]
    trivial
  have htext := h.text
  rw [oldRows_cons, Row.textOf_cons] at htext
  rw [htext] at hreturns
  refine (neat_of_cut h.cut hreturns.of_append fun d hd => ?_).mono fun hnone => ?_
  · by_cases hend : t.token.kind = .endOfFile
    · rw [(h.ends hend).1, (h.ends hend).2] at hd
      cases hd
    · obtain ⟨c, w, hc⟩ := List.exists_cons_of_ne_nil (h.ne_nil hend)
      rw [hc] at hd
      exact h.blank hcode d (by rw [hc]; exact hd)
  · exact Decidable.byContradiction fun hend => h.ne_nil hend (List.append_eq_nil_iff.1 hnone).1

/-- What is written for a neat gap is neat. -/
theorem neat_gapBefore (style : Style) (starts : List Nat) (previous : Option TokenRef)
    (t : TokenRef) {old : List Trivia} (hold : Neat (t.token.kind = .endOfFile) old) :
    Neat (t.token.kind = .endOfFile)
      ((gapBefore style starts previous t).1.pieces style previous.isSome old) := by
  refine Gap.neat_pieces style previous.isSome hold fun layout hgap => ?_
  cases previous with
  | none =>
    cases hgap
    refine ⟨by simp, ?_, fun _ _ => rfl⟩
    simp only
    split
    · exact Nat.one_pos
    · exact Nat.succ_pos _
  | some p =>
    refine ⟨Gap.isInlineBlank_sameLine hgap, ?_⟩
    by_cases hend : t.token.kind = .endOfFile
    · cases (Gap.between_endOfFile style starts _ hend).symm.trans hgap
      exact ⟨Nat.one_pos, fun _ _ => rfl⟩
    · refine ⟨?_, fun hkind => absurd hkind hend⟩
      rcases Gap.between_cases style starts (p.token.trailing ++ t.token.leading) p t with
        ⟨layout', h, hmax, -⟩ | ⟨h, -⟩ | ⟨h, -⟩
      · cases h.symm.trans hgap
        exact hmax
      · cases h.symm.trans hgap
      · cases h.symm.trans hgap

/-! ## The rows of such a text -/

section Clean

variable (h : (parse s).hasErrors = false)

include h

/-- The rows of a text without errors are cut as they stand. -/
theorem allCut_oldRows (us ts : List TokenRef) (hall : (root (parse s).tree).allTokens = ts ++ us) :
    Row.AllCut [] (oldRows (lastOf none ts) us) := by
  induction us generalizing ts with
  | nil => trivial
  | cons u us ih =>
    rw [oldRows_cons]
    have hcut := (parting_of_split h hall).cut
    have hrest := ih (ts ++ [u]) (by rw [hall]; simp)
    rw [lastOf_append] at hrest
    exact ⟨by rw [List.append_nil]; exact hcut, hrest⟩

/-- The rows written for a text whose carriage returns are paired are cut as they stand. -/
theorem allCut_writtenRows (hreturns : s.ReturnsPaired) (style : Style) (starts : List Nat)
    (us ts : List TokenRef) (hall : (root (parse s).tree).allTokens = ts ++ us) :
    Row.AllCut [] (writtenRows style starts (lastOf none ts) us) := by
  induction us generalizing ts with
  | nil => trivial
  | cons u us ih =>
    have hparting := parting_of_split h hall
    have hrest := ih (ts ++ [u]) (by rw [hall]; simp)
    rw [lastOf_append] at hrest
    rw [writtenRows_cons]
    refine ⟨?_, hrest⟩
    rw [List.append_nil]
    by_cases hcode : u.token.kind = .luaCode
    · rw [pieces_of_luaCode hcode (hparting.code hcode)]
      trivial
    · refine (neat_gapBefore style starts _ u (hparting.neat hreturns)).cut (fun hend => ?_)
        fun d hd => ?_
      · simp [(hparting.ends hend).1, (hparting.ends hend).2, writtenRows, Row.textOf]
      · by_cases hend : u.token.kind = .endOfFile
        · rw [(hparting.ends hend).1, (hparting.ends hend).2] at hd
          cases hd
        · obtain ⟨c, w, hc⟩ := List.exists_cons_of_ne_nil (hparting.ne_nil hend)
          rw [hc] at hd
          exact hparting.blank hcode d (by rw [hc]; exact hd)

/-- **Comments end their lines in what is written for a text whose carriage returns are paired.** -/
theorem commentsEnd_written (hreturns : s.ReturnsPaired) (style : Style) :
    CommentsEnd ((root (parse s).tree).written style) := by
  rw [written, Row.commentsEnd_lexemesOf]
  exact (allCut_writtenRows h hreturns style _ (root (parse s).tree).allTokens [] rfl).allEnded

/-- **The rows of the formatted file are the rows that have been written.** -/
theorem rowsOf_format_eq (hreturns : s.ReturnsPaired) (style : Style) :
    rowsOf ((root (parse s).tree).format style)
      = writtenRows style (root (parse s).tree).itemStarts none
          (root (parse s).tree).allTokens := by
  have hended := commentsEnd_written h hreturns style
  have hold := allCut_oldRows (hasErrors_format h hended)
    (root (parse ((root (parse s).tree).format style)).tree).allTokens [] rfl
  rw [lastOf_nil, oldRows_allTokens] at hold
  exact hold.eq_of_gist
    (allCut_writtenRows h hreturns style _ (root (parse s).tree).allTokens [] rfl)
    (rowsOf_format h hended)

end Clean

end NginxConf
