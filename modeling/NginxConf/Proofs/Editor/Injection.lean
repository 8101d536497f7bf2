import Mathlib.Data.List.Forall2
import NginxConf.Proofs.Editor.Content
import NginxConf.Proofs.Parse.Braces
import NginxConf.Proofs.SyntaxTree.Held

/-!
# Every script of a text is found once

Code belongs to the statement that holds it, and a statement holds code at most once
(`NodeRef.filter_luaCode`). So going through the tokens of a text finds the script of each
statement once (`NodeRef.injections_perm`), in the order of the text, and leaves out only blank
lines (`injections_parse`).
-/

namespace NginxConf

/-! ## The script of one statement -/

namespace NodeRef

variable {n : NodeRef}

/-- The script of a statement: its code without blank lines at both ends. -/
def injection? (n : NodeRef) : Option Injection :=
  if n.kind.isLua then
    (n.token? .luaCode).bind fun code =>
      (contentSpan? code.token.text).map fun span => ⟨n.kind, span.shift code.span.start⟩
  else none

/-- Whether the node is a statement with code that is not blank. -/
def holdsScript (n : NodeRef) : Bool :=
  n.kind.isLua && n.tokens.any fun t => t.token.kind == .luaCode && !t.token.text.isBlankText

/-- What is found at a token, by the node that holds the token. -/
theorem injection?_of_mem_tokens {t : TokenRef} (ht : t ∈ n.tokens) :
    t.injection? = if n.kind.isLua then
        (n.token? .luaCode).bind fun code => if code.address = t.address then
          (contentSpan? t.token.text).map fun span => ⟨n.kind, span.shift t.span.start⟩ else none
      else none := by
  unfold TokenRef.injection?
  rw [parent_of_mem_tokens ht]
  by_cases hlua : n.kind.isLua = true
  · cases n.token? .luaCode with
    | none => simp
    | some code =>
      by_cases haddress : code.address = t.address
      · simp only [Option.bind_eq_bind, Option.bind_some, hlua, haddress, and_self, if_true]
        cases contentSpan? t.token.text <;> rfl
      · simp [haddress]
  · cases n.token? .luaCode <;> simp [hlua]

/-- **At the tokens of a statement its script is found, once.** -/
theorem filterMap_injection? (n : NodeRef) :
    n.tokens.filterMap TokenRef.injection? = n.injection?.toList := by
  unfold injection?
  split
  · next hlua =>
    cases hcode : n.token? .luaCode with
    | none =>
      refine List.filterMap_eq_nil_iff.2 fun t ht => ?_
      simp [injection?_of_mem_tokens ht, hcode]
    | some code =>
      have hfound (t : TokenRef) (ht : t ∈ n.tokens) : t.injection?
          = if code.address = t.address then
              (contentSpan? t.token.text).map fun span => ⟨n.kind, span.shift t.span.start⟩
            else none := by
        simp [injection?_of_mem_tokens ht, hcode, hlua]
      have hmem := (token?_eq_some hcode).1
      rw [filterMap_tokens hmem fun t ht haddress => (hfound t ht).trans (if_neg haddress),
        hfound code hmem, if_pos rfl, Option.bind_some]
  · next hlua =>
    refine List.filterMap_eq_nil_iff.2 fun t ht => ?_
    rw [injection?_of_mem_tokens ht, if_neg hlua]

/-- **Going through the tokens finds the script of each node once.** -/
theorem injections_perm (n : NodeRef) : n.injections.Perm (n.descendants.filterMap injection?) :=
  n.perm_filterMap_allTokens fun m _ => m.filterMap_injection?

/-- A statement holds code at most once. -/
theorem filter_luaCode (hlua : n.kind.isLua = true) (h : n.kind.Admits n.children) :
    n.tokens.filter (·.token.kind == .luaCode) = (n.token? .luaCode).toList := by
  refine filter_tokens ?_
  have hkinds := n.map_token_kind
  obtain ⟨u, v, hsymbols, hu, hv⟩ := Pattern.exists_scriptHead hlua h
  have hhead : (u.filterMap Symbol.token?).count .luaCode = 0 := by
    refine List.count_eq_zero.2 fun hmem => ?_
    obtain ⟨s, hs, htoken⟩ := List.mem_filterMap.1 hmem
    have hall : ∀ s ∈ Pattern.scriptHead, s.token? ≠ some .luaCode := by decide
    exact hall s (hu s hs) htoken
  have hscript : ∀ v ∈ [[Symbol.token .leftBrace, .token .luaCode, .token .rightBrace],
      [.token .leftBrace, .token .rightBrace], [.token .leftBrace, .token .malformed],
      [.token .semicolon], []], (v.filterMap Symbol.token?).count .luaCode ≤ 1 := by decide
  rw [hkinds, hsymbols, List.filterMap_append, List.count_append, hhead, Nat.zero_add]
  exact hscript v (Pattern.mem_script hv)

end NodeRef

/-- The range of a script: all of the code of a statement but blank lines at both ends. -/
structure Injection.IsOf (i : Injection) (n : NodeRef) : Prop where
  statement : i.statement = n.kind
  content : ∃ t ∈ n.tokens, t.token.kind = .luaCode ∧ ∃ before content after,
    t.token.text = before ++ content ++ after ∧ IsContent before content after ∧
      i.span = ⟨t.span.start + Text.size before,
        t.span.start + Text.size before + Text.size content⟩

/-- A script that is found is all of the code but blank lines. -/
theorem Injection.isOf_of_eq_some {i : Injection} {n : NodeRef} (h : n.injection? = some i) :
    i.IsOf n := by
  unfold NodeRef.injection? at h
  split at h
  · obtain ⟨t, ht, hi⟩ := Option.bind_eq_some_iff.1 h
    obtain ⟨span, hspan, rfl⟩ := Option.map_eq_some_iff.1 hi
    obtain ⟨hmem, hkind⟩ := NodeRef.token?_eq_some ht
    obtain ⟨before, content, after, htext, hcut, rfl⟩ := exists_of_contentSpan? hspan
    refine ⟨rfl, t, hmem, hkind, before, content, after, htext, hcut, ?_⟩
    simp only [Span.shift, Span.mk.injEq]
    omega
  · cases h

/-- A script is found just where there is code that is not blank. -/
theorem NodeRef.isSome_injection? {n : NodeRef} (h : n.kind.Admits n.children) :
    n.injection?.isSome = n.holdsScript := by
  unfold injection? holdsScript
  cases hlua : n.kind.isLua with
  | false => rfl
  | true =>
    rw [if_pos rfl, Bool.true_and, ← List.any_filter, n.filter_luaCode hlua h]
    cases n.token? .luaCode with
    | none => rfl
    | some t =>
      rw [Option.bind_some, Option.isSome_map, Option.toList_some, List.any_cons, List.any_nil,
        Bool.or_false]
      rcases contentSpan?_spec t.token.text with ⟨hnone, hblank⟩ | ⟨hblank, _, _, _, -, -, hsome⟩
      · rw [hnone, hblank]; rfl
      · rw [hsome, hblank]; rfl

/-- The scripts of some nodes are those of the nodes that hold one, in step with them. -/
theorem NodeRef.forall₂_injection? {ns : List NodeRef} (h : ∀ n ∈ ns, n.kind.Admits n.children) :
    List.Forall₂ Injection.IsOf (ns.filterMap injection?) (ns.filter holdsScript) := by
  induction ns with
  | nil => exact .nil
  | cons n ns ih =>
    have ih := ih fun m hm => h m (List.mem_cons_of_mem _ hm)
    have hsome := NodeRef.isSome_injection? (h n List.mem_cons_self)
    cases hn : n.injection? with
    | none =>
      rw [hn] at hsome
      rw [List.filterMap_cons_none hn, List.filter_cons_of_neg (by rw [← hsome]; decide)]
      exact ih
    | some i =>
      rw [hn] at hsome
      rw [List.filterMap_cons_some hn, List.filter_cons_of_pos hsome.symm]
      exact .cons (Injection.isOf_of_eq_some hn) ih

/-! ## The scripts of a text -/

/-- A script lies within the code in which it is found. -/
theorem TokenRef.between_of_injection? {t : TokenRef} {i : Injection} (h : t.injection? = some i) :
    t.span.start ≤ i.span.start ∧ i.span.stop ≤ t.span.stop := by
  unfold injection? at h
  obtain ⟨code, -, hi⟩ := Option.bind_eq_some_iff.1 h
  split at hi
  · obtain ⟨span, hspan, hi⟩ := Option.bind_eq_some_iff.1 hi
    cases hi
    obtain ⟨before, content, after, htext, -, rfl⟩ := exists_of_contentSpan? hspan
    have hsize : t.token.size = Text.size before + Text.size content + Text.size after := by
      rw [Token.size, htext, Text.size_append, Text.size_append]
    simp only [Span.shift, TokenRef.span]
    omega
  · cases hi

/-- **The scripts that are found in a text are those of its statements whose code is not blank**,
each one once. They come in the order of the text, and each of them is all of the code but blank
lines at both ends. -/
theorem injections_parse (s : Text) : ∃ statements : List NodeRef,
    statements.Perm ((nodesOf s).filter NodeRef.holdsScript) ∧
      List.Forall₂ Injection.IsOf (NodeRef.root (parse s).tree).injections statements ∧
      (NodeRef.root (parse s).tree).injections.Pairwise fun i j => i.span.stop ≤ j.span.start := by
  have hshaped : ∀ n ∈ nodesOf s, n.kind.Admits n.children := fun n hn => (shaped_parse s).admits hn
  obtain ⟨statements, hrel, hperm⟩ :=
    List.perm_comp_forall₂ (NodeRef.injections_perm _) (NodeRef.forall₂_injection? hshaped)
  refine ⟨statements, hperm, hrel, List.pairwise_filterMap.2 ?_⟩
  refine (NodeRef.pairwise_stop_allTokens _).imp fun {t u} htu i hi j hj => ?_
  have hi := (TokenRef.between_of_injection? hi).2
  have hj := (TokenRef.between_of_injection? hj).1
  omega

end NginxConf
